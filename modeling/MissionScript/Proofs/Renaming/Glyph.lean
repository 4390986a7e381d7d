import Mathlib.Data.List.Forall2
import MissionScript.Proofs.Renaming.Word
import MissionScript.Proofs.Script.Literal
import MissionScript.Script.Split

/-!
# Renaming and glyphs

No word holds a quote or a bracket, so a renamed text has the literals and the groups of the text
before it.
-/

namespace MissionScript

open Lettered

section Lists

variable {α : Type} [Lettered α] {ρ : Renaming} {afterDot : Bool} {p : α → Bool} {s t : List α}

/-- `p` holds of nothing in a word. -/
def BetweenWords (p : α → Bool) : Prop := ∀ b, inWord b → p b = false

theorem Separates.betweenWords (separates : Separates p) : BetweenWords p := by
  intro b word
  cases holds : p b with
  | false => rfl
  | true =>
      rw [(separates b holds).1] at word
      cases word

theorem BetweenWords.not_inWord (between : BetweenWords p) {b : α} (holds : p b) :
    inWord b = false := by
  cases word : inWord b with
  | false => rfl
  | true =>
      rw [between b word] at holds
      cases holds

theorem betweenWords_contains {marks : Text} (between : marks.any isWordChar = false) :
    BetweenWords (α := Char) marks.contains := by
  intro c word
  rw [Bool.eq_false_iff, ne_eq, List.contains_iff_mem]
  intro member
  exact List.any_eq_false.mp between c member word

/-- Two pairs of related lists. The second ones do not follow a dot. -/
def RenamedPair (ρ : Renaming) (afterDot : Bool) (x y : List α × List α) : Prop :=
  Renamed ρ afterDot x.1 y.1 ∧ Renamed ρ false x.2 y.2

namespace Renamed

theorem any_eq (related : Renamed ρ afterDot s t) (between : BetweenWords p) :
    t.any p = s.any p := by
  have passed {word : Text} (a : α) (letters : ∀ c ∈ word, isWordChar c) :
      (writeWord a word).any p = false := by
    rw [List.any_eq_false]
    intro b member holds
    rw [between b (inWord_of_mem_writeWord letters member)] at holds
    cases holds
  induction related with
  | nil => rfl
  | mark _ _ ih => rw [List.any_cons, List.any_cons, ih]
  | word a _ letters _ _ ih =>
      rw [List.any_append, List.any_append, passed a letters,
        passed a (Renaming.letters_word letters), ih]

theorem all_eq (related : Renamed ρ afterDot s t) (between : BetweenWords p) :
    t.all p = s.all p := by
  have stopped {word : Text} (a : α) (filled : word ≠ []) (letters : ∀ c ∈ word, isWordChar c) :
      (writeWord a word).all p = false := by
    obtain ⟨c, word, rfl⟩ := List.exists_cons_of_ne_nil filled
    have fails := between (write a c) (by simp [letters])
    simp [writeWord, fails]
  induction related with
  | nil => rfl
  | mark _ _ ih => rw [List.all_cons, List.all_cons, ih]
  | word a filled letters _ _ ih =>
      rw [List.all_append, List.all_append, stopped a filled letters,
        stopped a (Renaming.word_ne_nil filled) (Renaming.letters_word letters), Bool.false_and,
        Bool.false_and]

theorem splitOnP_run (between : BetweenWords p) {run : List α} (letters : ∀ b ∈ run, inWord b)
    {first : List α} {others : List (List α)} (cut : s.splitOnP p = first :: others) :
    (run ++ s).splitOnP p = (run ++ first) :: others := by
  induction run with
  | nil => exact cut
  | cons b run ih =>
      rw [List.cons_append, List.splitOnP_cons_eq_if_modifyHead,
        between b (letters b (List.mem_cons_self ..)), if_neg Bool.false_ne_true,
        ih fun c member => letters c (List.mem_cons_of_mem _ member)]
      rfl

theorem startsWord_head_splitOnP {first : List α} {others : List (List α)}
    (cut : s.splitOnP p = first :: others)
    (maximal : startsWord s = false) : startsWord first = false := by
  cases s with
  | nil =>
      rw [List.splitOnP_nil] at cut
      cases cut
      rfl
  | cons b s =>
      rw [List.splitOnP_cons_eq_if_modifyHead] at cut
      by_cases separator : p b
      · rw [if_pos separator] at cut
        cases cut
        rfl
      · rw [if_neg separator] at cut
        obtain ⟨head, tail, inner⟩ := List.exists_cons_of_ne_nil (List.splitOnP_ne_nil p s)
        rw [inner] at cut
        cases cut
        exact maximal

theorem splitOnP_cons (related : Renamed ρ afterDot s t) (separates : Separates p) :
    ∃ first others first' others', s.splitOnP p = first :: others ∧
      t.splitOnP p = first' :: others' ∧ Renamed ρ afterDot first first' ∧
      List.Forall₂ (Renamed ρ false) others others' := by
  induction related with
  | nil => exact ⟨[], [], [], [], List.splitOnP_nil, List.splitOnP_nil, .nil, .nil⟩
  | mark between rest ih =>
      rename_i afterDot a s t
      obtain ⟨first, others, first', others', cut, cut', head, tail⟩ := ih
      simp only [List.splitOnP_cons_eq_if_modifyHead, cut, cut']
      by_cases separator : p a
      · have plain : (letter a == '.') = false := beq_eq_false_iff_ne.mpr (separates a separator).2
        rw [plain] at head
        simp only [separator, if_true]
        exact ⟨[], _, [], _, rfl, rfl, .nil, .cons head tail⟩
      · rw [if_neg separator, if_neg separator]
        exact ⟨_, _, _, _, rfl, rfl, .mark between head, tail⟩
  | word a filled letters maximal rest ih =>
      obtain ⟨first, others, first', others', cut, cut', head, tail⟩ := ih
      have between := separates.betweenWords
      refine ⟨_, _, _, _, splitOnP_run between (fun b => inWord_of_mem_writeWord letters) cut,
        splitOnP_run between (fun b => inWord_of_mem_writeWord (Renaming.letters_word letters))
          cut', ?_, tail⟩
      exact .word a filled letters (startsWord_head_splitOnP cut maximal) head

theorem splitOnP (related : Renamed ρ false s t) (separates : Separates p) :
    List.Forall₂ (Renamed ρ false) (s.splitOnP p) (t.splitOnP p) := by
  obtain ⟨first, others, first', others', cut, cut', head, tail⟩ := related.splitOnP_cons separates
  rw [cut, cut']
  exact .cons head tail

end Renamed

end Lists

section Options

variable {α β γ δ : Type} {r : α → β → Prop} {x : Option α} {y : Option β}

theorem exists_of_rel (both : Option.Rel r x y) {a : α} (found : x = some a) :
    ∃ b, y = some b ∧ r a b := by
  cases both with
  | none => cases found
  | some related =>
      cases found
      exact ⟨_, rfl, related⟩

theorem none_of_rel (both : Option.Rel r x y) (absent : x = none) : y = none := by
  cases both with
  | none => rfl
  | some => cases absent

theorem rel_map (both : Option.Rel r x y) {q : γ → δ → Prop} {f : α → γ} {g : β → δ}
    (step : ∀ a b, x = some a → r a b → q (f a) (g b)) : Option.Rel q (x.map f) (y.map g) := by
  cases both with
  | none => exact .none
  | some related => exact .some (step _ _ rfl related)

theorem rel_bind (both : Option.Rel r x y) {q : γ → δ → Prop} {f : α → Option γ} {g : β → Option δ}
    (step : ∀ a b, x = some a → y = some b → r a b → Option.Rel q (f a) (g b)) :
    Option.Rel q (x >>= f) (y >>= g) := by
  cases both with
  | none => exact .none
  | some related => exact step _ _ rfl rfl related

theorem rel_findSome? {entries : List γ} {q : α → β → Prop} {f : γ → Option α} {g : γ → Option β}
    (step : ∀ entry ∈ entries, Option.Rel q (f entry) (g entry)) :
    Option.Rel q (entries.findSome? f) (entries.findSome? g) := by
  induction entries with
  | nil => exact .none
  | cons entry entries ih =>
      have head := step entry (List.mem_cons_self ..)
      rw [List.findSome?_cons, List.findSome?_cons]
      cases left : f entry with
      | none =>
          rw [none_of_rel head left]
          exact ih fun other member => step other (List.mem_cons_of_mem _ member)
      | some a =>
          obtain ⟨b, right, related⟩ := exists_of_rel head left
          rw [right]
          exact .some related

theorem rel_guard {p q : Prop} [Decidable p] [Decidable q] (same : p ↔ q) :
    Option.Rel (fun _ _ => True) (guard p : Option Unit) (guard q : Option Unit) := by
  by_cases holds : p
  · simp only [guard, if_pos holds, if_pos (same.mp holds)]
    exact .some trivial
  · simp only [guard, if_neg holds, if_neg fun other => holds (same.mpr other)]
    exact .none

end Options

/-! ### Glyphs -/

theorem not_bracket_of_isWordChar {c : Char} (word : isWordChar c) (b : Bracket) :
    (c == b.opening) = false ∧ (c == b.closing) = false := by
  constructor
  all_goals
    rw [beq_eq_false_iff_ne]
    rintro rfl
    cases b <;> revert word <;> decide

theorem isOpening_of_isWordChar {c : Char} (word : isWordChar c) : isOpening c = false := by
  simp only [isOpening, Bracket.ofOpening?, Option.isSome_eq_false_iff, Option.isNone_iff_eq_none,
    List.find?_eq_none]
  intro b _ same
  rw [Bool.beq_comm, (not_bracket_of_isWordChar word b).1] at same
  cases same

theorem isClosing_of_isWordChar {c : Char} (word : isWordChar c) : isClosing c = false := by
  simp only [isClosing, Bracket.ofClosing?, Option.isSome_eq_false_iff, Option.isNone_iff_eq_none,
    List.find?_eq_none]
  intro b _ same
  rw [Bool.beq_comm, (not_bracket_of_isWordChar word b).2] at same
  cases same

theorem betweenWords_opens (b : Bracket) : BetweenWords (α := Glyph) (·.opens b) := by
  intro g word
  simp [Glyph.opens, (not_bracket_of_isWordChar (c := g.char) word b).1]

theorem betweenWords_closes (b : Bracket) : BetweenWords (α := Glyph) (·.closes b) := by
  intro g word
  simp [Glyph.closes, (not_bracket_of_isWordChar (c := g.char) word b).2]

theorem separates_opens (b : Bracket) : Separates (α := Glyph) (·.opens b) := by
  intro g opens
  refine ⟨(betweenWords_opens b).not_inWord opens, ?_⟩
  intro dot
  have opening : g.char = b.opening := by simpa using (Bool.and_eq_true_iff.mp opens).2
  rw [show letter g = g.char from rfl, opening] at dot
  cases b <;> revert dot <;> decide

theorem separates_closes (b : Bracket) : Separates (α := Glyph) (·.closes b) := by
  intro g closes
  refine ⟨(betweenWords_closes b).not_inWord closes, ?_⟩
  intro dot
  have closing : g.char = b.closing := by simpa using (Bool.and_eq_true_iff.mp closes).2
  rw [show letter g = g.char from rfl, closing] at dot
  cases b <;> revert dot <;> decide

namespace Literal

variable {p q : Literal} {c : Char}

theorem covers_word (word : isWordChar c) : p.covers c = p.inside := by
  have other : (c == '\'') = false := by
    rw [beq_eq_false_iff_ne]
    rintro rfl
    revert word
    decide
  simp [covers, other]

theorem opensAfter_word (word : isWordChar c) : opensAfter (some c) = false := by
  simp only [opensAfter, isBlank_of_isWordChar word, Bool.false_or]
  exact betweenWords_contains (by decide) c word

theorem step_word (word : isWordChar c) : Alike (p.step c) ⟨p.inside, some c⟩ := by
  have other : (c == '\'') = false := by
    rw [beq_eq_false_iff_ne]
    rintro rfl
    revert word
    decide
  refine ⟨?_, rfl⟩
  simp [step, covers_word word, other]

/-- No literal opens right behind a word. -/
theorem Alike.behind_word {word word' : Text} {inside : Bool} {before before' : Option Char}
    (filled : word ≠ []) (letters : ∀ c ∈ word, isWordChar c) (filled' : word' ≠ [])
    (letters' : ∀ c ∈ word', isWordChar c) :
    Alike ⟨inside, word.getLast?.or before⟩ ⟨inside, word'.getLast?.or before'⟩ := by
  have last {word : Text} (filled : word ≠ []) (letters : ∀ c ∈ word, isWordChar c)
      (before : Option Char) : opensAfter (word.getLast?.or before) = false := by
    rw [List.getLast?_eq_some_getLast filled, Option.some_or]
    exact opensAfter_word (letters _ (List.getLast_mem filled))
  exact ⟨rfl, (last filled letters before).trans (last filled' letters' before').symm⟩

end Literal

theorem depthAfter_word {c : Char} (word : isWordChar c) (depth : Nat) :
    depthAfter depth c = depth := by
  simp [depthAfter, isOpening_of_isWordChar word, isClosing_of_isWordChar word]

/-- Reading over a word changes nothing but that no literal can open right after it. -/
theorem glyphsFrom_word {word : Text} (letters : ∀ c ∈ word, isWordChar c) (p : Literal)
    (depth : Nat) (rest : Text) :
    glyphsFrom p depth (word ++ rest) =
      writeWord ⟨'_', p.inside, depth⟩ word ++
        glyphsFrom ⟨p.inside, word.getLast?.or p.previous⟩ depth rest := by
  induction word generalizing p with
  | nil => rfl
  | cons c word ih =>
      have letter := letters c (List.mem_cons_self ..)
      rw [List.cons_append, glyphsFrom]
      simp only [Literal.covers_word letter, depthAfter_word letter, ite_self]
      rw [glyphsFrom_alike (Literal.step_word letter),
        ih fun d member => letters d (List.mem_cons_of_mem _ member)]
      simp only [writeWord, List.map_cons, List.cons_append, List.getLast?_cons]
      cases word with
      | nil => rfl
      | cons d word => rfl

theorem ofGlyphs_writeWord (g : Glyph) (word : Text) :
    Text.ofGlyphs (writeWord g word) = writeWord g.char word := by
  simp [Text.ofGlyphs, writeWord, write, Function.comp_def]

namespace Renamed

variable {ρ : Renaming} {afterDot : Bool}

theorem glyphsFrom {s t : Text} (related : Renamed ρ afterDot s t) {p q : Literal}
    (alike : p.Alike q) (depth : Nat) :
    Renamed ρ afterDot (glyphsFrom p depth s) (MissionScript.glyphsFrom q depth t) := by
  induction related generalizing p q depth with
  | nil => exact .nil
  | mark between rest ih =>
      rename_i c s t
      simp only [MissionScript.glyphsFrom, alike.covers]
      exact .mark between (ih (alike.step c) _)
  | word a filled letters maximal rest ih =>
      rename_i afterDot s t word
      rw [writeWord_char, writeWord_char, glyphsFrom_word letters,
        glyphsFrom_word (Renaming.letters_word letters), alike.1]
      have following : Literal.Alike ⟨q.inside, word.getLast?.or p.previous⟩
          ⟨q.inside, (ρ.word afterDot word).getLast?.or q.previous⟩ :=
        .behind_word filled letters (Renaming.word_ne_nil filled) (Renaming.letters_word letters)
      refine .word _ filled letters ?_ (ih following depth)
      cases s with
      | nil => rfl
      | cons c s => exact maximal

theorem glyphs {s t : Text} (related : Renamed ρ afterDot s t) :
    Renamed ρ afterDot s.glyphs t.glyphs :=
  related.glyphsFrom ⟨rfl, rfl⟩ 0

variable {gs gt : List Glyph}

theorem ofGlyphs (related : Renamed ρ afterDot gs gt) :
    Renamed ρ afterDot (Text.ofGlyphs gs) (Text.ofGlyphs gt) := by
  induction related with
  | nil => exact .nil
  | mark between _ ih => exact .mark between ih
  | word g filled letters maximal rest ih =>
      rename_i gs gt word
      rw [Text.ofGlyphs_append, Text.ofGlyphs_append, ofGlyphs_writeWord, ofGlyphs_writeWord]
      refine .word _ filled letters ?_ ih
      cases gs with
      | nil => rfl
      | cons h gs => exact maximal

/-- The cuts at the first glyph that satisfies `p`. -/
theorem splitFirst {p : Glyph → Bool} (related : Renamed ρ afterDot gs gt)
    (separates : Separates p) :
    Option.Rel (fun x y => x.2.1 = y.2.1 ∧ RenamedPair ρ afterDot (x.1, x.2.2) (y.1, y.2.2))
      (MissionScript.splitFirst p gs) (MissionScript.splitFirst p gt) := by
  have passed {run : List Glyph} (letters : ∀ g ∈ run, inWord g) (gs : List Glyph) :
      MissionScript.splitFirst p (run ++ gs) = (MissionScript.splitFirst p gs).map
        fun cut => (run ++ cut.1, cut.2) := by
    induction run with
    | nil => simp
    | cons g run ih =>
        have fails := separates.betweenWords g (letters g (List.mem_cons_self ..))
        rw [List.cons_append, MissionScript.splitFirst, fails, if_neg Bool.false_ne_true,
          ih fun h member => letters h (List.mem_cons_of_mem _ member), Option.map_map]
        rfl
  induction related with
  | nil => exact .none
  | mark between rest ih =>
      rename_i afterDot g gs gt
      rw [MissionScript.splitFirst, MissionScript.splitFirst]
      by_cases here : p g
      · rw [if_pos here, if_pos here]
        have plain : (letter g == '.') = false := beq_eq_false_iff_ne.mpr (separates g here).2
        exact .some ⟨rfl, .nil, plain ▸ rest⟩
      · rw [if_neg here, if_neg here]
        exact rel_map ih fun x y _ both => ⟨both.1, .mark between both.2.1, both.2.2⟩
  | word g filled letters maximal rest ih =>
      rw [passed fun h => inWord_of_mem_writeWord letters,
        passed fun h => inWord_of_mem_writeWord (Renaming.letters_word letters)]
      refine rel_map ih fun x y cut both => ⟨both.1, ?_, both.2.2⟩
      have whole := (append_of_splitFirst cut).1
      exact .word g filled letters (startsWord_of_append whole maximal) both.2.1

/-- The same glyph closes the group in both. -/
def ClosedAlike (ρ : Renaming) (afterDot : Bool) (gs gt : List Glyph)
    (x y : List Glyph × List Glyph) : Prop :=
  RenamedPair ρ afterDot x y ∧
    ∃ g, inWord g = false ∧ letter g ≠ '.' ∧ gs = x.1 ++ g :: x.2 ∧ gt = y.1 ++ g :: y.2

theorem ClosedAlike.cons {g : Glyph} (between : inWord g = false)
    {x y : List Glyph × List Glyph} (both : ClosedAlike ρ (letter g == '.') gs gt x y) :
    ClosedAlike ρ afterDot (g :: gs) (g :: gt) (g :: x.1, x.2) (g :: y.1, y.2) := by
  obtain ⟨⟨inside, after⟩, closing, mark, plain, left, right⟩ := both
  refine ⟨⟨.mark between inside, after⟩, closing, mark, plain, ?_, ?_⟩
  · rw [left]
    rfl
  · rw [right]
    rfl

theorem splitClosing {b : Bracket} (related : Renamed ρ afterDot gs gt) (depth : Nat) :
    Option.Rel (ClosedAlike ρ afterDot gs gt) (b.splitClosing depth gs)
      (b.splitClosing depth gt) := by
  have passed {run : List Glyph} (letters : ∀ g ∈ run, inWord g) (depth : Nat) (gs : List Glyph) :
      b.splitClosing depth (run ++ gs) = (b.splitClosing depth gs).map
        fun cut => (run ++ cut.1, cut.2) := by
    induction run with
    | nil => simp
    | cons g run ih =>
        have word := letters g (List.mem_cons_self ..)
        rw [List.cons_append, Bracket.splitClosing.eq_def]
        simp only [betweenWords_opens b g word, betweenWords_closes b g word, Bool.false_eq_true,
          if_false]
        rw [ih fun h member => letters h (List.mem_cons_of_mem _ member), Option.map_map]
        rfl
  induction related generalizing depth with
  | nil => exact .none
  | mark between rest ih =>
      rename_i afterDot g gs gt
      have further (depth : Nat) : Option.Rel (ClosedAlike ρ afterDot (g :: gs) (g :: gt))
          ((b.splitClosing depth gs).map fun cut => (g :: cut.1, cut.2))
          ((b.splitClosing depth gt).map fun cut => (g :: cut.1, cut.2)) :=
        rel_map (ih depth) fun x y _ both => both.cons between
      rw [Bracket.splitClosing.eq_def, Bracket.splitClosing.eq_def b depth (g :: gt)]
      by_cases opens : g.opens b
      · simp only [opens, if_true]
        exact further _
      · by_cases closes : g.closes b
        · simp only [opens, closes, Bool.false_eq_true, if_false, if_true]
          cases depth with
          | zero =>
              have plain := (separates_closes b g closes).2
              have following : Renamed ρ false gs gt := beq_eq_false_iff_ne.mpr plain ▸ rest
              exact .some ⟨⟨.nil, following⟩, g, between, plain, rfl, rfl⟩
          | succ depth => exact further depth
        · simp only [opens, closes, Bool.false_eq_true, if_false]
          exact further depth
  | word g filled letters maximal rest ih =>
      rw [passed fun h => inWord_of_mem_writeWord letters,
        passed fun h => inWord_of_mem_writeWord (Renaming.letters_word letters)]
      refine rel_map (ih depth) fun x y cut both => ?_
      obtain ⟨⟨inside, after⟩, closing, mark, plain, left, right⟩ := both
      refine ⟨⟨.word g filled letters (startsWord_of_append left maximal) inside, after⟩, closing,
        mark, plain, ?_, ?_⟩
      · rw [left, List.append_assoc]
      · rw [right, List.append_assoc]

/-- What follows some marks at the start. -/
theorem after? {s t : Text} (related : Renamed ρ false s t) {lead : Text}
    (marks : ∀ c ∈ lead, isWordChar c = false ∧ c ≠ '.') :
    Option.Rel (Renamed ρ false) (Text.after? lead s) (Text.after? lead t) := by
  induction lead generalizing s t with
  | nil => exact .some related
  | cons l lead ih =>
      have ⟨between, plain⟩ := marks l (List.mem_cons_self ..)
      cases related with
      | nil => exact .none
      | mark outside rest =>
          rename_i c s t
          rw [Text.after?, Text.after?]
          by_cases same : l = c
          · subst same
            rw [beq_self_eq_true, if_pos rfl, if_pos rfl]
            rw [show (letter l == '.') = false from beq_eq_false_iff_ne.mpr plain] at rest
            exact ih rest fun d member => marks d (List.mem_cons_of_mem _ member)
          · rw [beq_eq_false_iff_ne.mpr same, if_neg Bool.false_ne_true, if_neg Bool.false_ne_true]
            exact .none
      | word a filled letters =>
          have missed {word : Text} (filled : word ≠ []) (letters : ∀ c ∈ word, isWordChar c)
              (rest : Text) : Text.after? (l :: lead) (word ++ rest) = none := by
            obtain ⟨c, word, rfl⟩ := List.exists_cons_of_ne_nil filled
            have other : (l == c) = false := by
              rw [beq_eq_false_iff_ne]
              rintro rfl
              rw [letters l (List.mem_cons_self ..)] at between
              cases between
            rw [List.cons_append, Text.after?, other, if_neg Bool.false_ne_true]
          rw [writeWord_char, writeWord_char, missed filled letters,
            missed (Renaming.word_ne_nil filled) (Renaming.letters_word letters)]
          exact .none

theorem isBlankText_eq {s t : Text} (related : Renamed ρ afterDot s t) :
    t.isBlankText = s.isBlankText :=
  related.all_eq separates_isBlank.betweenWords

end Renamed

theorem Scan.eq_matched {scan : Scan} {group : Group} (found : scan.group? = some group) :
    scan = .matched group := by
  cases scan with
  | matched other =>
      cases found
      rfl
  | notFound => cases found
  | unmatched before => cases found

theorem splitOpening_zero (b : Bracket) (gs : List Glyph) :
    b.splitOpening 0 gs =
      (splitFirst (·.opens b) gs).map fun (before, _, after) => (before, after) := by
  induction gs with
  | nil => rfl
  | cons g gs ih =>
      rw [Bracket.splitOpening, splitFirst]
      by_cases opens : g.opens b
      · simp [opens]
      · simp only [opens, beq_self_eq_true, Bool.and_false, Bool.false_eq_true, if_false,
          Nat.zero_sub, ih, Option.map_map]
        rfl

namespace Renamed

variable {ρ : Renaming} {afterDot : Bool} {s t : Text} {gs gt : List Glyph}

/-- The groups of a family that come first. -/
theorem scan (related : Renamed ρ false s t) (b : Bracket) :
    Option.Rel (fun x y => Renamed ρ false x.before y.before ∧ Renamed ρ false x.inside y.inside ∧
      Renamed ρ false x.after y.after) (b.scan s 0).group? (b.scan t 0).group? := by
  have opened := related.glyphs.splitFirst (separates_opens b)
  simp only [Bracket.scan, Bracket.scanGlyphs, splitOpening_zero]
  cases left : MissionScript.splitFirst (·.opens b) s.glyphs with
  | none =>
      rw [none_of_rel opened left]
      exact .none
  | some x =>
      obtain ⟨before, opening, rest⟩ := x
      obtain ⟨⟨before', opening', rest'⟩, right, -, first, second⟩ := exists_of_rel opened left
      have closed := second.splitClosing (b := b) 0
      rw [right]
      simp only [Option.map_some]
      cases left : b.splitClosing 0 rest with
      | none =>
          rw [none_of_rel closed left]
          exact .none
      | some x =>
          obtain ⟨inside, after⟩ := x
          obtain ⟨⟨inside', after'⟩, right, ⟨third, fourth⟩, -⟩ := exists_of_rel closed left
          rw [right]
          exact .some ⟨first, third, fourth⟩

/-- The group that comes first is the renamed one. -/
theorem exists_scan (related : Renamed ρ false s t) {b : Bracket} {group : Group}
    (found : b.scan s 0 = .matched group) :
    ∃ group', b.scan t 0 = .matched group' ∧ Renamed ρ false group.before group'.before ∧
      Renamed ρ false group.inside group'.inside ∧ Renamed ρ false group.after group'.after ∧
      group'.isOuter = group.isOuter := by
  obtain ⟨group', found', before, inside, after⟩ :=
    exists_of_rel (related.scan b) (by rw [found]; rfl)
  refine ⟨group', Scan.eq_matched found', before, inside, after, ?_⟩
  rw [Group.isOuter, Group.isOuter, before.ofGlyphs.isBlankText_eq, after.ofGlyphs.isBlankText_eq]

theorem scan_ne_matched (related : Renamed ρ false s t) {b : Bracket}
    (absent : ∀ group, b.scan s 0 ≠ .matched group) (group : Group) : b.scan t 0 ≠ .matched group := by
  have none : (b.scan s 0).group? = none := by
    cases found : b.scan s 0 with
    | matched other => exact absurd found (absent other)
    | notFound => rfl
    | unmatched => rfl
  intro found
  have none' := none_of_rel (related.scan b) none
  rw [found] at none'
  cases none'

theorem nestingFault_run {run : List Glyph} (letters : ∀ g ∈ run, inWord g)
    (opened : List Bracket) (gs : List Glyph) :
    nestingFault opened (run ++ gs) = nestingFault opened gs := by
  induction run with
  | nil => rfl
  | cons g run ih =>
      have word : isWordChar g.char := letters g (List.mem_cons_self ..)
      have opening : Bracket.ofOpening? g.char = none := by
        simpa [isOpening] using isOpening_of_isWordChar word
      have closing : Bracket.ofClosing? g.char = none := by
        simpa [isClosing] using isClosing_of_isWordChar word
      rw [List.cons_append, nestingFault.eq_def]
      have others := ih fun h member => letters h (List.mem_cons_of_mem _ member)
      cases opened with
      | nil => simp only [opening, closing, ite_self, others]
      | cons b opened => simp only [opening, closing, ite_self, others]

theorem nestingFault_eq (related : Renamed ρ afterDot gs gt) (opened : List Bracket) :
    nestingFault opened gt = nestingFault opened gs := by
  induction related generalizing opened with
  | nil => rfl
  | mark between rest ih =>
      rw [nestingFault.eq_def, nestingFault.eq_def opened (_ :: _)]
      cases opened with
      | nil => simp only [ih]
      | cons b opened => simp only [ih]
  | word g filled letters maximal rest ih =>
      rw [nestingFault_run fun h => inWord_of_mem_writeWord letters,
        nestingFault_run fun h => inWord_of_mem_writeWord (Renaming.letters_word letters), ih]

theorem checkBalance_ok (related : Renamed ρ false s t) {u : Unit} (ok : checkBalance s = .ok u) :
    checkBalance t = .ok u := by
  unfold checkBalance at ok ⊢
  rw [related.glyphs.nestingFault_eq []]
  split at ok
  · rfl
  · cases ok

end Renamed

end MissionScript
