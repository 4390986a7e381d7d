import MissionScript.Proofs.Renaming.Glyph
import MissionScript.Proofs.Step

/-!
# Renaming and splitting

Whatever splits a text at separators or groups splits a renamed text at the same places.
-/

namespace MissionScript

open Lettered

theorem separates_isTop {p : Char → Bool} (separates : Separates p) :
    Separates (α := Glyph) fun g => g.isTop && p g.char :=
  fun g holds => separates g.char (Bool.and_eq_true_iff.mp holds).2

theorem separates_isDelimiter {delimiters : Text} (marks : delimiters.any isWordChar = false)
    (plain : '.' ∉ delimiters) : Separates (α := Char) (isDelimiter delimiters) := by
  intro c holds
  simp only [isDelimiter, Bool.or_eq_true, Bool.and_eq_true, List.contains_iff_mem] at holds
  rcases holds with member | ⟨-, blank⟩
  · exact ⟨Bool.eq_false_iff.mpr (List.any_eq_false.mp marks c member), fun dot => plain (dot ▸ member)⟩
  · exact separates_isBlank c blank

namespace Renamed

variable {ρ : Renaming} {afterDot : Bool} {s t : Text} {gs gt : List Glyph}

theorem tidy {pieces pieces' : List (List Glyph)}
    (related : List.Forall₂ (Renamed ρ false) pieces pieces') :
    List.Forall₂ (Renamed ρ false) (MissionScript.tidy pieces) (MissionScript.tidy pieces') := by
  induction related with
  | nil => exact .nil
  | cons head tail ih =>
      have trimmed := head.ofGlyphs.trim
      simp only [MissionScript.tidy, List.map_cons, List.filter_cons, trimmed.isEmpty_eq]
      split
      · exact .cons trimmed ih
      · exact ih

theorem splitTop (related : Renamed ρ false s t) {p : Char → Bool} (separates : Separates p) :
    List.Forall₂ (Renamed ρ false) (MissionScript.splitTop p s) (MissionScript.splitTop p t) :=
  tidy (related.glyphs.splitOnP (separates_isTop separates))

/-- The pieces of a list in brackets that are required. -/
theorem separateGroup (related : Renamed ρ false s t) {family : Bracket} {delimiters : Text}
    (separates : Separates (α := Char) (isDelimiter delimiters)) {pieces : List Text}
    (read : MissionScript.separateGroup family delimiters true s = .ok pieces) :
    ∃ pieces', MissionScript.separateGroup family delimiters true t = .ok pieces' ∧
      List.Forall₂ (Renamed ρ false) pieces pieces' := by
  simp only [MissionScript.separateGroup, if_true] at read ⊢
  cases found : family.scan s.trim 0 with
  | notFound =>
      rw [found] at read
      cases read
  | unmatched before =>
      rw [found] at read
      cases read
  | matched group =>
      rw [found] at read
      obtain ⟨group', found', -, inside, -, outer⟩ := related.trim.exists_scan found
      simp only [found', outer]
      cases isOuter : group.isOuter with
      | false =>
          simp only [isOuter, Bool.false_eq_true, if_false] at read
          cases read
      | true =>
          simp only [isOuter, if_true] at read
          cases read
          exact ⟨_, rfl, inside.ofGlyphs.splitTop separates⟩

end Renamed

/-! ### Decomposing -/

theorem append_of_splitLast {p : Glyph → Bool} {gs before after : List Glyph}
    (cut : splitLast p gs = some (before, after)) :
    ∃ g, p g ∧ gs = before ++ g :: after := by
  induction gs generalizing before with
  | nil => cases cut
  | cons g gs ih =>
      rw [splitLast] at cut
      cases inner : splitLast p gs with
      | some x =>
          rw [inner] at cut
          cases cut
          obtain ⟨found, holds, whole⟩ := ih inner
          exact ⟨found, holds, by rw [whole]; rfl⟩
      | none =>
          rw [inner] at cut
          by_cases here : p g
          · simp only [here, if_true] at cut
            cases cut
            exact ⟨g, here, rfl⟩
          · simp only [here, Bool.false_eq_true, if_false] at cut
            cases cut

/-- What stands behind the last comma before the options. -/
theorem drop_of_glyphs {text : Text} {before head options rest : List Glyph} {opening : Glyph}
    {p : Glyph → Bool} (whole : text.glyphs = before ++ opening :: rest)
    (cut : ∃ g, p g ∧ before = head ++ g :: options) :
    text.drop ((Text.ofGlyphs head).length + 1) = Text.ofGlyphs (options ++ opening :: rest) := by
  obtain ⟨comma, -, rfl⟩ := cut
  have chars := congrArg Text.ofGlyphs whole
  rw [Text.ofGlyphs_glyphs, List.append_assoc] at chars
  rw [chars]
  simp only [Text.ofGlyphs, List.map_append, List.map_cons, List.cons_append, List.length_map]
  have size : head.length = (head.map (·.char)).length := (List.length_map _).symm
  rw [size, List.drop_append]
  simp

theorem splitLast_run {p : Glyph → Bool} (between : BetweenWords p) {run : List Glyph}
    (letters : ∀ g ∈ run, inWord g) (gs : List Glyph) :
    splitLast p (run ++ gs) = (splitLast p gs).map fun (before, after) => (run ++ before, after) := by
  induction run with
  | nil => simp
  | cons g run ih =>
      rw [List.cons_append, splitLast, ih fun h member => letters h (List.mem_cons_of_mem _ member)]
      cases splitLast p gs with
      | some x => rfl
      | none => simp [between g (letters g (List.mem_cons_self ..))]

/-- Splitting into pieces and groups, with every group a piece of its own. -/
theorem splitGroups_cons (family : Bracket) (piece : List Glyph) (g : Glyph) (rest : List Glyph) :
    splitGroups family false piece (g :: rest) =
      if g.opens family && g.depth == 0 then
        (family.splitClosing 0 rest).bind fun (inside, after) =>
          (splitGroups family false [] after).map fun pieces =>
            piece.reverse :: (g :: rest.take (inside.length + 1)) :: pieces
      else if g.isTop && (isBlank g.char || g.char == ',') then
        (splitGroups family false [] rest).map fun pieces => piece.reverse :: pieces
      else splitGroups family false (g :: piece) rest := by
  rw [splitGroups]
  split
  · split
    · rename_i absent
      rw [absent]
      rfl
    · rename_i inside after found
      rw [found]
      simp
  · rfl

theorem splitGroups_piece (family : Bracket) (piece gs : List Glyph) :
    splitGroups family false piece gs =
      (splitGroups family false [] gs).map (List.modifyHead (piece.reverse ++ ·)) := by
  induction gs generalizing piece with
  | nil => simp [splitGroups]
  | cons g rest ih =>
      rw [splitGroups_cons, splitGroups_cons]
      split
      · cases family.splitClosing 0 rest with
        | none => rfl
        | some x =>
            obtain ⟨inside, after⟩ := x
            simp only [Option.bind_some, Option.map_map]
            congr 1
            funext pieces
            simp
      · split
        · rw [Option.map_map]
          congr 1
          funext pieces
          simp
        · rw [ih (g :: piece), ih [g], Option.map_map]
          congr 1
          funext pieces
          cases pieces with
          | nil => rfl
          | cons head tail => simp

namespace Renamed

variable {ρ : Renaming} {afterDot : Bool} {s t : Text} {gs gt : List Glyph}

theorem splitLast {p : Glyph → Bool} (related : Renamed ρ afterDot gs gt)
    (separates : Separates p) :
    Option.Rel (RenamedPair ρ afterDot) (MissionScript.splitLast p gs)
      (MissionScript.splitLast p gt) := by
  induction related with
  | nil => exact .none
  | mark between rest ih =>
      rename_i afterDot g gs gt
      rw [MissionScript.splitLast, MissionScript.splitLast]
      cases left : MissionScript.splitLast p gs with
      | some x =>
          obtain ⟨y, right, before, after⟩ := exists_of_rel ih left
          rw [right]
          exact .some ⟨.mark between before, after⟩
      | none =>
          rw [none_of_rel ih left]
          by_cases here : p g
          · simp only [here, if_true]
            have plain : (letter g == '.') = false := beq_eq_false_iff_ne.mpr (separates g here).2
            exact .some ⟨.nil, plain ▸ rest⟩
          · simp only [here, Bool.false_eq_true, if_false]
            exact .none
  | word g filled letters maximal rest ih =>
      rw [splitLast_run separates.betweenWords fun h => inWord_of_mem_writeWord letters,
        splitLast_run separates.betweenWords fun h =>
          inWord_of_mem_writeWord (Renaming.letters_word letters)]
      refine rel_map ih fun x y cut both => ⟨?_, both.2⟩
      obtain ⟨_, -, whole⟩ := append_of_splitLast cut
      exact .word g filled letters (startsWord_of_append whole maximal) both.1

/-- Related lists of pieces, with the first piece in the place of the text. -/
def Pieces (ρ : Renaming) (afterDot : Bool) (gs : List Glyph) (x y : List (List Glyph)) : Prop :=
  ∃ first others first' others', x = first :: others ∧ y = first' :: others' ∧
    Renamed ρ afterDot first first' ∧ (startsWord gs = false → startsWord first = false) ∧
    List.Forall₂ (Renamed ρ false) others others'

theorem Pieces.forall₂ {x y : List (List Glyph)} (pieces : Pieces ρ false gs x y) :
    List.Forall₂ (Renamed ρ false) x y := by
  obtain ⟨first, others, first', others', rfl, rfl, head, -, tail⟩ := pieces
  exact .cons head tail

theorem splitGroups_run (family : Bracket) {run : List Glyph} (letters : ∀ g ∈ run, inWord g)
    (gs : List Glyph) :
    splitGroups family false [] (run ++ gs) =
      (splitGroups family false [] gs).map (List.modifyHead (run ++ ·)) := by
  induction run with
  | nil =>
      simp only [List.nil_append]
      rw [show (List.modifyHead fun x : List Glyph => x) = id by
        funext pieces
        cases pieces <;> rfl, Option.map_id, id]
  | cons g run ih =>
      have word := letters g (List.mem_cons_self ..)
      have blank : (isBlank g.char || g.char == ',') = false := by
        rw [Bool.or_eq_false_iff]
        exact ⟨isBlank_of_isWordChar word, (separates_char rfl (by decide)).betweenWords _ word⟩
      have opens : g.opens family = false := betweenWords_opens family g word
      rw [List.cons_append, splitGroups_cons, opens, Bool.false_and, if_neg Bool.false_ne_true, blank,
        Bool.and_false, if_neg Bool.false_ne_true, splitGroups_piece, ih fun h member => letters h (List.mem_cons_of_mem _ member),
        Option.map_map]
      congr 1
      funext pieces
      cases pieces <;> rfl

theorem splitGroups (family : Bracket) (related : Renamed ρ afterDot gs gt) :
    Option.Rel (Pieces ρ afterDot gs) (MissionScript.splitGroups family false [] gs)
      (MissionScript.splitGroups family false [] gt) := by
  induction length : gs.length using Nat.strongRecOn generalizing gs gt afterDot with
  | ind n ih =>
      subst length
      cases related with
      | nil =>
          rw [MissionScript.splitGroups]
          exact .some ⟨[], [], [], [], rfl, rfl, .nil, fun _ => rfl, .nil⟩
      | mark between rest =>
          rename_i g gs gt
          rw [splitGroups_cons, splitGroups_cons]
          by_cases opens : (g.opens family && g.depth == 0) = true
          · rw [if_pos opens, if_pos opens]
            have closed := rest.splitClosing (b := family) 0
            cases left : family.splitClosing 0 gs with
            | none =>
                rw [none_of_rel closed left]
                exact .none
            | some x =>
                obtain ⟨y, right, ⟨inside, after⟩, closing, mark, plain, rfl, rfl⟩ :=
                  exists_of_rel closed left
                rw [right, Option.bind_some, Option.bind_some]
                have shorter : x.2.length < (g :: (x.1 ++ closing :: x.2)).length := by
                  simp only [List.length_cons, List.length_append]
                  omega
                refine rel_map (ih _ shorter after rfl) fun pieces pieces' _ both => ?_
                have group : Renamed ρ false (g :: (x.1 ++ closing :: x.2).take (x.1.length + 1))
                    (g :: (y.1 ++ closing :: y.2).take (y.1.length + 1)) := by
                  have taken (z : List Glyph × List Glyph) :
                      (z.1 ++ closing :: z.2).take (z.1.length + 1) = z.1 ++ [closing] := by
                    rw [List.take_length_add_append]
                    rfl
                  rw [taken, taken]
                  exact .mark between (inside.join mark .nil)
                exact ⟨[], _, [], _, rfl, rfl, .nil, fun _ => rfl, .cons group both.forall₂⟩
          · rw [if_neg opens, if_neg opens]
            by_cases separator : (g.isTop && (isBlank g.char || g.char == ',')) = true
            · rw [if_pos separator, if_pos separator]
              have separates : (letter g == '.') = false := by
                rw [beq_eq_false_iff_ne]
                intro dot
                rw [show g.char = '.' from dot] at separator
                revert separator
                simp [show isBlank '.' = false by decide]
              rw [separates] at rest
              refine rel_map (ih _ (by simp) rest rfl) fun pieces pieces' _ both => ?_
              exact ⟨[], _, [], _, rfl, rfl, .nil, fun _ => rfl, both.forall₂⟩
            · rw [if_neg separator, if_neg separator, splitGroups_piece,
                splitGroups_piece _ _ gt]
              refine rel_map (ih _ (by simp) rest rfl) fun pieces pieces' _ both => ?_
              obtain ⟨first, others, first', others', rfl, rfl, head, -, tail⟩ := both
              exact ⟨_, _, _, _, rfl, rfl, .mark between head, fun _ => between, tail⟩
      | word g filled letters maximal rest =>
          rename_i gs gt word
          rw [splitGroups_run _ fun h => inWord_of_mem_writeWord letters,
            splitGroups_run _ fun h => inWord_of_mem_writeWord (Renaming.letters_word letters)]
          have shorter : gs.length < (writeWord g word ++ gs).length := by
            simp [writeWord, List.length_pos_iff.mpr filled]
          refine rel_map (ih _ shorter rest rfl) fun pieces pieces' _ both => ?_
          obtain ⟨first, others, first', others', rfl, rfl, head, starts, tail⟩ := both
          refine ⟨_, _, _, _, rfl, rfl, .word g filled letters (starts maximal) head, ?_, tail⟩
          intro outside
          rw [startsWord_writeWord filled letters] at outside
          cases outside

theorem splitOptions? (related : Renamed ρ false s t) :
    Option.Rel (List.Forall₂ (Renamed ρ false)) (MissionScript.splitOptions? s)
      (MissionScript.splitOptions? t) := by
  have separatesBrace : Separates (α := Glyph) fun g => g.opens .brace && g.depth == 0 :=
    fun g holds => separates_opens .brace g (Bool.and_eq_true_iff.mp holds).1
  have separatesComma : Separates (α := Glyph) fun g => g.isTop && g.char == ',' :=
    separates_isTop (separates_char rfl (by decide))
  unfold MissionScript.splitOptions?
  apply rel_bind (related.glyphs.splitFirst separatesBrace)
  rintro ⟨before, opening, rest⟩ ⟨before', opening', rest'⟩ cut cut' ⟨same, front, back⟩
  dsimp only at same front back
  subst same
  apply rel_bind (back.splitClosing 0)
  rintro ⟨inside, after⟩ ⟨inside', after'⟩ - - ⟨⟨-, behind⟩, -⟩
  apply rel_bind (rel_guard (by rw [behind.ofGlyphs.isBlankText_eq]))
  rintro ⟨⟩ ⟨⟩ - - -
  apply rel_bind (front.splitLast separatesComma)
  rintro ⟨head, options⟩ ⟨head', options'⟩ comma comma' ⟨first, second⟩
  have trimmed := first.ofGlyphs.trim
  apply rel_bind (rel_guard (by rw [trimmed.isEmpty_eq]))
  rintro ⟨⟩ ⟨⟩ - - -
  obtain ⟨whole, opens⟩ := append_of_splitFirst cut
  have ⟨brace, plain⟩ := separatesBrace opening opens
  have joined : Renamed ρ false (options ++ opening :: rest) (options' ++ opening :: rest') :=
    second.join brace (beq_eq_false_iff_ne.mpr plain ▸ back)
  rw [drop_of_glyphs whole (append_of_splitLast comma),
    drop_of_glyphs (append_of_splitFirst cut').1 (append_of_splitLast comma')]
  exact .some (.cons trimmed (.cons joined.ofGlyphs.trim .nil))

theorem decompose_ok (related : Renamed ρ false s t) {family : Bracket} {pieces : List Text}
    (read : MissionScript.decompose family false false s = .ok pieces) :
    ∃ pieces', MissionScript.decompose family false false t = .ok pieces' ∧
      List.Forall₂ (Renamed ρ false) pieces pieces' := by
  unfold MissionScript.decompose at read ⊢
  obtain ⟨⟨⟩, balanced, read⟩ := Outcome.bind_eq_ok_iff.mp read
  have options := related.trim.splitOptions?
  have groups := related.trim.glyphs.splitGroups family
  simp only [Bool.false_eq_true, if_false] at balanced read ⊢
  rw [related.trim.checkBalance_ok balanced]
  cases found : MissionScript.splitOptions? s.trim with
  | some tokens =>
      obtain ⟨tokens', found', both⟩ := exists_of_rel options found
      rw [found] at read
      cases read
      refine ⟨tokens', ?_, both⟩
      simp only [found']
      rfl
  | none =>
      rw [found] at read
      have absent := none_of_rel options found
      cases cut : MissionScript.splitGroups family false [] s.trim.glyphs with
      | none =>
          simp only [cut] at read
          cases read
      | some pieces =>
          obtain ⟨pieces', cut', both⟩ := exists_of_rel groups cut
          simp only [cut] at read
          cases read
          refine ⟨_, ?_, tidy both.forall₂⟩
          simp only [absent, cut']
          rfl

end Renamed

end MissionScript
