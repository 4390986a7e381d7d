import MissionScript.Expression.Token
import MissionScript.Proofs.Text

/-!
# Renaming by words

Putting a new name for an old one touches a text only at its words: a maximal run of word characters
is put back as it stands, or the new name takes its place. A text and a renamed text are related run
by run, so a function that looks at the characters between the words treats both in the same way.
The relation is stated for anything that carries characters, which covers texts and glyphs.
-/

namespace MissionScript

/-- A new name for an object. -/
structure Renaming where
  old : Text
  new : Text
  old_isIdentifier : old.isIdentifier
  new_isIdentifier : new.isIdentifier

/-- What carries a character. -/
class Lettered (α : Type) where
  letter : α → Char
  /-- The same with another character. -/
  write : α → Char → α
  letter_write (a : α) (c : Char) : letter (write a c) = c

instance : Lettered Char := ⟨id, fun _ c => c, fun _ _ => rfl⟩

instance : Lettered Glyph := ⟨(·.char), fun g c => { g with char := c }, fun _ _ => rfl⟩

open Lettered

namespace Lettered

variable {α : Type} [Lettered α]

/-- It is part of a word. -/
def inWord (a : α) : Bool := isWordChar (letter a)

/-- A word in the manner of `a`. -/
def writeWord (a : α) (word : Text) : List α := word.map (write a)

/-- The next thing is part of a word. -/
def startsWord (s : List α) : Bool := s.head?.any inWord

end Lettered

namespace Renaming

variable (ρ : Renaming)

/-- What is put for a word. After a dot it is a field and stays. -/
def word (afterDot : Bool) (word : Text) : Text :=
  if afterDot = false ∧ word = ρ.old then ρ.new else word

/-- A text after the renaming. -/
def text (source : Text) : Text := Text.replaceWord ρ.old ρ.new source

end Renaming

/-- The second list is the first one after the renaming, run by run. `afterDot` says whether a dot
stands directly before them. -/
inductive Renamed {α : Type} [Lettered α] (ρ : Renaming) : Bool → List α → List α → Prop
  | nil {afterDot : Bool} : Renamed ρ afterDot [] []
  | mark {afterDot : Bool} {a : α} {s t : List α} (between : inWord a = false)
      (rest : Renamed ρ (letter a == '.') s t) : Renamed ρ afterDot (a :: s) (a :: t)
  | word {afterDot : Bool} {s t : List α} (a : α) {word : Text} (filled : word ≠ [])
      (letters : ∀ c ∈ word, isWordChar c) (maximal : startsWord s = false)
      (rest : Renamed ρ false s t) :
      Renamed ρ afterDot (writeWord a word ++ s) (writeWord a (ρ.word afterDot word) ++ t)

section Words

variable {α : Type} [Lettered α] {a : α} {word : Text} {s t : List α}

@[simp] theorem inWord_write (a : α) (c : Char) : inWord (write a c) = isWordChar c := by
  simp [inWord, letter_write]

theorem inWord_of_mem_writeWord (letters : ∀ c ∈ word, isWordChar c) {b : α}
    (member : b ∈ writeWord a word) : inWord b := by
  simp only [writeWord, List.mem_map] at member
  obtain ⟨c, among, rfl⟩ := member
  simpa using letters c among

@[simp] theorem writeWord_char (c : Char) (word : Text) : writeWord c word = word :=
  List.map_id' word

theorem writeWord_ne_nil (filled : word ≠ []) : writeWord a word ≠ [] := by
  simpa [writeWord] using filled

@[simp] theorem startsWord_nil : startsWord ([] : List α) = false := rfl

@[simp] theorem startsWord_cons (a : α) (s : List α) : startsWord (a :: s) = inWord a := rfl

theorem startsWord_writeWord (filled : word ≠ []) (letters : ∀ c ∈ word, isWordChar c) :
    startsWord (writeWord a word ++ s) = true := by
  cases word with
  | nil => exact absurd rfl filled
  | cons c word => simpa [writeWord] using letters c (List.mem_cons_self ..)

theorem isWordChar_of_isIdentifier {name : Text} (identifier : name.isIdentifier) :
    name ≠ [] ∧ ∀ c ∈ name, isWordChar c := by
  cases name with
  | nil => cases identifier
  | cons c name =>
      simp only [Text.isIdentifier, Bool.and_eq_true, Bool.or_eq_true, List.all_eq_true] at identifier
      obtain ⟨first, others⟩ := identifier
      constructor
      · simp
      · intro d member
        rcases List.mem_cons.mp member with rfl | member
        · simp only [isWordChar, Char.isAlphanum, Bool.or_eq_true]
          rcases first with alpha | underscore
          · exact .inl (.inl alpha)
          · exact .inr underscore
        · exact others d member

variable {ρ : Renaming}

theorem Renaming.word_ne_nil {afterDot : Bool} (filled : word ≠ []) :
    ρ.word afterDot word ≠ [] := by
  unfold Renaming.word
  split
  · exact (isWordChar_of_isIdentifier ρ.new_isIdentifier).1
  · exact filled

theorem Renaming.letters_word {afterDot : Bool} (letters : ∀ c ∈ word, isWordChar c) :
    ∀ c ∈ ρ.word afterDot word, isWordChar c := by
  unfold Renaming.word
  split
  · exact (isWordChar_of_isIdentifier ρ.new_isIdentifier).2
  · exact letters

@[simp] theorem Renaming.word_after_dot : ρ.word true word = word := by
  simp [Renaming.word]

theorem Renaming.word_of_ne {afterDot : Bool} (other : word ≠ ρ.old) :
    ρ.word afterDot word = word := by
  simp [Renaming.word, other]

@[simp] theorem Renaming.word_old : ρ.word false ρ.old = ρ.new := by
  simp [Renaming.word]

end Words

namespace Renamed

variable {α : Type} [Lettered α] {ρ : Renaming} {afterDot : Bool} {a : α} {s t l r : List α}

theorem eq_nil_iff (related : Renamed ρ afterDot s t) : t = [] ↔ s = [] := by
  cases related with
  | nil => simp
  | mark => simp
  | word a filled =>
      simp [writeWord_ne_nil filled, writeWord_ne_nil (Renaming.word_ne_nil filled)]

/-- Nothing but the letters of words is new. -/
theorem mem (related : Renamed ρ afterDot s t) {b : α} (member : b ∈ t) : inWord b ∨ b ∈ s := by
  induction related with
  | nil => exact .inr member
  | mark _ _ ih =>
      rcases List.mem_cons.mp member with rfl | member
      · exact .inr (List.mem_cons_self ..)
      · exact (ih member).imp_right (List.mem_cons_of_mem _)
  | word a _ letters _ _ ih =>
      rcases List.mem_append.mp member with member | member
      · exact .inl (inWord_of_mem_writeWord (Renaming.letters_word letters) member)
      · exact (ih member).imp_right (List.mem_append_right _)

/-- Nothing but letters of words is lost. -/
theorem mem_of_mem (related : Renamed ρ afterDot s t) {b : α} (member : b ∈ s) :
    inWord b ∨ b ∈ t := by
  induction related with
  | nil => exact .inr member
  | mark _ _ ih =>
      rcases List.mem_cons.mp member with rfl | member
      · exact .inr (List.mem_cons_self ..)
      · exact (ih member).imp_right (List.mem_cons_of_mem _)
  | word a _ letters _ _ ih =>
      rcases List.mem_append.mp member with member | member
      · exact .inl (inWord_of_mem_writeWord letters member)
      · exact (ih member).imp_right (List.mem_append_right _)

/-- What holds of every character outside words still does. -/
theorem all {p : α → Bool} (related : Renamed ρ afterDot s t) (words : ∀ b, inWord b → p b)
    (holds : ∀ b ∈ s, p b) : ∀ b ∈ t, p b := by
  intro b member
  rcases related.mem member with word | member
  · exact words b word
  · exact holds b member

theorem startsWord_of_append (whole : s = l ++ r) (maximal : startsWord s = false) :
    startsWord l = false := by
  cases l with
  | nil => rfl
  | cons b l =>
      rw [whole] at maximal
      exact maximal

/-- A cut at a character between the words is a cut of both. -/
theorem cut (related : Renamed ρ afterDot s t) {l r : List α} (whole : s = l ++ a :: r)
    (between : inWord a = false) :
    ∃ l' r', t = l' ++ a :: r' ∧ Renamed ρ afterDot l l' ∧ Renamed ρ (letter a == '.') r r' := by
  induction related generalizing l with
  | nil => simp at whole
  | mark first rest ih =>
      cases l with
      | nil =>
          simp only [List.nil_append, List.cons.injEq] at whole
          obtain ⟨rfl, rfl⟩ := whole
          exact ⟨[], _, rfl, .nil, rest⟩
      | cons b l =>
          simp only [List.cons_append, List.cons.injEq] at whole
          obtain ⟨rfl, whole⟩ := whole
          obtain ⟨l', r', rfl, left, right⟩ := ih whole
          exact ⟨_ :: l', r', rfl, .mark first left, right⟩
  | word b filled letters maximal rest ih =>
      rename_i dot s t word
      rcases List.append_eq_append_iff.mp whole with ⟨l, rfl, behind⟩ | ⟨tail, run, behind⟩
      · obtain ⟨l', r', rfl, left, right⟩ := ih behind
        have maximal := startsWord_of_append behind maximal
        exact ⟨_, r', (List.append_assoc ..).symm, .word b filled letters maximal left, right⟩
      · cases tail with
        | nil =>
            rw [List.append_nil] at run
            rw [List.nil_append] at behind
            obtain ⟨l', r', rfl, left, right⟩ := ih (l := []) behind.symm
            rw [left.eq_nil_iff.mpr rfl]
            refine ⟨writeWord b (ρ.word dot word), r', rfl, ?_, right⟩
            simpa [← run] using Renamed.word (ρ := ρ) b filled letters startsWord_nil .nil
        | cons c tail =>
            simp only [List.cons_append, List.cons.injEq] at behind
            obtain ⟨rfl, -⟩ := behind
            have inside : a ∈ writeWord b word := by simp [run]
            rw [inWord_of_mem_writeWord letters inside] at between
            cases between

/-- What is no word stays at the front. -/
theorem exists_cons (related : Renamed ρ afterDot (a :: s) t) (between : inWord a = false) :
    ∃ t', t = a :: t' ∧ Renamed ρ (letter a == '.') s t' := by
  obtain ⟨l', t', rfl, empty, rest⟩ := related.cut (l := []) rfl between
  rw [empty.eq_nil_iff.mpr rfl]
  exact ⟨t', rfl, rest⟩

/-- A cut in front of anything but a word is a cut of both. -/
theorem split (related : Renamed ρ afterDot (l ++ r) t) (maximal : startsWord r = false) :
    ∃ l' r', t = l' ++ r' ∧ Renamed ρ afterDot l l' ∧ Renamed ρ false r r' ∧ r'.head? = r.head? := by
  cases r with
  | nil =>
      rw [List.append_nil] at related
      exact ⟨t, [], by simp, related, .nil, rfl⟩
  | cons a r =>
      obtain ⟨l', r', rfl, left, right⟩ := related.cut rfl maximal
      exact ⟨l', a :: r', rfl, left, .mark maximal right, rfl⟩

/-- Two renamed pieces with a character between them. -/
theorem join {l' r' : List α} (left : Renamed ρ afterDot l l') (between : inWord a = false)
    (right : Renamed ρ (letter a == '.') r r') :
    Renamed ρ afterDot (l ++ a :: r) (l' ++ a :: r') := by
  induction left with
  | nil => exact .mark between right
  | mark first _ ih => exact .mark first ih
  | word b filled letters maximal rest ih =>
      rw [List.append_assoc, List.append_assoc]
      refine .word b filled letters ?_ ih
      rename_i s t word
      cases s with
      | nil => exact between
      | cons c s => exact maximal

end Renamed

/-- Where `p` holds there is neither a word nor a dot. -/
def Separates {α : Type} [Lettered α] (p : α → Bool) : Prop :=
  ∀ b, p b → inWord b = false ∧ letter b ≠ '.'

theorem separates_isBlank : Separates (α := Char) isBlank := by
  intro c blank
  constructor
  · cases word : isWordChar c with
    | false => exact word
    | true =>
        rw [isBlank_of_isWordChar word] at blank
        cases blank
  · rintro same
    have dot : c = '.' := same
    rw [dot] at blank
    exact absurd blank (by decide)

theorem separates_char {separator : Char} (between : isWordChar separator = false)
    (other : separator ≠ '.') : Separates (α := Char) (· == separator) := by
  intro c same
  rw [beq_iff_eq] at same
  rw [same]
  exact ⟨between, other⟩

namespace Renamed

variable {α : Type} [Lettered α] {ρ : Renaming} {afterDot : Bool} {p : α → Bool} {s t : List α}

theorem dropWhile_writeWord (separates : Separates p) (a : α) {word : Text} (filled : word ≠ [])
    (letters : ∀ c ∈ word, isWordChar c) (s : List α) :
    (writeWord a word ++ s).dropWhile p = writeWord a word ++ s := by
  obtain ⟨c, word, rfl⟩ := List.exists_cons_of_ne_nil filled
  apply List.dropWhile_cons_of_neg
  intro dropped
  have outside := (separates _ dropped).1
  rw [inWord_write, letters c (List.mem_cons_self ..)] at outside
  cases outside

theorem dropWhile (separates : Separates p) (related : Renamed ρ afterDot s t)
    (start : afterDot = false) : Renamed ρ false (s.dropWhile p) (t.dropWhile p) := by
  induction related with
  | nil => exact .nil
  | mark between rest ih =>
      rename_i a s t
      by_cases dropped : p a
      · rw [List.dropWhile_cons_of_pos dropped, List.dropWhile_cons_of_pos dropped]
        exact ih (beq_eq_false_iff_ne.mpr (separates a dropped).2)
      · rw [List.dropWhile_cons_of_neg dropped, List.dropWhile_cons_of_neg dropped]
        exact .mark between rest
  | word a filled letters maximal rest =>
      rw [dropWhile_writeWord separates a filled letters, dropWhile_writeWord separates a
        (Renaming.word_ne_nil filled) (Renaming.letters_word letters), start]
      exact .word a filled letters maximal rest

/-- The pieces where `p` first fails, which is not in a word. -/
theorem span (related : Renamed ρ afterDot s t) (words : ∀ b, inWord b → p b) :
    Renamed ρ afterDot (s.takeWhile p) (t.takeWhile p) ∧
      Renamed ρ false (s.dropWhile p) (t.dropWhile p) := by
  induction related with
  | nil => exact ⟨.nil, .nil⟩
  | mark between rest ih =>
      rename_i a s t
      by_cases taken : p a
      · rw [List.takeWhile_cons_of_pos taken, List.takeWhile_cons_of_pos taken,
          List.dropWhile_cons_of_pos taken, List.dropWhile_cons_of_pos taken]
        exact ⟨.mark between ih.1, ih.2⟩
      · rw [List.takeWhile_cons_of_neg taken, List.takeWhile_cons_of_neg taken,
          List.dropWhile_cons_of_neg taken, List.dropWhile_cons_of_neg taken]
        exact ⟨.nil, .mark between rest⟩
  | word a filled letters maximal rest ih =>
      have all {word : Text} (letters : ∀ c ∈ word, isWordChar c) :
          ∀ b ∈ writeWord a word, p b := fun b member =>
        words b (inWord_of_mem_writeWord letters member)
      rw [List.takeWhile_append_of_pos (all letters), List.dropWhile_append_of_pos (all letters),
        List.takeWhile_append_of_pos (all (Renaming.letters_word letters)),
        List.dropWhile_append_of_pos (all (Renaming.letters_word letters))]
      have shorter := startsWord_of_append (List.takeWhile_append_dropWhile (p := p)).symm maximal
      exact ⟨.word a filled letters shorter ih.1, ih.2⟩

end Renamed

namespace Renamed

variable {ρ : Renaming} {afterDot : Bool} {s t : Text}

theorem dropEndWhile {p : Char → Bool} (related : Renamed ρ afterDot s t)
    (words : ∀ c, isWordChar c → p c = false) :
    Renamed ρ afterDot (Text.dropEndWhile p s) (Text.dropEndWhile p t) := by
  induction related with
  | nil => exact .nil
  | mark between rest ih =>
      simp only [Text.dropEndWhile_cons, ih.eq_nil_iff]
      split
      · exact .nil
      · exact .mark between ih
  | word a filled letters maximal rest ih =>
      rename_i dot s t word
      have kept {word : Text} (letters : ∀ c ∈ word, isWordChar c) : ∀ c ∈ word, p c = false :=
        fun c member => words c (letters c member)
      simp only [writeWord_char]
      rw [Text.dropEndWhile_append filled (kept letters), Text.dropEndWhile_append
        (Renaming.word_ne_nil filled) (kept (Renaming.letters_word letters))]
      have shorter : startsWord (Text.dropEndWhile p s) = false := by
        cases s with
        | nil => rfl
        | cons c s =>
            rw [Text.dropEndWhile_cons]
            split
            · rfl
            · exact maximal
      simpa using Renamed.word (ρ := ρ) a filled letters shorter ih

theorem trimStart (related : Renamed ρ false s t) : Renamed ρ false s.trimStart t.trimStart :=
  related.dropWhile separates_isBlank rfl

theorem trimEnd (related : Renamed ρ afterDot s t) : Renamed ρ afterDot s.trimEnd t.trimEnd :=
  related.dropEndWhile fun _ word => isBlank_of_isWordChar word

theorem trim (related : Renamed ρ false s t) : Renamed ρ false s.trim t.trim :=
  related.trimStart.trimEnd

theorem isEmpty_eq (related : Renamed ρ afterDot s t) : t.isEmpty = s.isEmpty := by
  rw [Bool.eq_iff_iff, List.isEmpty_iff, List.isEmpty_iff]
  exact related.eq_nil_iff

/-- The pieces at the first separator. -/
theorem cutAt_some {separator : Char} (related : Renamed ρ afterDot s t)
    (between : isWordChar separator = false) {l r : Text}
    (found : s.cutAt separator = some (l, r)) :
    ∃ l' r', t.cutAt separator = some (l', r') ∧ Renamed ρ afterDot l l' ∧
      Renamed ρ (separator == '.') r r' := by
  obtain ⟨whole, absent⟩ := Text.cutAt_eq_some_iff.mp found
  obtain ⟨l', r', rfl, left, right⟩ := related.cut whole between
  refine ⟨l', r', Text.cutAt_eq_some_iff.mpr ⟨rfl, ?_⟩, left, right⟩
  intro member
  rcases left.mem member with word | member
  · rw [show inWord separator = false from between] at word
    cases word
  · exact absent member

theorem cutAt_none {separator : Char} (related : Renamed ρ afterDot s t)
    (between : isWordChar separator = false) (absent : s.cutAt separator = none) :
    t.cutAt separator = none := by
  rw [Text.cutAt_eq_none_iff] at absent ⊢
  intro member
  rcases related.mem member with word | member
  · rw [show inWord separator = false from between] at word
    cases word
  · exact absent member

/-- A single word. -/
theorem eq_word (related : Renamed ρ afterDot s t) (filled : s ≠ [])
    (letters : ∀ c ∈ s, isWordChar c) : t = ρ.word afterDot s := by
  cases related with
  | nil => exact absurd rfl filled
  | mark between =>
      rw [show inWord _ = true from letters _ (List.mem_cons_self ..)] at between
      cases between
  | word a nonempty run maximal rest =>
      rename_i s t word
      cases s with
      | nil => simp [rest.eq_nil_iff.mpr rfl]
      | cons c s =>
          rw [startsWord_cons, show inWord c = true from letters c (by simp)] at maximal
          cases maximal

theorem eq_word_of_isIdentifier (related : Renamed ρ afterDot s t) (identifier : s.isIdentifier) :
    t = ρ.word afterDot s :=
  have ⟨filled, letters⟩ := isWordChar_of_isIdentifier identifier
  related.eq_word filled letters

/-- In a dotted name only what stands before the first dot can be renamed. -/
theorem eq_of_dotted (related : Renamed ρ afterDot s t) (dotted : ∀ c ∈ s, isWordChar c ∨ c = '.')
    (start : startsWord s → afterDot = true) : t = s := by
  induction related with
  | nil => rfl
  | mark between rest ih =>
      rename_i c s t
      have dot : c = '.' := (dotted c (List.mem_cons_self ..)).resolve_left (by
        rw [show isWordChar c = false from between]
        exact Bool.false_ne_true)
      rw [ih (fun d member => dotted d (List.mem_cons_of_mem _ member)) fun _ => by rw [dot]; rfl]
  | word a filled letters maximal rest ih =>
      rw [start (startsWord_writeWord filled letters), Renaming.word_after_dot]
      rw [ih (fun c member => dotted c (List.mem_append_right _ member)) fun word => by
        rw [maximal] at word; cases word]

end Renamed

theorem Renaming.isIdentifier_word {ρ : Renaming} {afterDot : Bool} {name : Text}
    (identifier : name.isIdentifier) : (ρ.word afterDot name).isIdentifier := by
  unfold Renaming.word
  split
  · exact ρ.new_isIdentifier
  · exact identifier

namespace Text

variable {old new : Text} {before : Option Char} {rest : Text}

theorem replaceWordAfter_mark {c : Char} (identifier : old.isIdentifier)
    (between : isWordChar c = false) :
    replaceWordAfter before old new (c :: rest) = c :: replaceWordAfter (some c) old new rest := by
  have ⟨filled, letters⟩ := isWordChar_of_isIdentifier identifier
  obtain ⟨d, old, rfl⟩ := List.exists_cons_of_ne_nil filled
  rw [replaceWordAfter, if_neg]
  intro leads
  obtain ⟨tail, same⟩ := List.isPrefixOf_iff_prefix.mp leads
  rw [List.cons_append, List.cons.injEq] at same
  have word := letters d (List.mem_cons_self ..)
  rw [same.1, between] at word
  cases word

theorem replaceWordAfter_append (filled : old ≠ []) (rest : Text) :
    replaceWordAfter before old new (old ++ rest) =
      (if standsAlone before rest.head? then new else old) ++
        replaceWordAfter old.getLast? old new rest := by
  obtain ⟨c, old, rfl⟩ := List.exists_cons_of_ne_nil filled
  have leads : (c :: old).isPrefixOf (c :: (old ++ rest)) :=
    List.isPrefixOf_iff_prefix.mpr ⟨rest, rfl⟩
  have following : (old ++ rest).drop ((c :: old).length - 1) = rest := by simp
  rw [List.cons_append, replaceWordAfter, if_pos leads, following]
  rfl

theorem replaceWordAfter_old (identifier : old.isIdentifier) (free : before.any isNameChar = false)
    (ends : startsWord rest = false) :
    replaceWordAfter before old new (old ++ rest) =
      new ++ replaceWordAfter old.getLast? old new rest := by
  have alone : standsAlone before rest.head? = true := by
    rw [standsAlone, Bool.and_eq_true, Bool.not_eq_true', Bool.not_eq_true']
    exact ⟨free, ends⟩
  rw [replaceWordAfter_append (isWordChar_of_isIdentifier identifier).1, if_pos alone]

theorem standsAlone_of_name {after : Option Char} (named : before.any isNameChar = true) :
    standsAlone before after = false := by
  unfold standsAlone
  rw [show (before.any fun c => isWordChar c || c == '.') = true from named]
  rfl

/-- The old name is a part of every run that it starts. -/
theorem exists_of_prefix_run {run : Text} (letters : ∀ c ∈ old, isWordChar c)
    (ends : startsWord rest = false) (leads : old.isPrefixOf (run ++ rest)) :
    ∃ more, run = old ++ more := by
  obtain ⟨tail, same⟩ := List.isPrefixOf_iff_prefix.mp leads
  rcases List.append_eq_append_iff.mp same with ⟨more, split, -⟩ | ⟨beyond, split, behind⟩
  · exact ⟨more, split⟩
  · cases beyond with
    | nil => exact ⟨[], by simpa using split.symm⟩
    | cons c beyond =>
        rw [behind, List.cons_append, startsWord_cons] at ends
        have word := letters c (by simp [split])
        rw [show isWordChar c = false from ends] at word
        cases word

/-- A run of word characters that is not the old name stays, and so does every run after a dot. -/
theorem replaceWordAfter_run {run : Text} (identifier : old.isIdentifier) (filled : run ≠ [])
    (letters : ∀ c ∈ run, isWordChar c) (ends : startsWord rest = false)
    (kept : before.any isNameChar = true ∨ run ≠ old) :
    replaceWordAfter before old new (run ++ rest) =
      run ++ replaceWordAfter run.getLast? old new rest := by
  have ⟨oldFilled, oldLetters⟩ := isWordChar_of_isIdentifier identifier
  induction length : run.length using Nat.strongRecOn generalizing run before with
  | ind n ih =>
      subst length
      by_cases leads : old.isPrefixOf (run ++ rest)
      · obtain ⟨more, rfl⟩ := exists_of_prefix_run oldLetters ends leads
        rw [List.append_assoc, replaceWordAfter_append oldFilled]
        cases more with
        | nil =>
            have named := kept.resolve_right (by simp)
            simp [standsAlone_of_name named]
        | cons c more =>
            have word := letters c (by simp)
            have crowded : standsAlone before (c :: more ++ rest).head? = false := by
              simp [standsAlone, word]
            have last : old.getLast?.any isNameChar = true := by
              simp [List.getLast?_eq_some_getLast oldFilled, isNameChar, oldLetters _ (List.getLast_mem _)]
            have shorter : (c :: more).length < (old ++ c :: more).length := by
              simp [List.length_pos_iff.mpr oldFilled]
            rw [crowded, if_neg Bool.false_ne_true, ih _ shorter (by simp)
              (fun d member => letters d (List.mem_append_right _ member)) (.inl last) rfl,
              List.getLast?_append, List.append_assoc, List.getLast?_cons, Option.some_or]
      · obtain ⟨c, run, rfl⟩ := List.exists_cons_of_ne_nil filled
        rw [List.cons_append] at leads ⊢
        rw [replaceWordAfter, if_neg leads]
        cases run with
        | nil => rfl
        | cons d run =>
            have word := letters c (List.mem_cons_self ..)
            rw [ih (d :: run).length (by simp) (by simp)
              (fun e member => letters e (List.mem_cons_of_mem _ member))
              (.inl (by simp [isNameChar, word])) rfl]
            simp

end Text

namespace Renamed

variable {ρ : Renaming} {afterDot : Bool} {s t : Text}

/-- Only the renamed text is related to a text. -/
theorem eq_replaceWordAfter (related : Renamed ρ afterDot s t) {before : Option Char}
    (start : startsWord s → before.any isNameChar = afterDot) :
    Text.replaceWordAfter before ρ.old ρ.new s = t := by
  induction related generalizing before with
  | nil => rw [Text.replaceWordAfter]
  | mark between rest ih =>
      rename_i c s t
      have outside : isWordChar c = false := between
      rw [Text.replaceWordAfter_mark ρ.old_isIdentifier outside, ih fun _ => ?_]
      simp [isNameChar, outside, Lettered.letter]
  | word a filled letters maximal rest ih =>
      rename_i afterDot s t word
      have begun := start (startsWord_writeWord filled letters)
      have following {before : Option Char} : startsWord s → before.any isNameChar = false := by
        intro word
        rw [maximal] at word
        cases word
      rw [writeWord_char, writeWord_char]
      by_cases renamed : afterDot = false ∧ word = ρ.old
      · obtain ⟨rfl, rfl⟩ := renamed
        rw [Text.replaceWordAfter_old ρ.old_isIdentifier begun maximal, ih following,
          Renaming.word_old]
      · rw [Text.replaceWordAfter_run ρ.old_isIdentifier filled letters maximal, ih following,
          Renaming.word, if_neg renamed]
        cases afterDot with
        | true => exact .inl begun
        | false => exact .inr fun same => renamed ⟨rfl, same⟩

theorem eq_text (related : Renamed ρ false s t) : t = ρ.text s := by
  have ⟨filled, _⟩ := isWordChar_of_isIdentifier ρ.old_isIdentifier
  rw [Renaming.text, Text.replaceWord, if_neg (by simpa using filled)]
  exact (related.eq_replaceWordAfter fun _ => rfl).symm

/-- Every text has a renamed one. -/
theorem exists_renamed (ρ : Renaming) (afterDot : Bool) (s : Text) : ∃ t, Renamed ρ afterDot s t := by
  induction length : s.length using Nat.strongRecOn generalizing s afterDot with
  | ind n ih =>
      subst length
      cases s with
      | nil => exact ⟨[], .nil⟩
      | cons c s =>
          by_cases between : isWordChar c = true
          · have split := List.takeWhile_append_dropWhile (p := isWordChar) (l := c :: s)
            have filled : (c :: s).takeWhile isWordChar ≠ [] := by
              simp [between]
            have maximal : startsWord ((c :: s).dropWhile isWordChar) = false := by
              have := List.head?_dropWhile_not isWordChar (c :: s)
              cases rest : (c :: s).dropWhile isWordChar with
              | nil => rfl
              | cons d rest =>
                  rw [rest] at this
                  simpa [inWord, Lettered.letter] using this
            have shorter : ((c :: s).dropWhile isWordChar).length < (c :: s).length := by
              rw [List.dropWhile_cons_of_pos between, List.length_cons]
              exact Nat.lt_succ_of_le (List.dropWhile_sublist _).length_le
            obtain ⟨t, rest⟩ := ih _ shorter false _ rfl
            have related : Renamed ρ afterDot (writeWord c ((c :: s).takeWhile isWordChar) ++ _) _ :=
              .word c filled (List.all_eq_true.mp List.all_takeWhile) maximal rest
            rw [writeWord_char, split] at related
            exact ⟨_, related⟩
          · obtain ⟨t, rest⟩ := ih s.length (by simp) (c == '.') s rfl
            exact ⟨c :: t, .mark (Bool.not_eq_true _ ▸ between) rest⟩

theorem renamed_text (ρ : Renaming) (s : Text) : Renamed ρ false s (ρ.text s) := by
  obtain ⟨t, related⟩ := exists_renamed ρ false s
  rw [← related.eq_text]
  exact related

end Renamed

end MissionScript
