import MissionScript.Proofs.Renaming.Results
import MissionScript.Script.Statement

/-!
# Renaming and statements

A renamed instruction keeps its shape and comes apart at the same places, unless the word at its front
becomes a keyword or stops being one.
-/

namespace MissionScript

open Lettered

/-- A `=` behind one of these characters is part of a relation. -/
def relationMarks : Text := "=<>~!".toList

theorem splitAssignmentFrom_cons (previous : Option Char) (g : Glyph) (rest : List Glyph) :
    splitAssignmentFrom previous (g :: rest) =
      if g.isTop && g.char == '=' && !previous.any relationMarks.contains && !followed rest then
        some ([], rest)
      else (splitAssignmentFrom (if g.isFree then some g.char else previous) rest).map
        fun x => (g :: x.1, x.2) := by
  have next : ((rest.find? Glyph.isFree).map (·.char) != some '=') = !followed rest := by
    rw [followed]
    cases rest.find? Glyph.isFree with
    | none => rfl
    | some h => rfl
  rw [splitAssignmentFrom]
  dsimp only
  rw [next]
  rfl

namespace Renamed

variable {ρ : Renaming} {afterDot : Bool} {s t : Text} {gs gt : List Glyph}

theorem splitAssignmentFrom_run {g : Glyph} {word : Text} (filled : word ≠ [])
    (letters : ∀ c ∈ word, isWordChar c) (previous : Option Char) (gs : List Glyph) :
    ∃ before, before.any relationMarks.contains =
        (!g.isFree && previous.any relationMarks.contains) ∧
      MissionScript.splitAssignmentFrom previous (writeWord g word ++ gs) =
        (MissionScript.splitAssignmentFrom before gs).map fun x => (writeWord g word ++ x.1, x.2) := by
  induction word generalizing previous with
  | nil => exact absurd rfl filled
  | cons c word ih =>
      have letter := letters c (List.mem_cons_self ..)
      have plain : relationMarks.contains c = false := betweenWords_contains (by decide) c letter
      have other : (c == '=') = false := by
        rw [beq_eq_false_iff_ne]
        rintro rfl
        cases letter
      let before := if g.isFree then some c else previous
      have marks : before.any relationMarks.contains =
          (!g.isFree && previous.any relationMarks.contains) := by
        cases free : g.isFree with
        | true => simpa [before, free] using plain
        | false => simp [before, free]
      have passed : MissionScript.splitAssignmentFrom previous (writeWord g (c :: word) ++ gs) =
          (MissionScript.splitAssignmentFrom before (writeWord g word ++ gs)).map
            fun x => (write g c :: x.1, x.2) := by
        change MissionScript.splitAssignmentFrom previous (write g c :: _) = _
        rw [splitAssignmentFrom_cons, show (write g c).char = c from rfl, other, Bool.and_false,
          Bool.false_and, Bool.false_and, if_neg Bool.false_ne_true]
        rfl
      cases word with
      | nil => exact ⟨before, marks, passed⟩
      | cons d word =>
          obtain ⟨last, kept, rest⟩ := ih (List.cons_ne_nil d word)
            (fun e member => letters e (List.mem_cons_of_mem _ member)) before
          refine ⟨last, ?_, ?_⟩
          · rw [kept, marks]
            cases g.isFree with
            | true => rfl
            | false => rfl
          · rw [passed, rest, Option.map_map]
            rfl

theorem startsWord_of_splitAssignmentFrom {previous : Option Char} {x : List Glyph × List Glyph}
    (cut : MissionScript.splitAssignmentFrom previous gs = some x) (maximal : startsWord gs = false) :
    startsWord x.1 = false := by
  cases gs with
  | nil => cases cut
  | cons g gs =>
      rw [splitAssignmentFrom_cons] at cut
      split at cut
      · cases cut
        rfl
      · obtain ⟨y, -, rfl⟩ := Option.map_eq_some_iff.mp cut
        exact maximal

theorem splitAssignmentFrom (related : Renamed ρ afterDot gs gt) {previous previous' : Option Char}
    (same : previous'.any relationMarks.contains = previous.any relationMarks.contains) :
    Option.Rel (RenamedPair ρ afterDot) (MissionScript.splitAssignmentFrom previous gs)
      (MissionScript.splitAssignmentFrom previous' gt) := by
  induction related generalizing previous previous' with
  | nil => exact .none
  | mark between rest ih =>
      rename_i afterDot g gs gt
      have next : followed gt = followed gs := rest.followed_eq rfl
      rw [splitAssignmentFrom_cons, splitAssignmentFrom_cons, same, next]
      split
      · rename_i assigns
        have plain : (letter g == '.') = false := by
          simp only [Bool.and_eq_true, beq_iff_eq] at assigns
          rw [show letter g = '=' from assigns.1.1.2]
          rfl
        exact .some ⟨.nil, plain ▸ rest⟩
      · refine rel_map (ih ?_) fun x y _ both => ⟨.mark between both.1, both.2⟩
        split
        · rfl
        · exact same
  | word g filled letters maximal rest ih =>
      rename_i afterDot gs gt word
      obtain ⟨before, marks, cut⟩ := splitAssignmentFrom_run (g := g) filled letters previous gs
      have filled' : ρ.word afterDot word ≠ [] := Renaming.word_ne_nil filled
      obtain ⟨before', marks', cut'⟩ := splitAssignmentFrom_run (g := g) filled'
        (Renaming.letters_word letters) previous' gt
      rw [cut, cut']
      refine rel_map (ih (by rw [marks', marks, same])) fun x y found both => ⟨?_, both.2⟩
      exact .word g filled letters (startsWord_of_splitAssignmentFrom found maximal) both.1

/-- The two sides of a renamed assignment. -/
theorem splitAssignment (related : Renamed ρ false s t) :
    Option.Rel (fun x y => Renamed ρ false x.1 y.1 ∧ Renamed ρ false x.2 y.2)
      (MissionScript.splitAssignment s) (MissionScript.splitAssignment t) :=
  rel_map (related.glyphs.splitAssignmentFrom rfl) fun _ _ _ both =>
    ⟨both.1.ofGlyphs, both.2.ofGlyphs⟩

theorem hasFreeSquare_eq (related : Renamed ρ afterDot gs gt) (depth : Nat) :
    hasFreeSquare depth gt = hasFreeSquare depth gs := by
  have passed {run : List Glyph} (letters : ∀ g ∈ run, inWord g) (depth : Nat) (gs : List Glyph) :
      hasFreeSquare depth (run ++ gs) = hasFreeSquare depth gs := by
    induction run with
    | nil => rfl
    | cons g run ih =>
        have word := letters g (List.mem_cons_self ..)
        have opens (b : Bracket) : g.opens b = false := betweenWords_opens b g word
        have closes : g.closes .paren = false := betweenWords_closes .paren g word
        rw [List.cons_append, hasFreeSquare, opens, closes, opens,
          ih fun h member => letters h (List.mem_cons_of_mem _ member)]
        rfl
  induction related generalizing depth with
  | nil => rfl
  | mark between rest ih => simp only [hasFreeSquare, ih]
  | word g filled letters maximal rest ih =>
      rw [passed fun h => inWord_of_mem_writeWord letters,
        passed fun h => inWord_of_mem_writeWord (Renaming.letters_word letters), ih]

theorem hasTopOperator_eq (related : Renamed ρ false s t) : hasTopOperator t = hasTopOperator s := by
  apply related.glyphs.any_eq
  intro g word
  have other : "+-*/^<>=~&|'".toList.contains g.char = false :=
    betweenWords_contains (by decide) g.char word
  change (g.isTop && _) = false
  rw [other, Bool.and_false]

end Renamed

/-! ### Shapes -/

/-- The word cannot stand in front of an assignment or a call. -/
def Keywords.reserves (keywords : Keywords) (word : Text) : Bool :=
  word == functionKeyword || word == createKeyword || word == remoteKeyword ||
    keywords.contains word

/-- The shape of an instruction without a keyword. -/
def bareShape (instruction : Text) : Shape :=
  match splitAssignment instruction with
  | some (left, _) => if hasFreeSquare 0 left.glyphs then .call else .assignment
  | none => if hasTopOperator instruction then .assignment else .call

/-- The shape of an instruction with a word at its front and a character behind it. -/
def shapeBehind (keywords : Keywords) (word : Text) (next : Option Char) (bare : Shape) : Shape :=
  let blankNext := next.all isBlank
  let ends := blankNext || next == some '('
  if word == functionKeyword && (ends || next == some '[') then .function
  else if word == createKeyword && blankNext then .definition
  else if ends && keywords.contains word then .command
  else bare

section Shapes

variable {keywords : Keywords} {ρ : Renaming} {s t : Text}

theorem shapeOf_eq (keywords : Keywords) (instruction : Text) :
    shapeOf keywords instruction =
      shapeBehind keywords (instruction.takeWhile isWordChar)
        (instruction.dropWhile isWordChar).head? (bareShape instruction) := by
  rw [← Text.drop_takeWhile, List.head?_drop]
  rfl

theorem shapeBehind_of_not_reserved {word : Text} {next : Option Char} {bare : Shape}
    (free : keywords.reserves word = false) : shapeBehind keywords word next bare = bare := by
  simp only [Keywords.reserves, Bool.or_eq_false_iff] at free
  obtain ⟨⟨⟨function, create⟩, -⟩, keyword⟩ := free
  rw [shapeBehind, function, create, keyword, Bool.and_false]
  rfl

theorem shapeBehind_bare {word : Text} {next : Option Char} {bare : Shape}
    (without : shapeBehind keywords word next bare = .assignment ∨
      shapeBehind keywords word next bare = .call) :
    shapeBehind keywords word next bare = bare := by
  unfold shapeBehind at without ⊢
  dsimp only at without ⊢
  split at without
  · rcases without with other | other
    · cases other
    · cases other
  split at without
  · rcases without with other | other
    · cases other
    · cases other
  split at without
  · rcases without with other | other
    · cases other
    · cases other
  rename_i function create keyword
  rw [if_neg function, if_neg create, if_neg keyword]

namespace Renamed

theorem bareShape_eq (related : Renamed ρ false s t) : bareShape t = bareShape s := by
  have cut := related.splitAssignment
  unfold bareShape
  cases found : MissionScript.splitAssignment s with
  | none =>
      rw [none_of_rel cut found, related.hasTopOperator_eq]
  | some x =>
      obtain ⟨y, found', left, -⟩ := exists_of_rel cut found
      simp only [found', left.glyphs.hasFreeSquare_eq 0]

/-- The word at the front and the character behind it. -/
theorem front (related : Renamed ρ false s t) :
    t.takeWhile isWordChar = ρ.word false (s.takeWhile isWordChar) ∧
      (t.dropWhile isWordChar).head? = (s.dropWhile isWordChar).head? := by
  have ⟨first, behind⟩ := related.span (p := isWordChar) fun _ letter => letter
  constructor
  · by_cases empty : s.takeWhile isWordChar = []
    · rw [first.eq_nil_iff.mpr empty, empty, Renaming.word_of_ne]
      exact (isWordChar_of_isIdentifier ρ.old_isIdentifier).1.symm
    · exact first.eq_word empty (List.all_eq_true.mp List.all_takeWhile)
  · cases next : (s.dropWhile isWordChar).head? with
    | none => rw [behind.eq_nil_iff.mpr (List.head?_eq_none_iff.mp next), List.head?_nil]
    | some c =>
        rcases behind.head?_eq next with same | ⟨letter, -⟩
        · exact same
        · rw [Text.head?_dropWhile c next] at letter
          cases letter

/-- The instruction keeps its shape if the word at its front is not renamed, or if it is no keyword
and does not become one. -/
theorem shapeOf_eq (related : Renamed ρ false s t)
    (front : s.takeWhile isWordChar = ρ.old →
      (shapeOf keywords s = .assignment ∨ shapeOf keywords s = .call) ∧
        keywords.reserves ρ.new = false) :
    shapeOf keywords t = shapeOf keywords s := by
  have ⟨first, next⟩ := related.front
  rw [MissionScript.shapeOf_eq, MissionScript.shapeOf_eq, first, next, related.bareShape_eq]
  by_cases renamed : s.takeWhile isWordChar = ρ.old
  · have ⟨without, free⟩ := front renamed
    rw [MissionScript.shapeOf_eq] at without
    rw [shapeBehind_bare without, renamed, Renaming.word_old, shapeBehind_of_not_reserved free]
  · rw [Renaming.word_of_ne renamed]

end Renamed

end Shapes

end MissionScript
