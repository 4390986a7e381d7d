import MissionScript.Proofs.Bracket.Word
import MissionScript.Proofs.Script.Literal
import MissionScript.Proofs.Text

/-!
# Parts of a text that are read on their own

Whether a quote opens a literal depends on the character in front of it, so a part that is cut out of a text
need not have the literals it had there. It keeps them behind an opening bracket and behind a blank; blanks
at its ends may go.
-/

namespace MissionScript

/-! ### Reading on behind a glyph -/

theorem Text.ofGlyphs_cons (g : Glyph) (rest : List Glyph) :
    Text.ofGlyphs (g :: rest) = g.char :: Text.ofGlyphs rest := rfl

/-- Behind a glyph that stands outside literals, reading goes on outside literals. -/
theorem exists_reading_behind {p : Literal} {depth : Nat} {text : Text} {before rest : List Glyph}
    {g : Glyph} (split : glyphsFrom p depth text = before ++ g :: rest) (free : g.isFree) :
    ∃ depth', rest = glyphsFrom ⟨false, some g.char⟩ depth' (Text.ofGlyphs rest) := by
  induction before generalizing p depth text with
  | nil =>
      cases text with
      | nil => cases split
      | cons c text =>
          rw [glyphsFrom] at split
          cases split
          have outside : p.covers c = false := Bool.not_eq_true' _ ▸ free
          refine ⟨depthAfter depth c, ?_⟩
          rw [Text.ofGlyphs_glyphsFrom, Literal.step, outside, if_neg Bool.false_ne_true]
          rfl
  | cons h before ih =>
      cases text with
      | nil => cases split
      | cons c text =>
          rw [glyphsFrom, List.cons_append] at split
          exact ih (List.cons.inj split).2

/-- The start of a text is read as it is within the text. -/
theorem glyphsFrom_front {p : Literal} {depth : Nat} {text : Text} {left right : List Glyph}
    (split : glyphsFrom p depth text = left ++ right) :
    glyphsFrom p depth (Text.ofGlyphs left) = left := by
  have whole : text = Text.ofGlyphs left ++ Text.ofGlyphs right := by
    rw [← Text.ofGlyphs_append, ← split, Text.ofGlyphs_glyphsFrom]
  obtain ⟨inner, parts⟩ := glyphsFrom_append p depth (Text.ofGlyphs left)
  rw [whole, parts] at split
  exact List.append_inj_left split (by rw [Text.length_glyphsFrom, Text.length_ofGlyphs])

/-- The brackets do not depend on the count of open groups. -/
theorem marksOf_glyphsFrom (p : Literal) (depth depth' : Nat) (text : Text) :
    marksOf (glyphsFrom p depth text) = marksOf (glyphsFrom p depth' text) := by
  induction text generalizing p depth depth' with
  | nil => rfl
  | cons c text ih =>
      rw [glyphsFrom, glyphsFrom, marksOf_cons, marksOf_cons, ih]
      rfl

/-- Behind an opening bracket, a text has the brackets that it has on its own. -/
theorem marks_behind_opening {p : Literal} {depth : Nat} {text : Text} {before inside after : List Glyph}
    {g : Glyph} {b : Bracket} (split : glyphsFrom p depth text = before ++ g :: (inside ++ after))
    (opens : g.opens b) : (Text.ofGlyphs inside).marks = marksOf inside := by
  obtain ⟨free, opening⟩ := Bool.and_eq_true_iff.mp opens
  obtain ⟨level, reading⟩ := exists_reading_behind split free
  have alike : Literal.Alike ⟨false, some g.char⟩ {} := by
    refine ⟨rfl, ?_⟩
    rw [beq_iff_eq.mp opening]
    cases b <;> decide
  have front := glyphsFrom_front reading.symm
  rw [glyphsFrom_alike alike] at front
  rw [Text.marks, Text.glyphs, marksOf_glyphsFrom {} 0 level, front]

/-! ### Blanks at the ends -/

theorem mark?_of_isBlank {g : Glyph} (blank : isBlank g.char) : g.mark? = none := by
  rw [Option.eq_none_iff_forall_ne_some]
  intro m mark
  have same := (Glyph.mark?_eq_some_iff.mp mark).2
  rw [same] at blank
  rcases m with b | b
  all_goals
    cases b <;> revert blank <;> decide

theorem marksOf_of_isBlank {gs : List Glyph} (blank : ∀ g ∈ gs, isBlank g.char) : marksOf gs = [] :=
  List.filterMap_eq_nil_iff.mpr fun g member => mark?_of_isBlank (blank g member)

theorem exists_glyphs_trimStart (text : Text) : ∃ front : List Glyph,
    (∀ g ∈ front, isBlank g.char) ∧ text.glyphs = front ++ text.trimStart.glyphs := by
  induction text with
  | nil => exact ⟨[], nofun, rfl⟩
  | cons c text ih =>
      rw [Text.trimStart]
      by_cases blank : isBlank c
      · obtain ⟨front, blanks, split⟩ := ih
        refine ⟨⟨c, false, 0⟩ :: front, List.forall_mem_cons.mpr ⟨blank, blanks⟩, ?_⟩
        rw [List.dropWhile_cons_of_pos blank, glyphs_of_isBlank blank, split]
        rfl
      · exact ⟨[], nofun, by rw [List.dropWhile_cons_of_neg blank]; rfl⟩

theorem exists_glyphs_trimEnd (text : Text) : ∃ back : List Glyph,
    (∀ g ∈ back, isBlank g.char) ∧ text.glyphs = text.trimEnd.glyphs ++ back := by
  obtain ⟨blanks, blank, whole⟩ := text.exists_trimEnd
  obtain ⟨inner, split⟩ := glyphs_append text.trimEnd
  refine ⟨glyphsFrom (Literal.ofText text.trimEnd) inner blanks, ?_, ?_⟩
  · intro g member
    exact List.all_eq_true.mp blank g.char (char_mem_of_mem_glyphsFrom member)
  · rw [← split blanks, ← whole]

/-- A trimmed text is read as it is between the blanks around it. -/
theorem exists_glyphs_trim (text : Text) : ∃ front back : List Glyph,
    (∀ g ∈ front, isBlank g.char) ∧ (∀ g ∈ back, isBlank g.char) ∧
      text.glyphs = front ++ text.trim.glyphs ++ back := by
  obtain ⟨front, blankFront, first⟩ := exists_glyphs_trimStart text
  obtain ⟨back, blankBack, last⟩ := exists_glyphs_trimEnd text.trimStart
  exact ⟨front, back, blankFront, blankBack, by rw [first, last, List.append_assoc]; rfl⟩

theorem Text.marks_trim (text : Text) : text.trim.marks = text.marks := by
  obtain ⟨front, back, blankFront, blankBack, split⟩ := exists_glyphs_trim text
  rw [marks, marks, split, marksOf_append, marksOf_append, marksOf_of_isBlank blankFront,
    marksOf_of_isBlank blankBack, List.append_nil, List.nil_append]

end MissionScript
