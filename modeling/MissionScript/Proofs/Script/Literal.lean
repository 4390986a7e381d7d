import Mathlib.Data.List.Chain
import Mathlib.Data.List.TakeWhile
import MissionScript.Text.Glyph

/-!
# Literals and comments

What a pass over a text knows at a place depends on the text in front of it, so cutting off the end of
a text changes nothing, and neither does cutting off the blanks at its start.
-/

namespace MissionScript

namespace Literal

/-- Both positions read on in the same way. -/
def Alike (p q : Literal) : Prop :=
  p.inside = q.inside ∧ opensAfter p.previous = opensAfter q.previous

variable {p q : Literal} {c : Char}

theorem Alike.covers (alike : Alike p q) (c : Char) : p.covers c = q.covers c := by
  rw [Literal.covers, Literal.covers, alike.1, alike.2]

theorem Alike.step (alike : Alike p q) (c : Char) : Alike (p.step c) (q.step c) := by
  refine ⟨?_, rfl⟩
  change (p.covers c && _) = (q.covers c && _)
  rw [alike.covers, alike.1]

end Literal

theorem glyphsFrom_alike {p q : Literal} (alike : p.Alike q) (depth : Nat) (text : Text) :
    glyphsFrom p depth text = glyphsFrom q depth text := by
  cases text with
  | nil => rfl
  | cons c text =>
      have same : p.step c = q.step c := by
        rw [Literal.step, Literal.step, alike.covers, alike.1]
      simp only [glyphsFrom, alike.covers, same]

theorem Text.ofGlyphs_append (left right : List Glyph) :
    Text.ofGlyphs (left ++ right) = Text.ofGlyphs left ++ Text.ofGlyphs right :=
  List.map_append

/-- A literal starts with a quote: the first quoted glyph after a free one is one. -/
def LiteralsOpen (gs : List Glyph) : Prop :=
  gs.IsChain fun g h => g.isFree → h.quoted → h.char = '\''

theorem literalsOpen_glyphsFrom (p : Literal) (depth : Nat) (text : Text) :
    LiteralsOpen (glyphsFrom p depth text) := by
  induction text generalizing p depth with
  | nil => exact .nil
  | cons c text ih =>
      have rest := ih (p.step c) (if p.covers c then depth else depthAfter depth c)
      cases text with
      | nil => exact .singleton _
      | cons d text =>
          refine .cons_cons (fun free quoted => ?_) rest
          have outside : p.covers c = false := Bool.not_eq_true' _ ▸ free
          have closed : (p.step c).inside = false := by
            rw [Literal.step, outside, Bool.false_and]
          have covered : (p.step c).covers d := quoted
          rw [Literal.covers, closed, Bool.false_or, Bool.and_eq_true, beq_iff_eq] at covered
          exact covered.1

theorem glyphsFrom_append (p : Literal) (depth : Nat) (left : Text) :
    ∃ inner, ∀ right, glyphsFrom p depth (left ++ right) =
      glyphsFrom p depth left ++ glyphsFrom (left.foldl Literal.step p) inner right := by
  induction left generalizing p depth with
  | nil => exact ⟨depth, fun _ => rfl⟩
  | cons c left ih =>
      obtain ⟨inner, split⟩ := ih (p.step c) (if p.covers c then depth else depthAfter depth c)
      refine ⟨inner, fun right => ?_⟩
      rw [List.cons_append, glyphsFrom, split]
      rfl

/-- A text is read on from where a text in front of it ends. -/
theorem glyphs_append (left : Text) : ∃ inner, ∀ right : Text,
    (left ++ right).glyphs = left.glyphs ++ glyphsFrom (Literal.ofText left) inner right :=
  glyphsFrom_append {} 0 left

/-- No comment starts in the text. -/
def Uncommented (text : Text) : Prop := ∀ g ∈ text.glyphs, (g.isFree && g.char == '%') = false

instance (text : Text) : Decidable (Uncommented text) :=
  inferInstanceAs (Decidable (∀ g ∈ text.glyphs, (g.isFree && g.char == '%') = false))

theorem Uncommented.of_prefix {short long : Text} (uncommented : Uncommented long)
    (leads : short <+: long) : Uncommented short := by
  obtain ⟨rest, rfl⟩ := leads
  obtain ⟨inner, split⟩ := glyphs_append short
  intro g member
  apply uncommented g
  rw [split]
  exact List.mem_append_left _ member

theorem isOpening_of_isBlank {c : Char} (blank : isBlank c) : isOpening c = false := by
  rw [Bool.eq_false_iff]
  intro opens
  obtain ⟨b, found⟩ := Option.isSome_iff_exists.mp opens
  have same : b.opening = c := by simpa using List.find?_some found
  rw [← same] at blank
  cases b <;> revert blank <;> decide

theorem isClosing_of_isBlank {c : Char} (blank : isBlank c) : isClosing c = false := by
  rw [Bool.eq_false_iff]
  intro closes
  obtain ⟨b, found⟩ := Option.isSome_iff_exists.mp closes
  have same : b.closing = c := by simpa using List.find?_some found
  rw [← same] at blank
  cases b <;> revert blank <;> decide

/-- A text behind a blank is read as one that stands alone. -/
theorem glyphs_of_isBlank {c : Char} (blank : isBlank c) (text : Text) :
    Text.glyphs (c :: text) = ⟨c, false, 0⟩ :: text.glyphs := by
  have other : (c == '\'') = false := by
    rw [beq_eq_false_iff_ne]
    rintro rfl
    revert blank
    decide
  have outside : Literal.covers {} c = false := by simp [Literal.covers, other]
  have alike : Literal.Alike (Literal.step {} c) {} := by
    refine ⟨by simp [Literal.step, outside], ?_⟩
    simp [Literal.step, Literal.opensAfter, blank]
  have level : depthAfter 0 c = 0 := by
    simp [depthAfter, isOpening_of_isBlank blank, isClosing_of_isBlank blank]
  rw [Text.glyphs, glyphsFrom, outside, if_neg Bool.false_ne_true, level,
    glyphsFrom_alike alike]
  rfl

theorem Uncommented.trimStart {text : Text} (uncommented : Uncommented text) :
    Uncommented text.trimStart := by
  induction text with
  | nil => exact uncommented
  | cons c text ih =>
      rw [Text.trimStart]
      by_cases blank : isBlank c
      · rw [List.dropWhile_cons_of_pos blank]
        apply ih
        intro g member
        apply uncommented g
        rw [glyphs_of_isBlank blank]
        exact List.mem_cons_of_mem _ member
      · rw [List.dropWhile_cons_of_neg blank]
        exact uncommented

theorem char_mem_of_mem_glyphsFrom {p : Literal} {depth : Nat} {text : Text} {g : Glyph}
    (member : g ∈ glyphsFrom p depth text) : g.char ∈ text := by
  have listed := List.mem_map_of_mem (f := Glyph.char) member
  rwa [show (glyphsFrom p depth text).map Glyph.char = text from Text.ofGlyphs_glyphsFrom ..] at listed

theorem Uncommented.append {left : Text} (uncommented : Uncommented left) (right : Text)
    (plain : '%' ∉ right) : Uncommented (left ++ right) := by
  obtain ⟨inner, split⟩ := glyphs_append left
  intro g member
  rw [split, List.mem_append] at member
  rcases member with member | member
  · exact uncommented g member
  · have inside := char_mem_of_mem_glyphsFrom member
    rw [Bool.and_eq_false_iff, beq_eq_false_iff_ne]
    refine .inr ?_
    rintro same
    exact plain (same ▸ inside)

theorem Uncommented.append_semicolon {text : Text} (uncommented : Uncommented text) :
    Uncommented (text ++ [';']) :=
  uncommented.append [';'] (by decide)

/-- The start of a text is read as it is within the text. -/
theorem glyphsFrom_takeWhile (q : Glyph → Bool) (p : Literal) (depth : Nat) (text : Text) :
    glyphsFrom p depth (Text.ofGlyphs ((glyphsFrom p depth text).takeWhile q)) =
      (glyphsFrom p depth text).takeWhile q := by
  induction text generalizing p depth with
  | nil => rfl
  | cons c text ih =>
      rw [glyphsFrom]
      by_cases taken : q ⟨c, p.covers c, depth⟩
      · rw [List.takeWhile_cons_of_pos taken]
        exact congrArg (_ :: ·) (ih _ _)
      · rw [List.takeWhile_cons_of_neg taken]
        rfl

theorem uncommented_splitComment (line : Text) : Uncommented (Text.splitComment line).1 := by
  intro g member
  rw [Text.splitComment, Text.glyphs, Text.glyphs, glyphsFrom_takeWhile] at member
  have kept := List.all_eq_true.mp (List.all_takeWhile) g member
  rwa [Bool.not_eq_true'] at kept

theorem splitComment_eq {line : Text} (uncommented : Uncommented line) :
    Text.splitComment line = (line, []) := by
  have all : ∀ g ∈ line.glyphs, (!(g.isFree && g.char == '%')) = true := by
    intro g member
    rw [uncommented g member]
    rfl
  have whole : line.glyphs.takeWhile (fun g => !(g.isFree && g.char == '%')) = line.glyphs := by
    exact List.takeWhile_eq_self_iff.mpr all
  rw [Text.splitComment, whole, Text.ofGlyphs_glyphs, Text.length_glyphs, List.drop_length]

end MissionScript
