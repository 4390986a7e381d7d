import Mathlib.Data.List.Basic
import MissionScript.Bracket.Group

/-!
# One step of a scan

What the search for a closing bracket does with the next glyph, and what a scan for a group can answer.
-/

namespace MissionScript

namespace Glyph

variable {g : Glyph} {b : Bracket}

theorem char_of_opens (opens : g.opens b) : g.char = b.opening :=
  beq_iff_eq.mp (Bool.and_eq_true_iff.mp opens).2

theorem char_of_closes (closes : g.closes b) : g.char = b.closing :=
  beq_iff_eq.mp (Bool.and_eq_true_iff.mp closes).2

theorem opens_eq_false_of_closes (closes : g.closes b) (c : Bracket) : g.opens c = false := by
  rw [opens, Bool.and_eq_false_iff, char_of_closes closes]
  refine .inr ?_
  cases b <;> cases c <;> rfl

end Glyph

theorem opens_opening (b : Bracket) (depth : Nat) : Glyph.opens ⟨b.opening, false, depth⟩ b := by
  simp [Glyph.opens, Glyph.isFree]

theorem closes_closing (b : Bracket) (depth : Nat) : Glyph.closes ⟨b.closing, false, depth⟩ b := by
  simp [Glyph.closes, Glyph.isFree]

namespace Bracket

variable {b : Bracket} {g : Glyph} (depth : Nat) (rest : List Glyph)

theorem splitClosing_other (opens : g.opens b = false) (closes : g.closes b = false) :
    b.splitClosing depth (g :: rest) =
      (b.splitClosing depth rest).map fun (inside, after) => (g :: inside, after) := by
  rw [splitClosing.eq_def]
  simp only [opens, closes, Bool.false_eq_true, if_false]

theorem splitClosing_opening (opens : g.opens b) :
    b.splitClosing depth (g :: rest) =
      (b.splitClosing (depth + 1) rest).map fun (inside, after) => (g :: inside, after) := by
  rw [splitClosing.eq_def]
  simp only [opens, if_true]

theorem splitClosing_closing (closes : g.closes b) :
    b.splitClosing 0 (g :: rest) = some ([], rest) := by
  rw [splitClosing, Glyph.opens_eq_false_of_closes closes, if_neg Bool.false_ne_true, if_pos closes]

theorem splitClosing_inner (closes : g.closes b) :
    b.splitClosing (depth + 1) (g :: rest) =
      (b.splitClosing depth rest).map fun (inside, after) => (g :: inside, after) := by
  rw [splitClosing, Glyph.opens_eq_false_of_closes closes, if_neg Bool.false_ne_true, if_pos closes]

theorem splitOpening_zero_eq_none_iff {glyphs : List Glyph} :
    b.splitOpening 0 glyphs = none ↔ ∀ g ∈ glyphs, g.opens b = false := by
  induction glyphs with
  | nil => exact iff_of_true rfl nofun
  | cons g rest ih =>
      rw [splitOpening, beq_self_eq_true, Bool.true_and, List.forall_mem_cons]
      cases opens : g.opens b with
      | true => simp
      | false => simp [ih]

end Bracket

/-- What a scan for a group of the family answers, and why. -/
inductive Bracket.Scans (b : Bracket) (start : Nat) (glyphs : List Glyph) : Scan → Prop where
  | notFound : b.splitOpening start glyphs = none → Scans b start glyphs .notFound
  | unmatched {before rest : List Glyph} {g : Glyph} :
      b.splitOpening start glyphs = some (before, rest) → glyphs = before ++ g :: rest → g.opens b →
        b.splitClosing 0 rest = none → Scans b start glyphs (.unmatched before)
  | matched {before inside after : List Glyph} {g h : Glyph} :
      b.splitOpening start glyphs = some (before, inside ++ h :: after) →
        glyphs = before ++ g :: (inside ++ h :: after) → g.opens b → h.closes b →
          b.splitClosing 0 (inside ++ h :: after) = some (inside, after) →
            Scans b start glyphs (.matched ⟨before, inside, after⟩)

theorem Bracket.scans_scanGlyphs (b : Bracket) (start : Nat) (glyphs : List Glyph) :
    b.Scans start glyphs (b.scanGlyphs start glyphs) := by
  rw [scanGlyphs]
  cases opening : b.splitOpening start glyphs with
  | none => exact .notFound opening
  | some cut =>
      obtain ⟨before, rest⟩ := cut
      obtain ⟨g, opens, whole⟩ := append_of_splitOpening opening
      dsimp only
      cases closing : b.splitClosing 0 rest with
      | none => exact .unmatched opening whole opens closing
      | some cut =>
          obtain ⟨inside, after⟩ := cut
          obtain ⟨h, closes, rfl⟩ := append_of_splitClosing closing
          exact .matched opening whole opens closes closing

end MissionScript
