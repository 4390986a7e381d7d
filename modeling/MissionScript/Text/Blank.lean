/-!
# Blank characters

The characters that separate words of a script and are trimmed from its pieces: exactly the code
points with the Unicode property `White_Space`.
-/

namespace MissionScript

/-- The code points with the Unicode property `White_Space`, as closed ranges in ascending order. -/
def blankRanges : List (Nat × Nat) :=
  [(0x0009, 0x000D), (0x0020, 0x0020), (0x0085, 0x0085), (0x00A0, 0x00A0), (0x1680, 0x1680),
   (0x2000, 0x200A), (0x2028, 0x2029), (0x202F, 0x202F), (0x205F, 0x205F), (0x3000, 0x3000)]

/-- A blank character has the Unicode property `White_Space`. -/
def isBlank (c : Char) : Bool :=
  blankRanges.any fun (first, last) => first ≤ c.toNat && c.toNat ≤ last

/-- There are twenty-five blank characters. -/
theorem blankRanges_size :
    blankRanges.foldl (fun size (first, last) => size + (last + 1 - first)) 0 = 25 := rfl

/-- A blank character is never one of the graphic ASCII characters that the grammar uses. -/
theorem isBlank_eq_false_of_graphic {c : Char} (low : 0x21 ≤ c.toNat) (high : c.toNat ≤ 0x7E) :
    isBlank c = false := by
  simp only [isBlank, blankRanges, List.any_cons, List.any_nil, Bool.or_false, Bool.or_eq_false_iff,
    Bool.and_eq_false_iff, decide_eq_false_iff_not]
  omega

end MissionScript
