import Mathlib.Algebra.Group.Nat.Defs
import Mathlib.Logic.Basic
import MissionScript.Operand.Value

/-!
# Array indices

A number that stands for an array index is at least one, and so is the whole number that it is converted to: what
a double of at least one has in front of its point is no less than one, since its leading bit stands there.
-/

namespace MissionScript

open Float.Model Float.Model.UnpackedFloat

theorem unpack_one : (1 : Float).toModel.unpack = .finite .positive (2 ^ 52) (-52) (by decide) := rfl

/-- Above the smallest exponent a mantissa has its leading bit. -/
theorem leading_of_unpack {bits : BitVec 64} {sign : Sign} {mantissa : Nat} {exponent : Int}
    {positive : 0 < mantissa}
    (unpacked : UnpackedFloat.unpack Format.binary64 bits = .finite sign mantissa exponent positive) :
    exponent = -1074 ∨ 2 ^ 52 ≤ mantissa := by
  delta UnpackedFloat.unpack at unpacked
  rcases ite_eq_iff.mp unpacked with ⟨-, special⟩ | ⟨-, unpacked⟩
  · rcases ite_eq_iff.mp special with ⟨-, other⟩ | ⟨-, other⟩ <;> cases other
  rcases ite_eq_iff.mp unpacked with ⟨least, unpacked⟩ | ⟨-, unpacked⟩
  · rcases dite_eq_iff.mp unpacked with ⟨_, other⟩ | ⟨_, same⟩
    · cases other
    · cases same
      rw [least]
      exact .inl rfl
  · cases unpacked
    rw [BitVec.toNat_append]
    exact .inr Nat.left_le_or

theorem mantissa_repeat (count : Nat) (extended : ExtendedMantissa) :
    (count.repeat ExtendedMantissa.shiftRightOne extended).mantissa = extended.mantissa / 2 ^ count := by
  induction count with
  | zero => simp [Nat.repeat]
  | succ count ih =>
      rw [Nat.repeat, ExtendedMantissa.shiftRightOne, ih, Nat.div_div_eq_div_mul, Nat.pow_succ]

/-- The leading bit is not shifted out. -/
theorem one_le_roundToInt {mantissa : Nat} {exponent : Int} (leading : 2 ^ 52 ≤ mantissa)
    (low : -52 ≤ exponent) : 1 ≤ roundToInt .positive mantissa exponent := by
  unfold roundToInt decreaseExponent shiftToExponent
  dsimp only
  change (1 : Int) ≤ ((Nat.repeat ExtendedMantissa.shiftRightOne _ _).mantissa : Int)
  rw [mantissa_repeat, Nat.shiftLeft_eq]
  have shift : (0 - (exponent - (exponent - 0).toNat)).toNat ≤ 52 := by omega
  have below : 2 ^ (0 - (exponent - (exponent - 0).toNat)).toNat ≤ mantissa * 2 ^ (exponent - 0).toNat :=
    calc 2 ^ (0 - (exponent - (exponent - 0).toNat)).toNat
      _ ≤ 2 ^ 52 := Nat.pow_le_pow_right (by decide) shift
      _ ≤ mantissa := leading
      _ ≤ mantissa * 2 ^ (exponent - 0).toNat := Nat.le_mul_of_pos_right _ (Nat.two_pow_pos _)
  exact Int.ofNat_le.mpr (Nat.div_pos below (Nat.two_pow_pos _))

theorem one_le_ofNatClamp {n : Int} (least : 1 ≤ n) : 1 ≤ (UInt64.ofNatClamp n.toNat).toNat := by
  rw [UInt64.ofNatClamp]
  split
  · rw [UInt64.toNat_ofNatLT]
    omega
  · decide

/-- The comparison with one goes by the exponents first. -/
theorem one_le_toUInt64 {value : Float} (least : 1 ≤ value) : 1 ≤ value.toUInt64.toNat := by
  have compared : UnpackedFloat.le (1 : Float).toModel.unpack value.toModel.unpack = true :=
    of_decide_eq_true least
  have leading := @leading_of_unpack value.toModel.toBits.toBitVec
  change 1 ≤ (value.toModel.unpack.toUInt64).toNat
  rw [unpack_one, Float.Model.unpack] at compared
  rw [Float.Model.unpack]
  generalize UnpackedFloat.unpack Format.binary64 value.toModel.toBits.toBitVec = unpacked at compared leading
  cases unpacked with
  | notANumber => cases compared
  | zero sign => cases sign <;> cases compared
  | infinity sign =>
      cases sign with
      | negative => cases compared
      | positive => exact one_le_ofNatClamp (by decide)
  | finite sign mantissa exponent positive =>
      cases sign with
      | negative => cases compared
      | positive =>
          have ordered : ((compare (-52 : Int) exponent).then (compare (2 ^ 52) mantissa)).isLE = true := compared
          have low : -52 ≤ exponent := by
            apply Int.not_lt.mp
            intro less
            rw [Int.compare_eq_gt.mpr less] at ordered
            cases ordered
          refine one_le_ofNatClamp (one_le_roundToInt ?_ low)
          rcases leading rfl with least | leading
          · omega
          · exact leading

/-- Indices count from one. -/
theorem one_le_of_indexOf {value : Float} {index : Nat} (read : indexOf value = .ok index) : 1 ≤ index := by
  unfold indexOf at read
  split at read
  · rename_i whole
    cases read
    rw [Bool.and_eq_true, decide_eq_true_iff] at whole
    exact one_le_toUInt64 whole.1
  · cases read

example : (indexOf 3).toOption = some 3 := by decide +kernel

end MissionScript
