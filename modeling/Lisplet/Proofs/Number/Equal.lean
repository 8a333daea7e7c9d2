import Lisplet.Proofs.Number.Text
import Mathlib

/-! Numbers that are equal to themselves.  The laws of equality of numbers are those of the library, in
which there is one value that is no number; here it is told by its binary form.  They come with the
library as a whole only, not with a part of it. -/

namespace Lisplet.Number

open Float.Model UnpackedFloat

theorem unpackExponent_eq_iff {b : BitVec 64} :
    @unpackExponent .binary64 b = -1#11 ↔ b.toNat / 0x10000000000000 % 0x800 = 0x7ff := by
  rw [← BitVec.toNat_inj, unpackExponent, BitVec.toNat_cast, BitVec.extractLsb_toNat,
    Nat.shiftRight_eq_div_pow]
  rfl

theorem unpackMantissa_eq_iff {b : BitVec 64} :
    @unpackMantissa .binary64 b = 0#52 ↔ b.toNat % 0x10000000000000 = 0 := by
  rw [← BitVec.toNat_inj, unpackMantissa, BitVec.toNat_cast, BitVec.extractLsb_toNat,
    Nat.shiftRight_zero]
  rfl

theorem fields_of_isNan {n : Float} (h : isNan n = true) :
    n.toBits.toNat / 0x10000000000000 % 0x800 = 0x7ff ∧
      n.toBits.toNat % 0x10000000000000 ≠ 0 := by
  unfold isNan at h
  revert h
  fun_cases parts n with
  | case2 _ _ _ hbiased hfraction =>
    exact fun _ => ⟨beq_iff_eq.1 hbiased, fun h => hfraction (beq_iff_eq.2 h)⟩
  | _ => exact nofun

theorem isNan_iff {n : Float} : isNan n = true ↔ n = Float.nan := by
  constructor
  · intro h
    obtain ⟨hbiased, hfraction⟩ := fields_of_isNan h
    have hbits : n.toBits.toBitVec = packedNaN .binary64 :=
      n.toModel.valid.1 (unpackExponent_eq_iff.2 hbiased)
        fun hmantissa => hfraction (unpackMantissa_eq_iff.1 hmantissa)
    exact Float.toBits_inj.1 (UInt64.toBitVec_inj.1 hbits)
  · rintro rfl
    decide +kernel

theorem beq_self_iff {n : Float} : (n == n) = true ↔ isNan n = false := by
  rw [Float.beq_self_iff, ne_eq, ← isNan_iff, Bool.not_eq_true]

end Lisplet.Number
