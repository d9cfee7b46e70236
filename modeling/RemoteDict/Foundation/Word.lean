import Mathlib.Algebra.Group.Int.Defs
import Mathlib.Algebra.Group.Nat.Defs

namespace Foundation.Word

theorem toInt_toInt32 (word : UInt32) :
    word.toInt32.toInt = if word.toNat < 2^31 then (word.toNat : Int) else (word.toNat : Int) - 2^32 := by
  rw [← Int32.toInt_toBitVec,UInt32.toBitVec_toInt32,BitVec.toInt_eq_toNat_cond,UInt32.toNat_toBitVec]
  split <;> split <;> omega

theorem toInt_small {word : UInt32} (small : word.toNat < 2^31) : word.toInt32.toInt = word.toNat := by
  rw [toInt_toInt32,if_pos small]

theorem toUInt32_nonneg {word : Int32} (nonneg : 0 ≤ word.toInt) : word.toUInt32.toNat = word.toInt.toNat :=
  Int32.toNat_toUInt32_of_le (Int32.le_iff_toInt_le.mpr nonneg)

end Foundation.Word
