import Mathlib.Algebra.Group.Nat.Defs
import Mathlib.Data.List.GetD
import Mathlib.Data.Set.Lattice
import Mathlib.Data.Set.SymmDiff
import Mathlib.Order.ConditionallyCompleteLattice.Basic

namespace Foundation.Bits

-- A table of bytes, read as the set of the numbers of its set bits.
def held (table : List UInt8) (n : Nat) : Bool := (table.getD (n / 8) 0).toBitVec.getLsbD (n % 8)

def bits (table : List UInt8) : Set Nat := {n | held table n = true}

variable {table left right : List UInt8} {n : Nat}

theorem mem_bits : n ∈ bits table ↔ held table n = true := Iff.rfl

theorem held_outside (outside : table.length ≤ n / 8) : held table n = false := by
  rw [held,List.getD_eq_default _ _ outside]
  simp

theorem bits_lt (member : n ∈ bits table) : n < 8 * table.length := by
  by_contra outside
  rw [mem_bits,held_outside (by omega)] at member
  cases member

theorem byte_ext (a b : UInt8) (same : ∀ i < 8, a.toBitVec.getLsbD i = b.toBitVec.getLsbD i) : a = b :=
  UInt8.toBitVec_inj.mp (BitVec.eq_of_getLsbD_eq fun i inside => same i inside)

theorem bits_inj (length : left.length = right.length) : bits left = bits right ↔ left = right := by
  constructor
  · intro same
    refine List.ext_getElem length fun i here there => byte_ext _ _ fun j inside => ?_
    have number : (8 * i + j) / 8 = i ∧ (8 * i + j) % 8 = j := by omega
    have member := Set.ext_iff.mp same (8 * i + j)
    rw [mem_bits,mem_bits,← Bool.eq_iff_iff,held,held,number.1,number.2,List.getD_eq_getElem _ _ here,
      List.getD_eq_getElem _ _ there] at member
    exact member
  · exact congrArg bits

theorem bits_zeros (size : Nat) : bits (List.replicate size 0) = ∅ := by
  ext n
  have zero : (List.replicate size (0 : UInt8)).getD (n / 8) 0 = 0 := by
    rw [List.getD_eq_getElem?_getD,List.getElem?_replicate]
    split <;> rfl
  rw [mem_bits,held,zero]
  simp

-- An operation on bytes that works bit by bit, and sets nothing that neither has.
theorem held_zipWith (op : UInt8 → UInt8 → UInt8) (bit : Bool → Bool → Bool) (still : bit false false = false)
    (each : ∀ a b i, (op a b).toBitVec.getLsbD i = bit (a.toBitVec.getLsbD i) (b.toBitVec.getLsbD i))
    (length : left.length = right.length) (n : Nat) :
    held (List.zipWith op left right) n = bit (held left n) (held right n) := by
  by_cases inside : n / 8 < left.length
  · have there : n / 8 < right.length := length ▸ inside
    have both : n / 8 < (List.zipWith op left right).length := by
      rw [List.length_zipWith]
      omega
    rw [held,List.getD_eq_getElem _ _ both,List.getElem_zipWith,each,held,held,List.getD_eq_getElem _ _ inside,
      List.getD_eq_getElem _ _ there]
  · rw [held_outside (by rw [List.length_zipWith]; omega),held_outside (by omega),held_outside (by omega),still]

theorem bits_or (length : left.length = right.length) :
    bits (List.zipWith (· ||| ·) left right) = bits left ∪ bits right := by
  ext n
  have bit := held_zipWith (· ||| ·) (· || ·) rfl (fun a b i => by rw [UInt8.toBitVec_or,BitVec.getLsbD_or]) length n
  rw [mem_bits,bit,Bool.or_eq_true]
  rfl

theorem bits_and (length : left.length = right.length) :
    bits (List.zipWith (· &&& ·) left right) = bits left ∩ bits right := by
  ext n
  have bit := held_zipWith (· &&& ·) (· && ·) rfl (fun a b i => by rw [UInt8.toBitVec_and,BitVec.getLsbD_and]) length n
  rw [mem_bits,bit,Bool.and_eq_true]
  rfl

theorem bits_xor (length : left.length = right.length) :
    bits (List.zipWith (· ^^^ ·) left right) = symmDiff (bits left) (bits right) := by
  ext n
  have bit := held_zipWith (· ^^^ ·) (· ^^ ·) rfl (fun a b i => by rw [UInt8.toBitVec_xor,BitVec.getLsbD_xor]) length n
  rw [mem_bits,bit,Set.mem_symmDiff,mem_bits,mem_bits]
  cases held left n <;> cases held right n <;> simp

theorem bits_take (table : List UInt8) (k : Nat) : n ∈ bits (table.take k) ↔ n < 8 * k ∧ n ∈ bits table := by
  simp only [mem_bits,held,List.getD_eq_getElem?_getD,List.getElem?_take]
  by_cases inside : n / 8 < k
  · rw [if_pos inside]
    refine (and_iff_right ?_).symm
    omega
  · rw [if_neg inside]
    refine iff_of_false (by simp) fun both => ?_
    omega

theorem bits_drop (table : List UInt8) (k : Nat) : n ∈ bits (table.drop k) ↔ 8 * k + n ∈ bits table := by
  have parts : (8 * k + n) / 8 = k + n / 8 ∧ (8 * k + n) % 8 = n % 8 := by omega
  simp only [mem_bits,held,List.getD_eq_getElem?_getD,List.getElem?_drop,parts.1,parts.2]

theorem bits_padded (table : List UInt8) (k : Nat) : bits (table ++ List.replicate k 0) = bits table := by
  ext n
  simp only [mem_bits,held,List.getD_eq_getElem?_getD]
  by_cases inside : n / 8 < table.length
  · rw [List.getElem?_append_left inside]
  · rw [List.getElem?_append_right (by omega),List.getElem?_eq_none (l:=table) (by omega),List.getElem?_replicate]
    split <;> rfl

theorem bits_set {mask : UInt8} (inside : n / 8 < table.length)
    (one : ∀ i < 8, mask.toBitVec.getLsbD i = decide (i = n % 8)) :
    bits (table.set (n / 8) (table.getD (n / 8) 0 ||| mask)) = insert n (bits table) := by
  ext m
  rw [Set.mem_insert_iff,mem_bits,mem_bits,held,held]
  by_cases here : n / 8 = m / 8
  · rw [← here,List.getD_eq_getElem?_getD,List.getElem?_set_self inside,Option.getD_some,UInt8.toBitVec_or,BitVec.getLsbD_or,
      one _ (Nat.mod_lt _ (by decide)),Bool.or_eq_true,decide_eq_true_eq,or_comm]
    refine or_congr_left ?_
    omega
  · rw [List.getD_eq_getElem?_getD,List.getElem?_set_ne here,← List.getD_eq_getElem?_getD]
    refine (or_iff_right ?_).symm
    rintro rfl
    exact here rfl

end Foundation.Bits
