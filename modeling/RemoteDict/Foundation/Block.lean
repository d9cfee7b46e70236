import Mathlib.Algebra.Group.Nat.Defs
import Mathlib.Data.List.Basic

namespace Foundation.Block

abbrev Byte := UInt8

-- A heap block is the list of its bytes, so its size is the list's length.
def calloc (size : Nat) : List Byte := List.replicate size 0

-- memcpy into a block: `none` when some byte would land outside of it.
def store (block : List Byte) (offset : Nat) (source : List Byte) : Option (List Byte) :=
  if offset + source.length ≤ block.length then
    some (block.take offset ++ source ++ block.drop (offset + source.length))
  else none

@[simp] theorem calloc_length (size : Nat) : (calloc size).length = size := List.length_replicate

theorem store_none : store block offset source = none ↔ block.length < offset + source.length := by
  unfold store
  split <;> simp <;> omega

theorem store_length (stored : store block offset source = some written) : written.length = block.length := by
  unfold store at stored
  split at stored
  · cases stored
    simp only [List.length_append,List.length_take,List.length_drop]
    omega
  · cases stored

-- A fresh block whose first bytes have been written; the rest is still zero.
def filled (written : List Byte) (size : Nat) : List Byte := written ++ calloc (size - written.length)

@[simp] theorem filled_nil (size : Nat) : filled [] size = calloc size := by simp [filled]

theorem filled_length (fits : written.length ≤ size) : (filled written size).length = size := by
  simp only [filled,List.length_append,calloc_length]
  omega

theorem filled_of_length (full : written.length = size) : filled written size = written := by
  simp [filled,full,calloc]

theorem filled_take (written : List Byte) (size : Nat) : (filled written size).take written.length = written :=
  List.take_left

theorem filled_rest (written : List Byte) (size : Nat) : ∀ byte ∈ (filled written size).drop written.length, byte = 0 := by
  intro byte member
  rw [filled,List.drop_left] at member
  exact List.eq_of_mem_replicate member

theorem store_filled (fits : written.length + source.length ≤ size) :
    store (filled written size) written.length source = some (filled (written ++ source) size) := by
  have inside : written.length + source.length ≤ (filled written size).length := by
    rw [filled_length (by omega)]; exact fits
  rw [store,if_pos inside]
  have rest : size - written.length - source.length = size - (written ++ source).length := by
    simp only [List.length_append]; omega
  simp only [filled,List.take_left',List.drop_append,List.append_assoc,calloc,List.drop_replicate]
  simp [rest]

theorem store_calloc (fits : source.length ≤ size) : store (calloc size) 0 source = some (filled source size) := by
  have stored : store (filled [] size) 0 source = some (filled ([] ++ source) size) :=
    store_filled (by simpa using fits)
  simpa using stored

theorem store_filled_none (outside : size < written.length + source.length) (fits : written.length ≤ size) :
    store (filled written size) written.length source = none := by
  rw [store_none,filled_length fits]
  exact outside

inductive ByteOrder where
  | little
  | big
  deriving DecidableEq, Repr

def littleBytes (n : Nat) : List Byte :=
  [UInt8.ofNat n,UInt8.ofNat (n / 256),UInt8.ofNat (n / 65536),UInt8.ofNat (n / 16777216)]

def littleValue : List Byte → Nat
  | [] => 0
  | byte :: rest => byte.toNat + 256 * littleValue rest

def ByteOrder.encode : ByteOrder → Nat → List Byte
  | .little,n => littleBytes n
  | .big,n => (littleBytes n).reverse

def ByteOrder.decode : ByteOrder → List Byte → Nat
  | .little,bytes => littleValue bytes
  | .big,bytes => littleValue bytes.reverse

theorem little_roundtrip (small : n < 2^32) : littleValue (littleBytes n) = n := by
  simp only [littleBytes,littleValue,UInt8.toNat_ofNat']
  omega

theorem littleValue_lt (bytes : List Byte) : littleValue bytes < 256^bytes.length := by
  induction bytes with
  | nil => exact Nat.one_pos
  | cons byte bytes ih =>
    have digit := byte.toNat_lt
    rw [littleValue,List.length_cons,Nat.pow_succ]
    omega

theorem ByteOrder.decode_lt (order : ByteOrder) (bytes : List Byte) : order.decode bytes < 256^bytes.length := by
  cases order with
  | little => exact littleValue_lt bytes
  | big =>
    rw [← List.length_reverse]
    exact littleValue_lt bytes.reverse

@[simp] theorem ByteOrder.encode_length (order : ByteOrder) (n : Nat) : (order.encode n).length = 4 := by
  cases order <;> rfl

theorem ByteOrder.decode_encode (order : ByteOrder) (small : n < 2^32) :
    order.decode (order.encode n) = n := by
  cases order with
  | little => exact little_roundtrip small
  | big => simpa [encode,decode] using little_roundtrip small

end Foundation.Block
