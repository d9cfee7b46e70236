import RemoteDict.Store

namespace RemoteDict
open Foundation.Block

-- bloom_filter.hpp, as far as Dictionary uses it. The optimal parameters come
-- from floating point arithmetic and are taken as given: a number of hashes of
-- at most 128, which is where the salts are predefined, and a table size that
-- has been rounded up to whole bytes.
def bits_per_char : Nat := 8

def predef_salt : List UInt32 := [
  0xAAAAAAAA,0x55555555,0x33333333,0xCCCCCCCC,0x66666666,0x99999999,0xB5B5B5B5,0x4B4B4B4B,
  0xAA55AA55,0x55335533,0x33CC33CC,0xCC66CC66,0x66996699,0x99B599B5,0xB54BB54B,0x4BAA4BAA,
  0xAA33AA33,0x55CC55CC,0x33663366,0xCC99CC99,0x66B566B5,0x994B994B,0xB5AAB5AA,0xAAAAAA33,
  0x555555CC,0x33333366,0xCCCCCC99,0x666666B5,0x9999994B,0xB5B5B5AA,0xFFFFFFFF,0xFFFF0000,
  0xB823D5EB,0xC1191CDF,0xF623AEB3,0xDB58499F,0xC8D42E70,0xB173F616,0xA91A5967,0xDA427D63,
  0xB1E8A2EA,0xF6C0D155,0x4909FEA3,0xA68CC6A7,0xC395E782,0xA26057EB,0x0CD5DA28,0x467C5492,
  0xF15E6982,0x61C6FAD3,0x9615E352,0x6E9E355A,0x689B563E,0x0C9831A8,0x6753C18B,0xA622689B,
  0x8CA63C47,0x42CC2884,0x8E89919B,0x6EDBD7D3,0x15B6796C,0x1D6FDFE4,0x63FF9092,0xE7401432,
  0xEFFE9412,0xAEAEDF79,0x9F245A31,0x83C136FC,0xC3DA4A8C,0xA5112C8C,0x5271F491,0x9A948DAB,
  0xCEE59A8D,0xB5F525AB,0x59D13217,0x24E7C331,0x697C2103,0x84B0A460,0x86156DA9,0xAEF2AC68,
  0x23243DA5,0x3F649643,0x5FA495A8,0x67710DF8,0x9A6C499E,0xDCFB0227,0x46A43433,0x1832B07A,
  0xC46AFF3C,0xB9C8FFF0,0xC9500467,0x34431BDF,0xB652432B,0xE367F12B,0x427F4C1B,0x224C006E,
  0x2E7E5A89,0x96F99AA5,0x0BEB452A,0x2FD87C39,0x74B2E1FB,0x222EFD24,0xF357F60C,0x440FCB1E,
  0x8BBE030F,0x6704DC29,0x1144D12F,0x948B1355,0x6D8FD7E9,0x1C11A014,0xADD1592F,0xFB3C712E,
  0xFC77642F,0xF9C4CE8C,0x31312FB9,0x08B0DD79,0x318FA6E7,0xC040D23D,0xC0589AA7,0x0CA5C075,
  0xF874B172,0x0CF914D5,0x784D3280,0x4E8CFEBC,0xC569F575,0xCDB2A091,0x2CC016B4,0x5C5F4421]

structure BloomParameters where
  order : ByteOrder
  number_of_hashes : Nat
  table_bytes : Nat
  random_seed : UInt64
  predefined : number_of_hashes ≤ predef_salt.length
  nonempty : 0 < table_bytes

namespace BloomFilter

-- Each salt is seeded in place, so a later one sees the seeded earlier ones.
def seedSalts (seed : UInt32) (salts : List UInt32) : List UInt32 :=
  (List.range salts.length).foldl (fun salts i =>
    salts.set i (salts.getD i 0 * salts.getD ((i + 3) % salts.length) 0 + seed)) salts

def generate_unique_salt (p : BloomParameters) : List UInt32 :=
  seedSalts (p.random_seed * 0xA5A5A5A5 + 1).toUInt32 (predef_salt.take p.number_of_hashes)

def mixProduct (hash i : UInt32) : UInt32 := (hash <<< 7) ^^^ i * (hash >>> 3)
def mixSum (hash i : UInt32) : UInt32 := ~~~((hash <<< 11) + (i ^^^ (hash >>> 5)))

def load (order : ByteOrder) (bytes : List Byte) : UInt32 := UInt32.ofNat (order.decode bytes)

def hashByte (loop : UInt32) (hash : UInt32) : List Byte → UInt32
  | [] => hash
  | byte :: _ => hash + ((byte.toUInt32 ^^^ hash * 0xA5A5A5A5) + loop)

def hashTail (order : ByteOrder) (hash : UInt32) : List Byte → UInt32
  | a :: b :: c :: d :: e :: f :: rest =>
    let first := hash ^^^ mixSum hash (load order [a,b,c,d])
    hashByte 2 (first ^^^ mixProduct first (load order [e,f])) rest
  | a :: b :: c :: d :: rest => hashByte 1 (hash ^^^ mixSum hash (load order [a,b,c,d])) rest
  | a :: b :: rest => hashByte 1 (hash ^^^ mixSum hash (load order [a,b])) rest
  | rest => hashByte 0 hash rest

def hash_ap (order : ByteOrder) (hash : UInt32) : List Byte → UInt32
  | a :: b :: c :: d :: e :: f :: g :: h :: rest =>
    hash_ap order (hash ^^^ (mixProduct hash (load order [a,b,c,d]) ^^^ mixSum hash (load order [e,f,g,h]))) rest
  | rest => hashTail order hash rest

end BloomFilter

structure BloomFilter (p : BloomParameters) where
  bit_table_ : List Byte
  inserted_element_count_ : UInt64
  sized : bit_table_.length = p.table_bytes

namespace BloomFilter
variable {p : BloomParameters}

def bit_mask (bit : Nat) : Byte := 1 <<< UInt8.ofNat bit

def compute_indices (p : BloomParameters) (hash : UInt32) : Nat × Nat :=
  let bit_index := hash.toNat % (bits_per_char * p.table_bytes)
  (bit_index,bit_index % bits_per_char)

def setBit (table : List Byte) (index : Nat × Nat) : List Byte :=
  table.set (index.1 / bits_per_char) (table.getD (index.1 / bits_per_char) 0 ||| bit_mask index.2)

def testBit (table : List Byte) (index : Nat × Nat) : Bool :=
  table.getD (index.1 / bits_per_char) 0 &&& bit_mask index.2 == bit_mask index.2

def indices (p : BloomParameters) (key : Str) : List (Nat × Nat) :=
  (generate_unique_salt p).map fun salt => compute_indices p (hash_ap p.order salt key)

theorem setBits_length (table : List Byte) (all : List (Nat × Nat)) : (all.foldl setBit table).length = table.length := by
  induction all generalizing table with
  | nil => rfl
  | cons index all ih => rw [List.foldl_cons,ih,setBit,List.length_set]

def make (p : BloomParameters) : BloomFilter p := ⟨calloc p.table_bytes,0,calloc_length _⟩

def insert (filter : BloomFilter p) (key : Str) : BloomFilter p :=
  ⟨(indices p key).foldl setBit filter.bit_table_,filter.inserted_element_count_ + 1,
    (setBits_length _ _).trans filter.sized⟩

def contains (filter : BloomFilter p) (key : Str) : Bool := (indices p key).all (testBit filter.bit_table_)

instance : MembershipFilter (BloomFilter p) := ⟨make p,insert,contains⟩

theorem index_inside (member : index ∈ indices p key) : index.1 / bits_per_char < p.table_bytes := by
  obtain ⟨salt,_,rfl⟩ := List.mem_map.mp member
  have positive : 0 < bits_per_char * p.table_bytes := Nat.mul_pos (by decide) p.nonempty
  exact Nat.div_lt_of_lt_mul (Nat.mod_lt _ positive)

theorem mask_bits (byte mask : Byte) : byte &&& mask = mask ↔
    ∀ i : Nat, mask.toBitVec.getLsbD i = true → byte.toBitVec.getLsbD i = true := by
  rw [← UInt8.toBitVec_inj,BitVec.eq_of_getLsbD_eq_iff,UInt8.toBitVec_and]
  constructor
  · intro same i held
    by_cases inside : i < 8
    · have bit := same i inside
      rw [BitVec.getLsbD_and,held,Bool.and_true] at bit
      exact bit
    · rw [BitVec.getLsbD_of_ge _ _ (by omega)] at held
      cases held
  · intro below i _
    rw [BitVec.getLsbD_and]
    cases held : mask.toBitVec.getLsbD i with
    | false => simp
    | true => simp [below i held]

theorem mask_or (byte mask : Byte) : (byte ||| mask) &&& mask = mask := by
  rw [mask_bits]
  intro i held
  rw [UInt8.toBitVec_or,BitVec.getLsbD_or,held,Bool.or_true]

theorem mask_kept (held : byte &&& mask = mask) (other : Byte) : (byte ||| other) &&& mask = mask := by
  rw [mask_bits] at held ⊢
  intro i set
  rw [UInt8.toBitVec_or,BitVec.getLsbD_or,held i set,Bool.true_or]

theorem testBit_exact : testBit table index = true ↔
    table.getD (index.1 / bits_per_char) 0 &&& bit_mask index.2 = bit_mask index.2 := beq_iff_eq

theorem testBit_set (inside : index.1 / bits_per_char < table.length) : testBit (setBit table index) index = true := by
  rw [testBit_exact,setBit,List.getD_eq_getElem?_getD,List.getElem?_set_self inside]
  exact mask_or _ _

theorem testBit_kept (held : testBit table index = true) : testBit (setBit table other) index = true := by
  rw [testBit_exact] at held ⊢
  rw [setBit,List.getD_eq_getElem?_getD]
  by_cases same : other.1 / bits_per_char = index.1 / bits_per_char
  · rw [same]
    by_cases inside : index.1 / bits_per_char < table.length
    · rw [List.getElem?_set_self inside]
      exact mask_kept held _
    · rw [List.getElem?_eq_none (by rw [List.length_set]; omega)]
      rw [List.getD_eq_getElem?_getD,List.getElem?_eq_none (by omega)] at held
      exact held
  · rw [List.getElem?_set_ne same,← List.getD_eq_getElem?_getD]
    exact held

theorem testBits_kept (held : testBit table index = true) (all : List (Nat × Nat)) :
    testBit (all.foldl setBit table) index = true := by
  induction all generalizing table with
  | nil => exact held
  | cons other all ih => exact ih (testBit_kept held)

theorem testBits_set (all : List (Nat × Nat)) (inside : ∀ index ∈ all, index.1 / bits_per_char < table.length) :
    all.all (testBit (all.foldl setBit table)) = true := by
  rw [List.all_eq_true]
  induction all generalizing table with
  | nil => simp
  | cons first all ih =>
    intro index member
    rcases List.mem_cons.mp member with rfl | later
    · exact testBits_kept (testBit_set (inside _ (.head _))) all
    · refine ih (fun other present => ?_) index later
      rw [setBit,List.length_set]
      exact inside other (.tail _ present)

theorem contains_insert (filter : BloomFilter p) (key : Str) : contains (insert filter key) key = true :=
  testBits_set _ fun _ member => filter.sized ▸ index_inside member

theorem contains_kept (held : contains (p:=p) filter key = true) (other : Str) : contains (insert filter other) key = true := by
  rw [contains,List.all_eq_true] at held ⊢
  exact fun index member => testBits_kept (held index member) _

theorem contains_fold (held : contains (p:=p) filter key = true) (keys : List Str) :
    contains (keys.foldl insert filter) key = true := by
  induction keys generalizing filter with
  | nil => exact held
  | cons other keys ih => exact ih (contains_kept held other)

theorem noFalseNegatives (p : BloomParameters) : NoFalseNegatives (BloomFilter p) := by
  intro keys key member
  obtain ⟨before,after,rfl⟩ := List.append_of_mem member
  change contains ((before ++ key :: after).foldl insert (make p)) key = true
  rw [List.foldl_append,List.foldl_cons]
  exact contains_fold (contains_insert _ _) after

-- Two hashes over a table of 200 bits, with the seed of bloom_parameters.
def small : BloomParameters := ⟨.little,2,25,0xA5A5A5A55A5A5A5A,by decide +kernel,by decide⟩

example : contains (insert (make small) (text "k1")) (text "k1") = true ∧
    contains (insert (make small) (text "k1")) (text "k2") = false := by decide

end BloomFilter
end RemoteDict
