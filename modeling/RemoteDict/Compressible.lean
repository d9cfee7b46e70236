import RemoteDict.BloomAlgebra
import RemoteDict.Foundation.Machine

namespace RemoteDict.Compressible
open Foundation Foundation.Block Foundation.Bits BloomFilter

-- compressible_bloom_filter. size_list has the table size of the constructor
-- and then that of each compress.
structure CompressibleBloomFilter (p : BloomParameters) where
  bit_table_ : List Byte
  inserted_element_count_ : UInt64
  size_list : List Nat
  nonempty : 0 < bit_table_.length
  sized : size_list.getLast? = some (bits_per_char * bit_table_.length)

variable {p : BloomParameters}

def new (p : BloomParameters) : CompressibleBloomFilter p where
  bit_table_ := calloc p.table_bytes
  inserted_element_count_ := 0
  size_list := [bits_per_char * p.table_bytes]
  nonempty := by rw [calloc_length]; exact p.nonempty
  sized := by rw [calloc_length]; rfl

def size (filter : CompressibleBloomFilter p) : Nat := bits_per_char * filter.bit_table_.length

def compute_indices (size_list : List Nat) (hash : UInt32) : Nat × Nat :=
  let bit_index := size_list.foldl (· % ·) hash.toNat
  (bit_index,bit_index % bits_per_char)

def indices (p : BloomParameters) (size_list : List Nat) (key : Str) : List (Nat × Nat) :=
  (generate_unique_salt p).map fun salt => compute_indices size_list (hash_ap p.order salt key)

def insert (filter : CompressibleBloomFilter p) (key : Str) : CompressibleBloomFilter p where
  bit_table_ := (indices p filter.size_list key).foldl setBit filter.bit_table_
  inserted_element_count_ := filter.inserted_element_count_ + 1
  size_list := filter.size_list
  nonempty := by rw [setBits_length]; exact filter.nonempty
  sized := by rw [setBits_length]; exact filter.sized

def contains (filter : CompressibleBloomFilter p) (key : Str) : Bool :=
  (indices p filter.size_list key).all (testBit filter.bit_table_)

def clear (filter : CompressibleBloomFilter p) : CompressibleBloomFilter p where
  bit_table_ := calloc filter.bit_table_.length
  inserted_element_count_ := 0
  size_list := filter.size_list
  nonempty := by rw [calloc_length]; exact filter.nonempty
  sized := by rw [calloc_length]; exact filter.sized

-- The loop over the bytes that are to go: nothing says that tmp is long enough
-- for them.
def foldOver : List Byte → List Byte → Option (List Byte)
  | tmp,[] => some tmp
  | [],_ :: _ => none
  | cell :: tmp,byte :: rest => (foldOver tmp rest).map ((cell ||| byte) :: ·)

-- A percentage outside of the range is none; for the others the new size comes
-- from floating point arithmetic, as any number, and is rounded down to bytes.
def new_table_size (filter : CompressibleBloomFilter p) (percentage : Option Nat) : Option Nat :=
  match percentage with
  | none => none
  | some product =>
    let new_table_size := product - product % bits_per_char
    if bits_per_char > new_table_size ∨ new_table_size ≥ size filter then none else some new_table_size

theorem or_calloc (tmp : List Byte) : List.zipWith (· ||| ·) tmp (calloc tmp.length) = tmp := by
  induction tmp with
  | nil => rfl
  | cons byte tmp ih =>
    rw [List.length_cons,calloc,List.replicate_succ,List.zipWith_cons_cons,UInt8.or_zero]
    exact congrArg (byte :: ·) ih

theorem foldOver_exact (tmp rest : List Byte) : foldOver tmp rest =
    if rest.length ≤ tmp.length then some (List.zipWith (· ||| ·) tmp (filled rest tmp.length)) else none := by
  induction tmp generalizing rest with
  | nil => cases rest <;> rfl
  | cons cell tmp ih =>
    cases rest with
    | nil => rw [foldOver,if_pos (by simp),filled_nil,or_calloc]
    | cons byte rest =>
      rw [foldOver,ih]
      by_cases fits : rest.length ≤ tmp.length
      · rw [if_pos fits,if_pos (by simpa using fits)]
        simp [filled]
      · rw [if_neg fits,if_neg (by simpa using fits)]
        rfl

theorem foldOver_table (table : List Byte) (raw : Nat) (inside : raw ≤ table.length) :
    foldOver (table.take raw) (table.drop raw) =
      if table.length ≤ 2 * raw then
        some (List.zipWith (· ||| ·) (table.take raw) (filled (table.drop raw) raw))
      else none := by
  have length : (table.take raw).length = raw := List.length_take_of_le inside
  rw [foldOver_exact,length,List.length_drop]
  by_cases fits : table.length ≤ 2 * raw
  · rw [if_pos (by omega),if_pos fits]
  · rw [if_neg (by omega),if_neg fits]

theorem foldOver_bits {table : List Byte} (inside : raw ≤ table.length) (fits : table.length ≤ 2 * raw)
    (folded : foldOver (table.take raw) (table.drop raw) = some tmp) :
    tmp.length = raw ∧ bits tmp = (· % (bits_per_char * raw)) '' bits table := by
  rw [foldOver_table table raw inside,if_pos fits] at folded
  cases folded
  have first : (table.take raw).length = raw := List.length_take_of_le inside
  have second : (filled (table.drop raw) raw).length = raw := filled_length (by rw [List.length_drop]; omega)
  constructor
  · rw [List.length_zipWith,first,second,Nat.min_self]
  · rw [bits_or (first.trans second.symm),filled,calloc,bits_padded]
    ext n
    rw [Set.mem_union,bits_take,bits_drop,Set.mem_image]
    have width : bits_per_char = 8 := rfl
    rw [width]
    constructor
    · rintro (⟨below,member⟩ | member)
      · exact ⟨n,member,Nat.mod_eq_of_lt below⟩
      · refine ⟨8 * raw + n,member,?_⟩
        have most := bits_lt member
        rw [Nat.add_mod_left,Nat.mod_eq_of_lt (by omega)]
    · rintro ⟨m,member,rfl⟩
      have most := bits_lt member
      by_cases below : m < 8 * raw
      · rw [Nat.mod_eq_of_lt below]
        exact .inl ⟨below,member⟩
      · have past : m % (8 * raw) = m - 8 * raw := by
          rw [Nat.mod_eq_sub_mod (by omega),Nat.mod_eq_of_lt (by omega)]
        refine .inr ?_
        rw [past,Nat.add_sub_cancel' (by omega)]
        exact member

theorem foldOver_length (folded : foldOver tmp rest = some out) : out.length = tmp.length := by
  rw [foldOver_exact] at folded
  split at folded
  · rename_i fits
    cases folded
    rw [List.length_zipWith,filled_length fits,Nat.min_self]
  · cases folded

theorem new_table_size_some {filter : CompressibleBloomFilter p} (asked : new_table_size filter percentage = some n) :
    bits_per_char * (n / bits_per_char) = n ∧ bits_per_char ≤ n ∧ n < size filter := by
  unfold new_table_size at asked
  dsimp only at asked
  split at asked
  · cases asked
  · split at asked
    · cases asked
    · rename_i product within
      cases asked
      have width : bits_per_char = 8 := rfl
      rw [width] at within ⊢
      omega

theorem fold_length {filter : CompressibleBloomFilter p} (asked : new_table_size filter percentage = some n)
    (folded : foldOver (filter.bit_table_.take (n / bits_per_char)) (filter.bit_table_.drop (n / bits_per_char)) = some tmp) :
    bits_per_char * tmp.length = n ∧ 0 < tmp.length := by
  obtain ⟨whole,least,less⟩ := new_table_size_some asked
  have width : bits_per_char = 8 := rfl
  rw [size,width] at less
  rw [width] at whole least folded ⊢
  rw [foldOver_length folded,List.length_take_of_le (by omega)]
  omega

-- desired_false_positive_probability_ is left out.
def compress (filter : CompressibleBloomFilter p) (percentage : Option Nat) : Option (CompressibleBloomFilter p × Bool) :=
  match asked : new_table_size filter percentage with
  | none => some (filter,false)
  | some new_table_size =>
    let new_tbl_raw_size := new_table_size / bits_per_char
    match folded : foldOver (filter.bit_table_.take new_tbl_raw_size) (filter.bit_table_.drop new_tbl_raw_size) with
    | none => none
    | some tmp =>
      some ({
        bit_table_ := tmp
        inserted_element_count_ := filter.inserted_element_count_
        size_list := filter.size_list ++ [new_table_size]
        nonempty := (fold_length asked folded).2
        sized := by rw [List.getLast?_append,(fold_length asked folded).1]; rfl},true)

inductive Call where
  | insert (key : Str)
  | clear
  | compress (percentage : Option Nat)

def act (filter : CompressibleBloomFilter p) : Call → Option (CompressibleBloomFilter p)
  | .insert key => some (insert filter key)
  | .clear => some (clear filter)
  | .compress percentage => (compress filter percentage).map Prod.fst

def compressible (p : BloomParameters) : Machine (CompressibleBloomFilter p) Call := ⟨new p,act⟩

def keep (keys : Set Str) : Call → Set Str
  | .insert key => Insert.insert key keys
  | .clear => ∅
  | .compress _ => keys

def kept (calls : List Call) : Set Str := calls.foldl keep ∅

def probes (p : BloomParameters) (size_list : List Nat) (key : Str) : Set Nat :=
  {n | (n,n % bits_per_char) ∈ indices p size_list key}

def Marked (filter : CompressibleBloomFilter p) (keys : Set Str) : Prop :=
  bits filter.bit_table_ = Sketch.marks (probes p filter.size_list) keys

def Overruns (filter : CompressibleBloomFilter p) (call : Call) : Prop :=
  ∃ percentage n, call = .compress percentage ∧ new_table_size filter percentage = some n ∧ 2 * n < size filter

inductive Compresses (filter : CompressibleBloomFilter p) (percentage : Option Nat) :
    Option (CompressibleBloomFilter p × Bool) → Prop where
  | refused : new_table_size filter percentage = none → Compresses filter percentage (some (filter,false))
  | overran : new_table_size filter percentage = some n →
      foldOver (filter.bit_table_.take (n / bits_per_char)) (filter.bit_table_.drop (n / bits_per_char)) = none →
      Compresses filter percentage none
  | done : new_table_size filter percentage = some n →
      foldOver (filter.bit_table_.take (n / bits_per_char)) (filter.bit_table_.drop (n / bits_per_char)) = some next.bit_table_ →
      next.size_list = filter.size_list ++ [n] → Compresses filter percentage (some (next,true))

variable {filter next : CompressibleBloomFilter p} {keys : Set Str}

theorem mem_indices (member : index ∈ indices p size_list key) : index = (index.1,index.1 % bits_per_char) := by
  obtain ⟨salt,_,rfl⟩ := List.mem_map.mp member
  rfl

theorem index_inside (member : index ∈ indices p filter.size_list key) :
    index.1 / bits_per_char < filter.bit_table_.length := by
  obtain ⟨salt,_,rfl⟩ := List.mem_map.mp member
  obtain ⟨earlier,split⟩ := List.getLast?_eq_some_iff.mp filter.sized
  have positive : 0 < bits_per_char * filter.bit_table_.length := Nat.mul_pos (by decide) filter.nonempty
  rw [compute_indices,split,List.foldl_append]
  exact Nat.div_lt_of_lt_mul (Nat.mod_lt _ positive)

theorem contains_exact (filter : CompressibleBloomFilter p) (key : Str) :
    contains filter key = true ↔ probes p filter.size_list key ⊆ bits filter.bit_table_ := by
  rw [contains,List.all_eq_true]
  constructor
  · intro all n member
    exact (testBit_bits _ n).mp (all _ member)
  · intro all index member
    have formed := mem_indices member
    rw [formed] at member ⊢
    exact (testBit_bits _ _).mpr (all member)

theorem new_marked : Marked (new p) ∅ :=
  (bits_zeros _).trans (Sketch.marks_holders _).l_bot.symm

theorem insert_marked (marked : Marked filter keys) (key : Str) : Marked (insert filter key) (Insert.insert key keys) := by
  have added : bits (insert filter key).bit_table_ = bits filter.bit_table_ ∪ probes p filter.size_list key :=
    setBits_bits _ (fun _ member => index_inside member) fun _ member => mem_indices member
  rw [Marked,added,Sketch.marks_insert,Set.union_comm,marked]
  rfl

theorem probes_compressed (p : BloomParameters) (size_list : List Nat) (n : Nat) (key : Str) :
    probes p (size_list ++ [n]) key = (· % n) '' probes p size_list key := by
  ext bit
  simp only [probes,indices,compute_indices,Set.mem_ofPred_eq,Set.mem_image,List.mem_map,List.foldl_append,List.foldl_cons,
    List.foldl_nil,Prod.mk.injEq]
  constructor
  · rintro ⟨salt,first,rfl,_⟩
    exact ⟨_,⟨salt,first,rfl,rfl⟩,rfl⟩
  · rintro ⟨before,⟨salt,first,rfl,_⟩,rfl⟩
    exact ⟨salt,first,rfl,rfl⟩

theorem compress_exact (filter : CompressibleBloomFilter p) (percentage : Option Nat) :
    Compresses filter percentage (compress filter percentage) := by
  unfold compress
  split
  · rename_i asked
    exact .refused asked
  · rename_i n asked
    dsimp only
    split
    · rename_i folded
      exact .overran asked folded
    · rename_i tmp folded
      exact .done asked folded rfl

theorem raw_size (asked : new_table_size filter percentage = some n) :
    n / bits_per_char ≤ filter.bit_table_.length ∧
    (filter.bit_table_.length ≤ 2 * (n / bits_per_char) ↔ size filter ≤ 2 * n) := by
  obtain ⟨whole,_,less⟩ := new_table_size_some asked
  have width : bits_per_char = 8 := rfl
  rw [size] at less ⊢
  rw [width] at whole less ⊢
  omega

theorem compress_none : compress filter percentage = none ↔
    ∃ n, new_table_size filter percentage = some n ∧ 2 * n < size filter := by
  have compressed := compress_exact filter percentage
  generalize compress filter percentage = result at compressed
  cases compressed with
  | refused none =>
    refine iff_of_false (by simp) ?_
    rintro ⟨n,asked,_⟩
    rw [none] at asked
    cases asked
  | @overran n asked folded =>
    refine iff_of_true rfl ⟨n,asked,?_⟩
    obtain ⟨inside,same⟩ := raw_size asked
    rw [foldOver_table _ _ inside] at folded
    split at folded
    · cases folded
    · rename_i past
      rw [same] at past
      exact Nat.not_le.mp past
  | @done next n asked folded _ =>
    refine iff_of_false (by simp) ?_
    rintro ⟨m,also,past⟩
    rw [asked] at also
    cases also
    obtain ⟨inside,same⟩ := raw_size asked
    rw [foldOver_table _ _ inside,if_neg (by rw [same]; exact Nat.not_le.mpr past)] at folded
    cases folded

theorem compress_marked (marked : Marked filter keys) (compressed : compress filter percentage = some (next,done)) :
    Marked next keys := by
  have cases := compress_exact filter percentage
  rw [compressed] at cases
  cases cases with
  | refused => exact marked
  | @done n _ asked folded sizes =>
    obtain ⟨inside,_⟩ := raw_size asked
    have fits : filter.bit_table_.length ≤ 2 * (n / bits_per_char) := by
      by_contra past
      rw [foldOver_table _ _ inside,if_neg past] at folded
      cases folded
    have image := (foldOver_bits inside fits folded).2
    rw [(new_table_size_some asked).1] at image
    have coarser : probes p next.size_list = fun key => (· % n) '' probes p filter.size_list key := by
      rw [sizes]
      exact funext (probes_compressed p filter.size_list n)
    rw [Marked,image,coarser,marked,Sketch.marks_image]

theorem act_marked (marked : Marked filter keys) (acted : act filter call = some next) : Marked next (keep keys call) := by
  cases call with
  | insert key =>
    cases acted
    exact insert_marked marked key
  | clear =>
    cases acted
    exact (bits_zeros _).trans (Sketch.marks_holders _).l_bot.symm
  | compress percentage =>
    obtain ⟨⟨later,done⟩,compressed,rfl⟩ := Option.map_eq_some_iff.mp acted
    exact compress_marked marked compressed

theorem run_marked (marked : Marked filter keys) (path : (compressible p).run filter calls = some next) :
    Marked next (calls.foldl keep keys) := by
  induction calls generalizing filter keys with
  | nil =>
    cases path
    exact marked
  | cons call calls ih =>
    obtain ⟨middle,first,rest⟩ := (compressible p).run_cons.mp path
    exact ih (act_marked marked first) rest

theorem act_none : act filter call = none ↔ Overruns filter call := by
  cases call with
  | insert key => simp [act,Overruns]
  | clear => simp [act,Overruns]
  | compress percentage =>
    rw [act,Option.map_eq_none_iff,compress_none,Overruns]
    constructor
    · rintro ⟨n,asked,past⟩
      exact ⟨percentage,n,rfl,asked,past⟩
    · rintro ⟨_,n,⟨rfl⟩,asked,past⟩
      exact ⟨n,asked,past⟩

-- However often the table is made smaller between insertions, no inserted key is
-- reported as missing, and the only call that goes wrong is one that takes away
-- more than half of the table.
theorem compressed_sound (path : (compressible p).run (new p) calls = some filter) :
    (∀ key ∈ kept calls, contains filter key = true) ∧
    ∀ call, (compressible p).step filter call = none ↔ Overruns filter call := by
  have marked := run_marked new_marked path
  refine ⟨?_,fun call => act_none⟩
  intro key member
  rw [contains_exact]
  exact (Sketch.marks_holders (probes p filter.size_list)).le_u marked.symm.le member

def shrinking : List Call :=
  [.insert (text "k1"),.compress (some 120),.insert (text "k2"),.compress none,.compress (some 67)]

theorem compressed_sound_shrinking : ∃ filter, (compressible small).run (new small) shrinking = some filter ∧
    (∀ key ∈ kept shrinking, contains filter key = true) ∧
    ∀ call, (compressible small).step filter call = none ↔ Overruns filter call := by
  have runs : ((compressible small).run (new small) shrinking).isSome = true := by decide
  obtain ⟨filter,path⟩ := Option.isSome_iff_exists.mp runs
  exact ⟨filter,path,compressed_sound path⟩

end RemoteDict.Compressible
