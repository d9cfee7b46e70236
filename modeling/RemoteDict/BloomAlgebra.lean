import RemoteDict.BloomFilter
import RemoteDict.Foundation.Bits
import RemoteDict.Foundation.Sketch

namespace RemoteDict.BloomFilter
open Foundation Foundation.Block Foundation.Bits

variable {p q : BloomParameters} {filter : BloomFilter p} {key : Str}

-- clear and the three operators, which do nothing when the two filters are not of
-- one kind and do not look at inserted_element_count_.
def clear (filter : BloomFilter p) : BloomFilter p :=
  ⟨calloc filter.bit_table_.length,0,(calloc_length _).trans filter.sized⟩

def random_seed_ (p : BloomParameters) : UInt64 := p.random_seed * 0xA5A5A5A5 + 1

def Combinable (p q : BloomParameters) : Prop :=
  p.number_of_hashes = q.number_of_hashes ∧ p.table_bytes = q.table_bytes ∧ random_seed_ p = random_seed_ q

instance (p q : BloomParameters) : Decidable (Combinable p q) := inferInstanceAs (Decidable (_ ∧ _ ∧ _))

theorem zipWith_sized (op : Byte → Byte → Byte) (filter : BloomFilter p) (f : BloomFilter q)
    (same : p.table_bytes = q.table_bytes) : (List.zipWith op filter.bit_table_ f.bit_table_).length = p.table_bytes := by
  rw [List.length_zipWith,filter.sized,f.sized,← same,Nat.min_self]

def assign (op : Byte → Byte → Byte) (filter : BloomFilter p) (f : BloomFilter q) : BloomFilter p :=
  if same : Combinable p q then
    ⟨List.zipWith op filter.bit_table_ f.bit_table_,filter.inserted_element_count_,zipWith_sized op filter f same.2.1⟩
  else filter

def operator_and (filter : BloomFilter p) (f : BloomFilter q) : BloomFilter p := assign (· &&& ·) filter f
def operator_or (filter : BloomFilter p) (f : BloomFilter q) : BloomFilter p := assign (· ||| ·) filter f
def operator_xor (filter : BloomFilter p) (f : BloomFilter q) : BloomFilter p := assign (· ^^^ ·) filter f

def probes (p : BloomParameters) (key : Str) : Set Nat := {n | (n,n % bits_per_char) ∈ indices p key}

theorem mem_indices (member : index ∈ indices p key) : index = (index.1,index.1 % bits_per_char) := by
  obtain ⟨salt,_,rfl⟩ := List.mem_map.mp member
  rfl

theorem mask_bit (bit : Nat) (inside : bit < 8) : ∀ i < 8, (bit_mask bit).toBitVec.getLsbD i = decide (i = bit) := by
  revert bit
  decide

theorem setBit_bits (inside : n / bits_per_char < table.length) :
    bits (setBit table (n,n % bits_per_char)) = Insert.insert n (bits table) :=
  bits_set inside (mask_bit _ (Nat.mod_lt _ (by decide)))

theorem testBit_bits (table : List Byte) (n : Nat) : testBit table (n,n % bits_per_char) = true ↔ n ∈ bits table := by
  have small : n % bits_per_char < 8 := Nat.mod_lt _ (by decide)
  rw [testBit_exact,mask_bits,mem_bits,held]
  constructor
  · intro below
    exact below _ ((mask_bit _ small _ small).trans (decide_eq_true rfl))
  · intro set i masked
    by_cases inside : i < 8
    · rw [mask_bit _ small _ inside,decide_eq_true_eq] at masked
      rw [masked]
      exact set
    · rw [BitVec.getLsbD_of_ge _ _ (by omega)] at masked
      cases masked

theorem setBits_bits (all : List (Nat × Nat)) (inside : ∀ index ∈ all, index.1 / bits_per_char < table.length)
    (formed : ∀ index ∈ all, index = (index.1,index.1 % bits_per_char)) :
    bits (all.foldl setBit table) = bits table ∪ {n | (n,n % bits_per_char) ∈ all} := by
  induction all generalizing table with
  | nil => simp
  | cons index all ih =>
    have here := formed index List.mem_cons_self
    have first : bits (setBit table index) = Insert.insert index.1 (bits table) := by
      rw [here]
      exact setBit_bits (inside index List.mem_cons_self)
    have length : (setBit table index).length = table.length := List.length_set ..
    rw [List.foldl_cons,ih (fun other member => length ▸ inside other (List.mem_cons_of_mem _ member))
      (fun other member => formed other (List.mem_cons_of_mem _ member)),first]
    ext n
    have same : (n,n % bits_per_char) = index ↔ n = index.1 := by
      rw [here]
      exact ⟨fun both => congrArg Prod.fst both,fun number => by rw [number]⟩
    simp only [Set.mem_union,Set.mem_insert_iff,Set.mem_ofPred_eq,List.mem_cons,same]
    tauto

theorem make_bits : bits (make p).bit_table_ = ∅ := bits_zeros _

theorem clear_bits (filter : BloomFilter p) : bits (clear filter).bit_table_ = ∅ := bits_zeros _

theorem insert_bits (filter : BloomFilter p) (key : Str) :
    bits (insert filter key).bit_table_ = bits filter.bit_table_ ∪ probes p key :=
  setBits_bits _ (fun _ member => filter.sized ▸ index_inside member) fun _ member => mem_indices member

theorem contains_bits (filter : BloomFilter p) (key : Str) :
    contains filter key = true ↔ key ∈ Sketch.holders (probes p) (bits filter.bit_table_) := by
  rw [contains,List.all_eq_true]
  constructor
  · intro all n member
    exact (testBit_bits _ n).mp (all _ member)
  · intro all index member
    have formed := mem_indices member
    rw [formed] at member ⊢
    exact (testBit_bits _ _).mpr (all member)

theorem combined (op : Byte → Byte → Byte) (filter f : BloomFilter p) :
    (assign op filter f).bit_table_ = List.zipWith op filter.bit_table_ f.bit_table_ := by
  rw [assign,dif_pos ⟨rfl,rfl,rfl⟩]

theorem lengths (filter f : BloomFilter p) : filter.bit_table_.length = f.bit_table_.length := filter.sized.trans f.sized.symm

theorem or_bits (filter f : BloomFilter p) :
    bits (operator_or filter f).bit_table_ = bits filter.bit_table_ ∪ bits f.bit_table_ := by
  rw [operator_or,combined]
  exact bits_or (lengths filter f)

theorem and_bits (filter f : BloomFilter p) :
    bits (operator_and filter f).bit_table_ = bits filter.bit_table_ ∩ bits f.bit_table_ := by
  rw [operator_and,combined]
  exact bits_and (lengths filter f)

theorem xor_bits (filter f : BloomFilter p) :
    bits (operator_xor filter f).bit_table_ = symmDiff (bits filter.bit_table_) (bits f.bit_table_) := by
  rw [operator_xor,combined]
  exact bits_xor (lengths filter f)

-- What can be built with the class from new filters of one kind.
inductive Program where
  | make
  | insert (filter : Program) (key : Str)
  | clear (filter : Program)
  | operator_or (left right : Program)
  | operator_and (left right : Program)

def Program.eval (p : BloomParameters) : Program → BloomFilter p
  | .make => BloomFilter.make p
  | .insert filter key => BloomFilter.insert (filter.eval p) key
  | .clear filter => BloomFilter.clear (filter.eval p)
  | .operator_or left right => BloomFilter.operator_or (left.eval p) (right.eval p)
  | .operator_and left right => BloomFilter.operator_and (left.eval p) (right.eval p)

def Program.keys : Program → Set Str
  | .make => ∅
  | .insert filter key => Insert.insert key filter.keys
  | .clear _ => ∅
  | .operator_or left right => left.keys ∪ right.keys
  | .operator_and left right => left.keys ∩ right.keys

def Program.Plain : Program → Prop
  | .make => True
  | .insert filter _ => filter.Plain
  | .clear _ => True
  | .operator_or left right => left.Plain ∧ right.Plain
  | .operator_and _ _ => False

theorem eval_marks (p : BloomParameters) (program : Program) :
    Sketch.marks (probes p) program.keys ⊆ bits (program.eval p).bit_table_ := by
  have connection := Sketch.marks_holders (probes p)
  induction program with
  | make => exact connection.l_bot.le.trans (Set.empty_subset _)
  | insert filter key ih =>
    rw [Program.keys,Program.eval,insert_bits,Sketch.marks_insert,Set.union_comm]
    exact Set.union_subset_union_left _ ih
  | clear filter _ => exact connection.l_bot.le.trans (Set.empty_subset _)
  | operator_or left right first second =>
    rw [Program.keys,Program.eval,or_bits]
    exact connection.l_sup.le.trans (Set.union_subset_union first second)
  | operator_and left right first second =>
    rw [Program.keys,Program.eval,and_bits]
    exact Set.subset_inter ((connection.monotone_l Set.inter_subset_left).trans first)
      ((connection.monotone_l Set.inter_subset_right).trans second)

theorem eval_plain (p : BloomParameters) {program : Program} (plain : program.Plain) :
    bits (program.eval p).bit_table_ = Sketch.marks (probes p) program.keys := by
  have connection := Sketch.marks_holders (probes p)
  induction program with
  | make => exact make_bits.trans connection.l_bot.symm
  | insert filter key ih =>
    rw [Program.keys,Program.eval,insert_bits,Sketch.marks_insert,ih plain,Set.union_comm]
  | clear filter _ => exact (clear_bits _).trans connection.l_bot.symm
  | operator_or left right first second =>
    rw [Program.keys,Program.eval,or_bits,first plain.1,second plain.2]
    exact connection.l_sup.symm
  | operator_and _ _ _ _ => exact plain.elim

-- Two keys one after the other; the same in the other order, one twice, in two parts.
def once : Program := .insert (.insert .make (text "k1")) (text "k2")

def parted : Program :=
  .operator_or (.insert .make (text "k2")) (.insert (.insert (.clear (.insert .make (text "k3"))) (text "k1")) (text "k2"))

-- Whatever filters are made of keys with these operations, none of the keys that
-- the same operations on sets leave is reported as missing.
theorem program_sound (p : BloomParameters) (program : Program) : ∀ key ∈ program.keys, contains (program.eval p) key = true := by
  intro key member
  rw [contains_bits]
  exact (Sketch.marks_holders (probes p)).le_u (eval_marks p program) member

theorem program_sound_parted : contains (parted.eval small) (text "k1") = true :=
  program_sound small parted _ (by simp [parted,Program.keys])

-- Without intersections the table is that of the set of keys: in which order, how
-- often and in how many parts they were inserted leaves no trace in it.
theorem program_table (p : BloomParameters) {program other : Program} (plain : program.Plain) (also : other.Plain)
    (same : program.keys = other.keys) : (program.eval p).bit_table_ = (other.eval p).bit_table_ := by
  rw [← bits_inj (lengths _ _),eval_plain p plain,eval_plain p also,same]

theorem program_table_parted : (once.eval small).bit_table_ = (parted.eval small).bit_table_ :=
  program_table small (show True from trivial) (show True ∧ True from ⟨trivial,trivial⟩) (by
    ext key
    simp [once,parted,Program.keys,or_comm])

theorem seedSalts_length (seed : UInt32) (salts : List UInt32) : (seedSalts seed salts).length = salts.length := by
  have kept : ∀ (turns : List Nat) (seeded : List UInt32), (turns.foldl (fun salts i =>
      salts.set i (salts.getD i 0 * salts.getD ((i + 3) % salts.length) 0 + seed)) seeded).length = seeded.length := by
    intro turns
    induction turns with
    | nil => exact fun _ => rfl
    | cons i turns ih =>
      intro seeded
      rw [List.foldl_cons,ih,List.length_set]
  exact kept _ _

theorem hash_count (p : BloomParameters) : (generate_unique_salt p).length = p.number_of_hashes := by
  rw [generate_unique_salt,seedSalts_length,List.length_take,Nat.min_eq_left p.predefined]

theorem probes_image (p : BloomParameters) (key : Str) : probes p key = {n | n ∈ (indices p key).map Prod.fst} := by
  ext n
  rw [probes,Set.mem_ofPred_eq,Set.mem_ofPred_eq,List.mem_map]
  constructor
  · intro member
    exact ⟨_,member,rfl⟩
  · rintro ⟨index,member,rfl⟩
    exact mem_indices member ▸ member

theorem probes_few (p : BloomParameters) (key : Str) : (probes p key).ncard ≤ p.number_of_hashes := by
  have same : probes p key = ↑((indices p key).map Prod.fst).toFinset := by
    rw [probes_image]
    ext n
    simp
  have most := List.toFinset_card_le ((indices p key).map Prod.fst)
  rw [List.length_map,indices,List.length_map,hash_count] at most
  rw [same,Set.ncard_coe_finset]
  exact most

theorem keys_finite (program : Program) : program.keys.Finite := by
  induction program with
  | make => exact Set.finite_empty
  | insert filter key ih => exact ih.insert key
  | clear filter _ => exact Set.finite_empty
  | operator_or left right first second => exact first.union second
  | operator_and left right first _ => exact first.subset Set.inter_subset_left

theorem program_fill (p : BloomParameters) {program : Program} (plain : program.Plain) :
    (bits (program.eval p).bit_table_).ncard ≤ p.number_of_hashes * program.keys.ncard := by
  rw [eval_plain p plain]
  exact Sketch.marks_few (probes_few p) (keys_finite program)

theorem filter_ext {filter f : BloomFilter p} (table : filter.bit_table_ = f.bit_table_)
    (count : filter.inserted_element_count_ = f.inserted_element_count_) : filter = f := by
  cases filter
  cases f
  cases table
  cases count
  rfl

theorem program_fill_once : (bits (once.eval small).bit_table_).ncard ≤ small.number_of_hashes * once.keys.ncard :=
  program_fill small (show True from trivial)

-- operator ^= is undone by the same again, and a key that both filters report is
-- not reported by what it makes of them.
theorem xor_exact (filter f : BloomFilter p) : operator_xor (operator_xor filter f) f = filter ∧
    ∀ key, contains filter key = true → contains f key = true → 0 < p.number_of_hashes →
      contains (operator_xor filter f) key = false := by
  constructor
  · apply filter_ext
    · rw [← bits_inj (lengths _ _),xor_bits,xor_bits,symmDiff_symmDiff_cancel_right]
    · rw [operator_xor,operator_xor,assign,dif_pos ⟨rfl,rfl,rfl⟩,assign,dif_pos ⟨rfl,rfl,rfl⟩]
  · intro key here there some
    rw [← Bool.not_eq_true,contains_bits,xor_bits]
    rw [contains_bits] at here there
    intro either
    obtain ⟨salt,first⟩ := List.exists_mem_of_length_pos (hash_count p ▸ some)
    have member : compute_indices p (hash_ap p.order salt key) ∈ indices p key := List.mem_map_of_mem first
    have probed : (compute_indices p (hash_ap p.order salt key)).1 ∈ probes p key := member
    rcases either probed with ⟨_,apart⟩ | ⟨_,apart⟩
    · exact apart (there probed)
    · exact apart (here probed)

end RemoteDict.BloomFilter
