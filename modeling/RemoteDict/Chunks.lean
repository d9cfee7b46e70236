import Mathlib.Data.List.Basic
import RemoteDict.Client
import RemoteDict.CommandLine

namespace RemoteDict.Chunks

-- The iterators of one chunk, as offsets into input_data.
structure Range where
  first : Nat
  last : Nat
  deriving DecidableEq, Repr

-- The loop of TestClient::start with `left` iterations to go. The offsets are
-- of type size_t and stay within the length of input_data.
def rangeLoop (size chunk_size m_numThread : Nat) : Nat → Nat → Nat → List Range
  | 0,_,_ => []
  | left+1,i,start_size =>
    (if i = m_numThread then ⟨start_size,size⟩ else ⟨start_size,start_size + chunk_size⟩) ::
      rangeLoop size chunk_size m_numThread left (i + 1) (start_size + chunk_size)

def ranges (size m_numThread : Nat) : List Range :=
  rangeLoop size (size / m_numThread) m_numThread m_numThread 1 0

def chunk (input_data : List MessageT) (range : Range) : List MessageT :=
  (input_data.drop range.first).take (range.last - range.first)

def start (input_data : List MessageT) (m_numThread : Nat) : List (List MessageT) :=
  (ranges input_data.length m_numThread).map (chunk input_data)

variable {input_data : List MessageT} {size chunk_size n : Nat}

theorem chunk_rest (input_data : List MessageT) (first : Nat) :
    chunk input_data ⟨first,input_data.length⟩ = input_data.drop first := by
  rw [chunk,List.take_of_length_le (Nat.le_of_eq List.length_drop)]

theorem chunk_then (input_data : List MessageT) (first size : Nat) :
    chunk input_data ⟨first,first + size⟩ ++ input_data.drop (first + size) = input_data.drop first := by
  rw [chunk,Nat.add_sub_cancel_left,← List.drop_drop,List.take_append_drop]

theorem rangeLoop_inside (count : i + left = n + 1) (room : start_size + left * chunk_size ≤ size)
    (formed : range ∈ rangeLoop size chunk_size n left i start_size) : range.first ≤ range.last ∧ range.last ≤ size := by
  induction left generalizing i start_size with
  | zero => cases formed
  | succ left ih =>
    rw [Nat.add_mul,Nat.one_mul] at room
    rcases List.mem_cons.mp formed with rfl | later
    · by_cases last : i = n
      · rw [if_pos last]
        exact ⟨by dsimp only; omega,Nat.le_refl _⟩
      · rw [if_neg last]
        exact ⟨Nat.le_add_right _ _,by dsimp only; omega⟩
    · exact ih (by omega) (by omega) later

theorem rangeLoop_rest (count : i + (left + 1) = n + 1) :
    ((rangeLoop input_data.length chunk_size n (left + 1) i start_size).map (chunk input_data)).flatten =
      input_data.drop start_size := by
  induction left generalizing i start_size with
  | zero =>
    rw [rangeLoop,if_pos (by omega),rangeLoop,List.map_singleton,List.flatten_singleton,chunk_rest]
  | succ left ih =>
    rw [rangeLoop,if_neg (by omega),List.map_cons,List.flatten_cons,ih (by omega),chunk_then]

theorem division_room (size n : Nat) : 0 + n * (size / n) ≤ size := by
  rw [Nat.zero_add]
  exact Nat.mul_div_le size n

theorem ranges_inside (formed : range ∈ ranges size n) : range.first ≤ range.last ∧ range.last ≤ size :=
  rangeLoop_inside (Nat.add_comm 1 n) (division_room size n) formed

theorem rangeLoop_length (size chunk_size n left i start_size : Nat) :
    (rangeLoop size chunk_size n left i start_size).length = left := by
  induction left generalizing i start_size with
  | zero => rfl
  | succ left ih => rw [rangeLoop,List.length_cons,ih]

theorem chunk_size_division {m_numThread : Int32} (positive : 1 ≤ m_numThread.toInt) (size : UInt64) :
    (CommandLine.Client.chunk_size size m_numThread).map UInt64.toNat = some (size.toNat / m_numThread.toInt.toNat) := by
  have same : m_numThread.toInt64.toUInt64.toNat = m_numThread.toInt.toNat := by
    rw [Int64.toNat_toUInt64_of_le (by rw [Int64.le_iff_toInt_le,Int32.toInt_toInt64]; exact Int.le_of_lt positive),
      Int64.toNatClampNeg,Int32.toInt_toInt64]
  have nonzero : m_numThread.toInt64.toUInt64 ≠ 0 := by
    intro zero
    rw [zero] at same
    have none : (0 : UInt64).toNat = 0 := rfl
    omega
  rw [CommandLine.Client.chunk_size,if_neg nonzero,Option.map_some,UInt64.toNat_div,same]

theorem start_whole (threads : 1 ≤ n) (input_data : List MessageT) :
    (∀ range ∈ ranges input_data.length n, range.first ≤ range.last ∧ range.last ≤ input_data.length) ∧
    (start input_data n).length = n ∧ (start input_data n).flatten = input_data := by
  refine ⟨fun range formed => ranges_inside formed,?_,?_⟩
  · rw [start,List.length_map]
    exact rangeLoop_length _ _ _ _ _ _
  · obtain ⟨left,rfl⟩ := Nat.exists_eq_add_of_le' threads
    exact rangeLoop_rest (Nat.add_comm 1 (left + 1))

def two : List MessageT := [⟨some .GET,text "k1",[]⟩,⟨some .STAT,[],[]⟩]

theorem start_whole_two :
    (∀ range ∈ ranges two.length 3, range.first ≤ range.last ∧ range.last ≤ two.length) ∧
    (start two 3).length = 3 ∧ (start two 3).flatten = two :=
  start_whole (by decide) two

theorem rangeLoop_sizes (count : i + (left + 1) = n + 1) (size chunk_size start_size : Nat) :
    (rangeLoop size chunk_size n (left + 1) i start_size).map (fun range => range.last - range.first) =
      List.replicate left chunk_size ++ [size - (start_size + left * chunk_size)] := by
  induction left generalizing i start_size with
  | zero => rw [rangeLoop,if_pos (by omega)]; simp [rangeLoop]
  | succ left ih =>
    rw [rangeLoop,if_neg (by omega),List.map_cons,ih (by omega),Nat.add_sub_cancel_left,List.replicate_succ,List.cons_append,
      Nat.add_mul left 1,Nat.one_mul,Nat.add_right_comm,Nat.add_assoc start_size]

theorem chunk_length (inside : range.first ≤ range.last ∧ range.last ≤ input_data.length) :
    (chunk input_data range).length = range.last - range.first := by
  rw [chunk,List.length_take,List.length_drop]
  omega

theorem start_sizes (input_data : List MessageT) (left : Nat) : (start input_data (left + 1)).map List.length =
    List.replicate left (input_data.length / (left + 1)) ++
      [input_data.length / (left + 1) + input_data.length % (left + 1)] := by
  have sizes := rangeLoop_sizes (Nat.add_comm 1 (left + 1)) input_data.length (input_data.length / (left + 1)) 0
  have parts := Nat.div_add_mod input_data.length (left + 1)
  have last : input_data.length - (0 + left * (input_data.length / (left + 1))) =
      input_data.length / (left + 1) + input_data.length % (left + 1) := by
    rw [Nat.add_mul left 1,Nat.one_mul,Nat.add_assoc] at parts
    exact Nat.sub_eq_of_eq_add' (parts.symm.trans (by rw [Nat.zero_add]))
  rw [last] at sizes
  rw [start,List.map_map,← sizes]
  apply List.map_congr_left
  intro range formed
  exact chunk_length (ranges_inside formed)

theorem sizes_close (left size extra : Nat) :
    (∀ given ∈ List.replicate left size ++ [size + extra], ∀ other ∈ List.replicate left size ++ [size + extra],
      given ≤ other + 1) ↔ left = 0 ∨ extra ≤ 1 := by
  constructor
  · intro close
    cases left with
    | zero => exact .inl rfl
    | succ left =>
      have last := close _ (List.mem_append_right _ List.mem_cons_self) size (by simp)
      exact .inr (by omega)
  · intro small given member other member'
    have bounds : ∀ given ∈ List.replicate left size ++ [size + extra], given = size + extra ∨ given = size ∧ 0 < left := by
      intro given member
      rcases List.mem_append.mp member with early | last
      · obtain ⟨some,same⟩ := List.mem_replicate.mp early
        exact .inr ⟨same,Nat.pos_of_ne_zero some⟩
      · exact .inl (List.mem_singleton.mp last)
    have one := bounds given member
    have two := bounds other member'
    omega

theorem start_equal (threads : 1 ≤ n) (input_data : List MessageT) :
    (∀ given ∈ start input_data n, ∀ other ∈ start input_data n, given.length ≤ other.length + 1) ↔
      input_data.length % n ≤ 1 := by
  obtain ⟨left,rfl⟩ := Nat.exists_eq_add_of_le' threads
  have lengths : (∀ given ∈ start input_data (left + 1), ∀ other ∈ start input_data (left + 1),
      given.length ≤ other.length + 1) ↔
      ∀ size ∈ (start input_data (left + 1)).map List.length, ∀ other ∈ (start input_data (left + 1)).map List.length,
        size ≤ other + 1 := by
    simp only [List.forall_mem_map]
  rw [lengths,start_sizes,sizes_close]
  constructor
  · rintro (rfl | small)
    · rw [Nat.mod_one]
      exact Nat.zero_le 1
    · exact small
  · exact .inr

theorem start_equal_two :
    (∀ given ∈ start two 2, ∀ other ∈ start two 2, given.length ≤ other.length + 1) ↔ two.length % 2 ≤ 1 :=
  start_equal (by decide) two

theorem start_unequal :
    (start two 3).map List.length = [0,0,2] ∧
    ¬(∀ given ∈ start two 3, ∀ other ∈ start two 3, given.length ≤ other.length + 1) ∧
    (start (List.replicate 10 ⟨some .STAT,[],[]⟩) 16).map List.length = List.replicate 15 0 ++ [10] := by
  decide

end RemoteDict.Chunks
