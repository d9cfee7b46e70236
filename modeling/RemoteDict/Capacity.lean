import RemoteDict.Handlers
import RemoteDict.BloomFilter

namespace RemoteDict.Capacity
open Foundation Handlers

variable {F : Type} [MembershipFilter F] {ι : Type} [DecidableEq ι] {s next : State ι F}

def Within (s : State ι F) : Prop := s.shared.dictionary.size ≤ MAX_DICT_SIZE

-- A critical section runs on a key that is there already, or where the size
-- test would let it pass once more.
def Fits (s : State ι F) (move : Move ι) : Prop :=
  ∀ i m, move = .advance i → s.threads i = .tested m →
    m.key ∈ s.shared.dictionary.m_dict ∨ s.shared.dictionary.full = false

theorem setLocked_within {d later : Dictionary F} (within : d.size ≤ MAX_DICT_SIZE)
    (stored : d.setLocked key val = .ok later) :
    later.size ≤ MAX_DICT_SIZE ↔ key ∈ d.m_dict ∨ d.full = false := by
  have room : d.full = false ↔ d.size < MAX_DICT_SIZE := by simp [Dictionary.full]
  rw [Dictionary.setLocked_size stored,room]
  by_cases held : key ∈ d.m_dict
  · simp [held,within]
  · simp only [held,if_false,false_or]
    exact Nat.succ_le_iff

theorem step_within (built : s.shared.dictionary.Built) (within : Within s) (stepped : step s move = some next) :
    Within next ↔ Fits s move := by
  rcases step_dictionary built stepped with ⟨same,other⟩ | ⟨i,m,rfl,here,stored⟩
  · refine iff_of_true ?_ fun i m moves tested => absurd tested (other i m moves)
    simpa only [Within,same] using within
  · refine (setLocked_within within stored).trans ⟨?_,fun fits => fits i m rfl here⟩
    rintro fits j n ⟨rfl⟩ tested
    rw [here] at tested
    cases tested
    exact fits

theorem capacity_exact (enable : Bool) (path : (workers ι F enable).Runs (workers ι F enable).start moves last) :
    (∀ t, (workers ι F enable).Visits (workers ι F enable).start moves t → Within t) ↔
      ∀ t move, (workers ι F enable).Takes (workers ι F enable).start moves t move → Fits t move := by
  have kept : ∀ (s : State ι F) move next, s.shared.dictionary.Built → Within s → step s move = some next →
      next.shared.dictionary.Built := fun s move next built _ stepped => step_built built stepped
  refine (workers ι F enable).throughout_exact kept ?_ (Dictionary.built_start enable) ?_ path
  · exact fun s move next built within stepped => step_within built within stepped
  · cases enable <;> exact Nat.zero_le _

def pair (left right : Local) : Bool → Local
  | true => left
  | false => right

def both (shared : Shared F) (left right : Local) : State Bool F := ⟨shared,pair left right,none⟩

theorem pair_left : Function.update (pair left right) true there = pair there right := by
  funext i
  cases i <;> simp [pair]

theorem pair_right : Function.update (pair left right) false there = pair left there := by
  funext i
  cases i <;> simp [pair]

theorem left_step {shared later : Shared F} (moved : advance left shared = some (.ok (there,later))) :
    step (both shared left right) (.advance true) = some (both later there right) := by
  refine (step_moved (s:=both shared left right) (i:=true) rfl rfl moved).trans ?_
  simp only [both,pair_left]

theorem right_step {shared later : Shared F} (moved : advance right shared = some (.ok (there,later))) :
    step (both shared left right) (.advance false) = some (both later left there) := by
  refine (step_moved (s:=both shared left right) (i:=false) rfl rfl moved).trans ?_
  simp only [both,pair_right]

theorem left_receive (shared : Shared F) : step (both shared .idle right) (.receive true type m) =
    some (both shared (.ready type m) right) := by
  refine (step_receive (s:=both shared .idle right)).mpr ⟨rfl,rfl,?_⟩
  simp only [both,pair_left]

theorem right_receive (shared : Shared F) : step (both shared left .idle) (.receive false type m) =
    some (both shared left (.ready type m)) := by
  refine (step_receive (s:=both shared left .idle)).mpr ⟨rfl,rfl,?_⟩
  simp only [both,pair_right]

structure Filled (n : Nat) (shared : Shared F) : Prop where
  plain : shared.dictionary.m_bloomFilterEnabled = false
  size : shared.dictionary.size = n
  short : ∀ key ∈ shared.dictionary.m_dict, key.length < n

def key (n : Nat) : Str := List.replicate n 0

def put (n : Nat) : Payload := {requesttype_ := some .SET,key_ := some (key n),value_ := some []}

def withKey (shared : Shared F) (n : Nat) : Shared F :=
  {shared with dictionary := {shared.dictionary with m_dict := shared.dictionary.m_dict.insert (key n) []}}

omit [MembershipFilter F] in
theorem fresh_key {shared : Shared F} (filled : Filled n shared) (longer : n ≤ k) : key k ∉ shared.dictionary.m_dict := by
  intro held
  have short := filled.short _ held
  rw [key,List.length_replicate] at short
  exact absurd longer (Nat.not_le.mpr short)

omit [MembershipFilter F] in
theorem withKey_filled {shared : Shared F} (filled : Filled n shared) : Filled (n+1) (withKey shared n) := by
  refine ⟨filled.plain,?_,?_⟩
  · exact (Table.size_insert_fresh _ (fresh_key filled (Nat.le_refl n))).trans (congrArg Nat.succ filled.size)
  · intro other held
    rcases (AList.mem_insert _).mp held with rfl | old
    · rw [key,List.length_replicate]
      exact Nat.lt_succ_self n
    · exact Nat.lt_succ_of_lt (filled.short other old)

theorem test_step {shared : Shared F} (filled : Filled n shared) (room : n < MAX_DICT_SIZE) (k : Nat) :
    advance (.ready .SET (put k)) shared = some (.ok (.tested (put k),shared)) := by
  have test : shared.dictionary.full = false := by simp [Dictionary.full,filled.size,room]
  exact advance_exact.mpr (.tests test)

theorem store_step {shared : Shared F} (filled : Filled n shared) (k : Nat) :
    advance (.tested (put k)) shared = some (.ok (.done (put k),withKey shared k)) :=
  advance_exact.mpr (.stores (Dictionary.setLocked_disabled filled.plain _ _))

theorem filled_next {shared : Shared F} (filled : Filled n shared) (room : n < MAX_DICT_SIZE) :
    (workers Bool F false).Runs (both shared .idle .idle)
      [.receive true .SET (put n),.advance true,.advance true,.advance true] (both (withKey shared n) .idle .idle) := by
  have sent : step (both (withKey shared n) (.done (put n)) .idle) (.advance true) =
      some (both (withKey shared n) .idle .idle) := left_step rfl
  exact .cons (left_receive shared) (.cons (left_step (test_step filled room n)) (.cons (left_step (store_step filled n))
    (.cons sent .nil)))

theorem start_both : (workers Bool F false).start = both ⟨Dictionary.new.enableBloomFilter false,{}⟩ .idle .idle := by
  have still : (fun _ => .idle) = pair .idle .idle := by
    funext i
    cases i <;> rfl
  rw [both,← still]
  rfl

theorem filled_run (n : Nat) (room : n ≤ MAX_DICT_SIZE) :
    ∃ moves shared, (workers Bool F false).run (workers Bool F false).start moves = some (both shared .idle .idle) ∧
      Filled n shared := by
  induction n with
  | zero =>
    rw [start_both]
    exact ⟨[],_,rfl,rfl,rfl,fun _ held => absurd held (AList.notMem_empty _)⟩
  | succ n ih =>
    obtain ⟨early,shared,path,filled⟩ := ih (Nat.le_of_succ_le room)
    have further := (workers Bool F false).run_exact.mpr (filled_next filled room)
    exact ⟨_,withKey shared n,(workers Bool F false).run_join path further,withKey_filled filled⟩

-- One below the limit both workers pass the test, and then both insert.
theorem race {shared : Shared F} (filled : Filled n shared) (room : n < MAX_DICT_SIZE) :
    (workers Bool F false).Runs (both shared .idle .idle)
      [.receive true .SET (put n),.receive false .SET (put (n+1)),.advance true,.advance false,.advance true,.advance false]
      (both (withKey (withKey shared n) (n+1)) (.done (put n)) (.done (put (n+1)))) :=
  .cons (left_receive shared) (.cons (right_receive shared) (.cons (left_step (test_step filled room n))
    (.cons (right_step (test_step filled room (n+1))) (.cons (left_step (store_step filled n))
      (.cons (right_step (store_step (withKey_filled filled) (n+1))) .nil)))))

def crossing : List (Move Bool) :=
  [.receive true .SET (put 0),.receive false .SET (put 1),.advance true,.advance false,.advance true,.advance false]

theorem capacity_exact_crossing :
    (∀ t, (workers Bool (BloomFilter BloomFilter.small) false).Visits (workers Bool (BloomFilter BloomFilter.small) false).start
      crossing t → Within t) ↔
    ∀ t move, (workers Bool (BloomFilter BloomFilter.small) false).Takes
      (workers Bool (BloomFilter BloomFilter.small) false).start crossing t move → Fits t move := by
  have empty : Filled 0 (⟨Dictionary.new.enableBloomFilter false,{}⟩ : Shared (BloomFilter BloomFilter.small)) :=
    ⟨rfl,rfl,fun _ held => absurd held (AList.notMem_empty _)⟩
  have path := race empty (by decide)
  rw [← start_both] at path
  exact capacity_exact false path

theorem capacity_exceeded : ∃ moves last, (workers Bool (BloomFilter BloomFilter.small) false).run
    (workers Bool (BloomFilter BloomFilter.small) false).start moves = some last ∧
    last.shared.dictionary.size = MAX_DICT_SIZE + 1 := by
  obtain ⟨n,limit⟩ : ∃ n, MAX_DICT_SIZE = n + 1 := ⟨999999,rfl⟩
  have room : n < MAX_DICT_SIZE := by rw [limit]; exact Nat.lt_succ_self n
  obtain ⟨moves,shared,path,filled⟩ := filled_run (F:=BloomFilter BloomFilter.small) n (Nat.le_of_lt room)
  have further := (workers Bool (BloomFilter BloomFilter.small) false).run_exact.mpr (race filled room)
  refine ⟨_,_,(workers Bool (BloomFilter BloomFilter.small) false).run_join path further,?_⟩
  rw [limit]
  exact (withKey_filled (withKey_filled filled)).size

end RemoteDict.Capacity
