import RemoteDict.CommandLine
import RemoteDict.Foundation.Rotation
import RemoteDict.Foundation.Word

namespace RemoteDict.RoundRobin
open Foundation CommandLine.Server

-- WorkerManager with ROUND_ROBIN. Of a worker only the descriptors that were
-- added to its event loop are kept.
structure WorkerManager where
  m_threadCount : Int32
  m_index : UInt32
  m_workers : List (List Int)
  deriving DecidableEq, Repr

def start (threadCount : Int32) : WorkerManager := ⟨threadCount,0,List.replicate threadCount.toInt.toNat []⟩

-- What is not defined is missing: a division by zero, an index outside of
-- m_workers.
def loadbalanceFd (manager : WorkerManager) (fd : Int) : Option WorkerManager :=
  match CommandLine.Server.getWorkerIndex manager.m_threadCount manager.m_index with
  | none => none
  | some ret_index =>
    let manager := {manager with m_index := ret_index}
    let index := ret_index.toInt32
    if index < 0 ∨ manager.m_threadCount ≤ index then some manager
    else if index.toInt.toNat < manager.m_workers.length then
      some {manager with m_workers := manager.m_workers.modify index.toInt.toNat (· ++ [fd])}
    else none

def dispatchFd (manager : WorkerManager) (fd : Int) : Option WorkerManager := loadbalanceFd manager fd

def dispatchAll : WorkerManager → List Int → Option WorkerManager
  | manager,[] => some manager
  | manager,fd :: rest => (dispatchFd manager fd).bind (dispatchAll · rest)

structure Turned (T : Int32) (n : Nat) (manager : WorkerManager) : Prop where
  count : manager.m_threadCount = T
  index : manager.m_index.toNat = n % T.toInt.toNat
  workers : ∀ i, (manager.m_workers[i]?).map List.length =
    if i < T.toInt.toNat then some (Rotation.share T.toInt.toNat n i) else none

variable {T : Int32} {manager : WorkerManager}

theorem start_turned (T : Int32) : Turned T 0 (start T) := by
  refine ⟨rfl,(Nat.zero_mod _).symm,?_⟩
  intro i
  rw [start,List.getElem?_replicate,Rotation.share_zero]
  split <;> rfl

theorem Turned.length (turned : Turned T n manager) (inside : i < T.toInt.toNat) : i < manager.m_workers.length := by
  have held := turned.workers i
  rw [if_pos inside,Option.map_eq_some_iff] at held
  obtain ⟨given,found,_⟩ := held
  exact (List.getElem?_eq_some_iff.mp found).1

-- What getWorkerIndex chooses for connection n+1: the index passes the range check.
structure Turn (T : Int32) (n : Nat) (m_index turn : UInt32) : Prop where
  chosen : CommandLine.Server.getWorkerIndex T m_index = some turn
  index : turn.toNat = (n + 1) % T.toInt.toNat
  signed : turn.toInt32.toInt = turn.toNat
  passes : ¬(turn.toInt32 < 0 ∨ T ≤ turn.toInt32)

theorem getWorkerIndex_turn (positive : 1 ≤ T.toInt) (small : T.toInt ≤ 65535) {m_index : UInt32}
    (same : m_index.toNat = n % T.toInt.toNat) : ∃ turn, Turn T n m_index turn := by
  have divisor : T.toUInt32.toNat = T.toInt.toNat := Word.toUInt32_nonneg (by omega)
  have nonzero : T.toUInt32 ≠ 0 := by
    intro zero
    rw [zero] at divisor
    have none : (0 : UInt32).toNat = 0 := rfl
    omega
  have less : (n + 1) % T.toInt.toNat < T.toInt.toNat := Nat.mod_lt _ (by omega)
  have before : n % T.toInt.toNat < T.toInt.toNat := Nat.mod_lt _ (by omega)
  have one : (1 : UInt32).toNat = 1 := rfl
  have turn : ((m_index + 1) % T.toUInt32).toNat = (n + 1) % T.toInt.toNat := by
    rw [UInt32.toNat_mod,UInt32.toNat_add,divisor,same,one,Nat.mod_eq_of_lt (b:=2^32) (by omega),Nat.mod_add_mod]
  have signed : ((m_index + 1) % T.toUInt32).toInt32.toInt = ((m_index + 1) % T.toUInt32).toNat :=
    Word.toInt_small (by omega)
  refine ⟨_,if_neg nonzero,turn,signed,?_⟩
  rw [Int32.lt_iff_toInt_lt,Int32.le_iff_toInt_le,signed,turn]
  have zero : (0 : Int32).toInt = 0 := rfl
  omega

theorem dispatchFd_turn (positive : 1 ≤ T.toInt) (turned : Turned T n manager) (taken : Turn T n manager.m_index turn)
    (fd : Int) : dispatchFd manager fd =
      some {manager with m_index := turn,m_workers := manager.m_workers.modify turn.toNat (· ++ [fd])} := by
  obtain ⟨chosen,index,signed,passes⟩ := taken
  have less : turn.toNat < T.toInt.toNat := by
    rw [index]
    exact Nat.mod_lt _ (by omega)
  have inside := turned.length less
  have same : turn.toInt32.toInt.toNat = turn.toNat := by omega
  rw [dispatchFd,loadbalanceFd,turned.count,chosen]
  simp only [if_neg passes,same,if_pos inside]

theorem Turned.next (turned : Turned T n manager) (index : turn.toNat = (n + 1) % T.toInt.toNat) (fd : Int) :
    Turned T (n + 1) {manager with m_index := turn,m_workers := manager.m_workers.modify turn.toNat (· ++ [fd])} := by
  refine ⟨turned.count,index,?_⟩
  intro i
  have before := turned.workers i
  dsimp only
  rw [List.getElem?_modify]
  by_cases inside : i < T.toInt.toNat
  · rw [if_pos inside] at before ⊢
    obtain ⟨given,found,length⟩ := Option.map_eq_some_iff.mp before
    rw [found,Rotation.share_succ inside,← index,← length]
    by_cases here : turn.toNat = i
    · simp [here]
    · simp [here,Ne.symm here]
  · rw [if_neg inside] at before ⊢
    rw [Option.map_eq_none_iff.mp before]
    rfl

theorem dispatchAll_turned (positive : 1 ≤ T.toInt) (small : T.toInt ≤ 65535) (turned : Turned T n manager) (fds : List Int) :
    ∃ later, dispatchAll manager fds = some later ∧ Turned T (n + fds.length) later := by
  induction fds generalizing n manager with
  | nil => exact ⟨manager,rfl,turned⟩
  | cons fd fds ih =>
    obtain ⟨turn,taken⟩ := getWorkerIndex_turn positive small turned.index
    obtain ⟨later,rest,reached⟩ := ih (turned.next taken.index fd)
    refine ⟨later,?_,?_⟩
    · rw [dispatchAll,dispatchFd_turn positive turned taken]
      exact rest
    · rw [List.length_cons,Nat.add_comm fds.length,← Nat.add_assoc]
      exact reached

theorem Turned.shares (turned : Turned T n manager) (member : given ∈ manager.m_workers) :
    ∃ i, given.length = Rotation.share T.toInt.toNat n i := by
  obtain ⟨i,found⟩ := List.mem_iff_getElem?.mp member
  have shared := turned.workers i
  rw [found] at shared
  split at shared
  · exact ⟨i,Option.some.inj shared⟩
  · cases shared

theorem Turned.close (turned : Turned T n manager) (left : given ∈ manager.m_workers) (right : other ∈ manager.m_workers) :
    given.length ≤ other.length + 1 := by
  obtain ⟨i,one⟩ := turned.shares left
  obtain ⟨j,two⟩ := turned.shares right
  rw [one,two]
  exact Rotation.share_close _ _ _ _

theorem Turned.threads (turned : Turned T n manager) : manager.m_workers.length = T.toInt.toNat := by
  apply Nat.le_antisymm
  · apply Nat.le_of_not_lt
    intro more
    have held := turned.workers T.toInt.toNat
    rw [if_neg (Nat.lt_irrefl _),List.getElem?_eq_getElem more] at held
    cases held
  · apply Nat.le_of_not_lt
    intro fewer
    exact Nat.lt_irrefl _ (turned.length fewer)

theorem roundRobin_fair (positive : 1 ≤ T.toInt) (small : T.toInt ≤ 65535) (fds : List Int) :
    ∃ manager, dispatchAll (start T) fds = some manager ∧
      manager.m_index.toNat < T.toInt.toNat ∧ manager.m_index.toNat + 1 < 2^32 ∧
      (∃ turn, Turn T fds.length manager.m_index turn ∧ ∀ fd, dispatchFd manager fd =
        some {manager with m_index := turn,m_workers := manager.m_workers.modify turn.toNat (· ++ [fd])}) ∧
      manager.m_workers.length = T.toInt.toNat ∧
      ∀ given ∈ manager.m_workers, ∀ other ∈ manager.m_workers, given.length ≤ other.length + 1 := by
  obtain ⟨manager,dispatched,turned⟩ := dispatchAll_turned positive small (start_turned T) fds
  rw [Nat.zero_add] at turned
  obtain ⟨turn,taken⟩ := getWorkerIndex_turn positive small turned.index
  have less : manager.m_index.toNat < T.toInt.toNat := by
    rw [turned.index]
    exact Nat.mod_lt _ (by omega)
  refine ⟨manager,dispatched,less,by omega,⟨turn,taken,?_⟩,turned.threads,?_⟩
  · exact dispatchFd_turn positive turned taken
  · intro given left other right
    exact turned.close left right

theorem roundRobin_fair_four :
    ∃ manager, dispatchAll (start 4) [5,6,7,8,9,10] = some manager ∧
      manager.m_index.toNat < (4 : Int32).toInt.toNat ∧ manager.m_index.toNat + 1 < 2^32 ∧
      (∃ turn, Turn 4 6 manager.m_index turn ∧ ∀ fd, dispatchFd manager fd =
        some {manager with m_index := turn,m_workers := manager.m_workers.modify turn.toNat (· ++ [fd])}) ∧
      manager.m_workers.length = (4 : Int32).toInt.toNat ∧
      ∀ given ∈ manager.m_workers, ∀ other ∈ manager.m_workers, given.length ≤ other.length + 1 :=
  roundRobin_fair (T:=4) (by decide) (by decide) [5,6,7,8,9,10]

end RemoteDict.RoundRobin
