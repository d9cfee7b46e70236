import RemoteDict.Foundation.Table
import RemoteDict.Messagebody

namespace RemoteDict
open Foundation

-- What Dictionary uses of a bloom filter. Keys that were not inserted may be
-- reported either way.
class MembershipFilter (F : Type) where
  make : F
  insert : F → Str → F
  contains : F → Str → Bool

open MembershipFilter

def filterOf [MembershipFilter F] (keys : List Str) : F := keys.foldl insert make

def NoFalseNegatives (F : Type) [MembershipFilter F] : Prop :=
  ∀ (keys : List Str) (key : Str), key ∈ keys → contains (filterOf keys : F) key = true

theorem filterOf_append [MembershipFilter F] (keys : List Str) (key : Str) :
    (filterOf (keys ++ [key]) : F) = MembershipFilter.insert (filterOf keys) key := by
  rw [filterOf,List.foldl_append]
  rfl

def MAX_DICT_SIZE : Nat := 1000000
def NOT_FOUND : Str := text "NOT_FOUND"

structure Dictionary (F : Type) where
  m_bloomFilterEnabled : Bool
  m_dict : AList fun _ : Str => Str
  m_bloomFilter : Option F

namespace Dictionary
variable {F : Type} [MembershipFilter F]

def new : Dictionary F := ⟨false,∅,none⟩

def size (d : Dictionary F) : Nat := Table.size d.m_dict

def initBloomFilters (d : Dictionary F) : Dictionary F := {d with m_bloomFilter := some make}

def enableBloomFilter (d : Dictionary F) (enable : Bool) : Dictionary F :=
  let d := {d with m_bloomFilterEnabled := enable}
  if d.m_bloomFilterEnabled then d.initBloomFilters else d

-- set is the size test, before the lock, and then the critical section.
def full (d : Dictionary F) : Bool := decide (MAX_DICT_SIZE ≤ d.size)

def setLocked (d : Dictionary F) (key val : Str) : Except Fault (Dictionary F) :=
  if d.m_bloomFilterEnabled then
    match d.m_bloomFilter with
    | none => .error .nullFilter
    | some filter =>
      .ok {d with m_bloomFilter := some (insert filter key),m_dict := d.m_dict.insert key val}
  else .ok {d with m_dict := d.m_dict.insert key val}

def set (d : Dictionary F) (key val : Str) : Except Fault (Dictionary F × Bool) :=
  if d.full then .ok (d,false)
  else (d.setLocked key val).map fun next => (next,true)

-- `val` is the out parameter as the caller left it. With the filter enabled
-- `ret = false` stands after the look-up and not in an else of it.
def get (d : Dictionary F) (key val : Str) : Except Fault (Bool × Str) :=
  if d.m_bloomFilterEnabled then
    match d.m_bloomFilter with
    | none => .error .nullFilter
    | some filter =>
      if contains filter key then
        match d.m_dict.lookup key with
        | some found => .ok (false,found)
        | none => .ok (false,val)
      else .ok (false,NOT_FOUND)
  else
    match d.m_dict.lookup key with
    | some found => .ok (true,found)
    | none => .ok (false,NOT_FOUND)

theorem get_disabled (d : Dictionary F) (off : d.m_bloomFilterEnabled = false) :
    d.get key val = .ok ((d.m_dict.lookup key).isSome,(d.m_dict.lookup key).getD NOT_FOUND) := by
  unfold get
  rw [off]
  cases d.m_dict.lookup key <;> rfl

theorem get_enabled (d : Dictionary F) (on : d.m_bloomFilterEnabled = true) (built : d.m_bloomFilter = some filter) :
    d.get key val = .ok (false,if contains filter key then (d.m_dict.lookup key).getD val else NOT_FOUND) := by
  unfold get
  rw [on,built]
  cases d.m_dict.lookup key <;> cases held : contains filter key <;> simp [held]

theorem setLocked_ok (d : Dictionary F) : d.setLocked key val = .ok next ↔
    (d.m_bloomFilterEnabled = false ∧ next = {d with m_dict := d.m_dict.insert key val}) ∨
    ∃ filter, d.m_bloomFilterEnabled = true ∧ d.m_bloomFilter = some filter ∧
      next = {d with m_bloomFilter := some (insert filter key),m_dict := d.m_dict.insert key val} := by
  unfold setLocked
  cases d.m_bloomFilterEnabled with
  | false => simp [eq_comm]
  | true => cases d.m_bloomFilter <;> simp [eq_comm]

theorem setLocked_disabled {d : Dictionary F} (off : d.m_bloomFilterEnabled = false) (key val : Str) :
    d.setLocked key val = .ok {d with m_dict := d.m_dict.insert key val} := (setLocked_ok d).mpr (.inl ⟨off,rfl⟩)

theorem setLocked_enabled {d : Dictionary F} (on : d.m_bloomFilterEnabled = true) (built : d.m_bloomFilter = some filter)
    (key val : Str) : d.setLocked key val =
      .ok {d with m_bloomFilter := some (insert filter key),m_dict := d.m_dict.insert key val} :=
  (setLocked_ok d).mpr (.inr ⟨filter,on,built,rfl⟩)

theorem setLocked_dict {d next : Dictionary F} (stored : d.setLocked key val = .ok next) :
    next.m_dict = d.m_dict.insert key val := by
  rcases (setLocked_ok d).mp stored with ⟨_,rfl⟩ | ⟨_,_,_,rfl⟩ <;> rfl

theorem setLocked_size {d next : Dictionary F} (stored : d.setLocked key val = .ok next) :
    next.size = if key ∈ d.m_dict then d.size else d.size + 1 := by
  rw [size,setLocked_dict stored]
  split
  · rename_i held; exact Table.size_insert_held _ held
  · rename_i fresh; exact Table.size_insert_fresh _ fresh

-- The filter is there whenever it is asked for, and then nothing faults.
def Built (d : Dictionary F) : Prop := d.m_bloomFilterEnabled = true → d.m_bloomFilter.isSome

theorem built_start (enable : Bool) : (new.enableBloomFilter enable : Dictionary F).Built := by
  cases enable with
  | false => intro on; cases on
  | true => intro _; rfl

theorem setLocked_built {d : Dictionary F} (built : d.Built) (key val : Str) :
    ∃ next, d.setLocked key val = .ok next ∧ next.Built := by
  cases on : d.m_bloomFilterEnabled with
  | false => exact ⟨_,setLocked_disabled on key val,built⟩
  | true =>
    obtain ⟨filter,held⟩ := Option.isSome_iff_exists.mp (built on)
    exact ⟨_,setLocked_enabled on held key val,fun _ => rfl⟩

theorem get_built {d : Dictionary F} (built : d.Built) (key val : Str) : ∃ answer, d.get key val = .ok answer := by
  cases on : d.m_bloomFilterEnabled with
  | false => exact ⟨_,d.get_disabled on⟩
  | true =>
    obtain ⟨filter,held⟩ := Option.isSome_iff_exists.mp (built on)
    exact ⟨_,d.get_enabled on held⟩

omit [MembershipFilter F] in
theorem unbuilt {d : Dictionary F} (unbuilt : ¬d.Built) : d.m_bloomFilterEnabled = true ∧ d.m_bloomFilter = none := by
  unfold Built at unbuilt
  push Not at unbuilt
  exact ⟨unbuilt.1,Option.not_isSome_iff_eq_none.mp unbuilt.2⟩

theorem get_exact (d : Dictionary F) (key val : Str) : (∃ answer, d.get key val = .ok answer) ↔ d.Built := by
  refine ⟨fun ⟨answer,found⟩ => ?_,fun built => get_built built key val⟩
  by_contra missing
  obtain ⟨on,none⟩ := unbuilt missing
  rw [get,if_pos on,none] at found
  cases found

theorem setLocked_exact (d : Dictionary F) (key val : Str) : (∃ next, d.setLocked key val = .ok next) ↔ d.Built := by
  refine ⟨fun ⟨next,stored⟩ => ?_,fun built => ?_⟩
  · by_contra missing
    obtain ⟨on,none⟩ := unbuilt missing
    rw [setLocked,if_pos on,none] at stored
    cases stored
  · obtain ⟨next,stored,_⟩ := setLocked_built built key val
    exact ⟨next,stored⟩

theorem get_fault {d : Dictionary F} (failed : d.get key val = .error fault) : fault = .nullFilter := by
  cases on : d.m_bloomFilterEnabled with
  | false =>
    rw [d.get_disabled on] at failed
    cases failed
  | true =>
    cases held : d.m_bloomFilter with
    | none =>
      rw [get,on,held] at failed
      cases failed
      rfl
    | some filter =>
      rw [d.get_enabled on held] at failed
      cases failed

theorem setLocked_fault {d : Dictionary F} (failed : d.setLocked key val = .error fault) : fault = .nullFilter := by
  unfold setLocked at failed
  split at failed
  · split at failed <;> cases failed
    rfl
  · cases failed

theorem set_ok {d next : Dictionary F} : d.set key val = .ok (next,done) ↔
    (d.full = true ∧ next = d ∧ done = false) ∨ d.full = false ∧ d.setLocked key val = .ok next ∧ done = true := by
  unfold set
  cases room : d.full with
  | true => simp [eq_comm]
  | false => cases d.setLocked key val <;> simp [Except.map,eq_comm]

theorem set_fault {d : Dictionary F} (failed : d.set key val = .error fault) : fault = .nullFilter := by
  unfold set at failed
  split at failed
  · cases failed
  · cases stored : d.setLocked key val with
    | error fault =>
      rw [stored] at failed
      cases failed
      exact setLocked_fault stored
    | ok next =>
      rw [stored] at failed
      cases failed

theorem set_full {d : Dictionary F} (limit : d.full = true) : d.set key val = .ok (d,false) :=
  set_ok.mpr (.inl ⟨limit,rfl,rfl⟩)

theorem set_open {d next : Dictionary F} (room : d.full = false) (stored : d.setLocked key val = .ok next) :
    d.set key val = .ok (next,true) := set_ok.mpr (.inr ⟨room,stored,rfl⟩)

end Dictionary

-- Stats.h; the lock makes each increment one step.
structure Stats where
  m_numGetReq : UInt64 := 0
  m_numGetReqSucc : UInt64 := 0
  m_numGetReqFail : UInt64 := 0
  deriving DecidableEq, Repr

namespace Stats

def incrGetReq (s : Stats) : Stats := {s with m_numGetReq := s.m_numGetReq + 1}
def incrGetReqSucc (s : Stats) : Stats := {s with m_numGetReqSucc := s.m_numGetReqSucc + 1}
def incrGetReqFail (s : Stats) : Stats := {s with m_numGetReqFail := s.m_numGetReqFail + 1}

end Stats

structure Shared (F : Type) where
  dictionary : Dictionary F
  stats : Stats

end RemoteDict
