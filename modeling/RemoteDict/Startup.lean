import Mathlib.Logic.Function.Basic
import RemoteDict.Foundation.Machine
import RemoteDict.BloomFilter

namespace RemoteDict.Startup
open Foundation MembershipFilter

variable {F : Type} [MembershipFilter F] {ι : Type} [DecidableEq ι]

-- TcpServer::start. The thread that runs it does not take m_mtx.
inductive Main where
  | fresh
  | workers
  | listening
  | flagged
  | ready
  deriving DecidableEq, Repr

def Main.serving : Main → Bool
  | .fresh | .workers => false
  | .listening | .flagged | .ready => true

-- Where a worker stands in set; it holds m_mtx while it is storing.
inductive Local where
  | idle
  | tested (key val : Str)
  | storing (key val : Str)
  deriving DecidableEq, Repr

-- `inserted` records the keys that went into the filter since it was built.
structure State (ι : Type) (F : Type) where
  main : Main
  dictionary : Dictionary F
  m_mtx : Option ι
  threads : ι → Local
  inserted : List Str
  fault : Option Fault

inductive Move (ι : Type) where
  | initWorkers
  | startListener
  | setFlag
  | buildFilter
  | test (i : ι) (key val : Str)
  | lock (i : ι)
  | store (i : ι)
  | get (i : ι) (key : Str)

-- The two halves of set's critical section. The flag and the filter change
-- without the lock, so a step of start can come between them.
def insertFilter (d : Dictionary F) (key : Str) : Except Fault (Dictionary F) :=
  if d.m_bloomFilterEnabled then
    match d.m_bloomFilter with
    | none => .error .nullFilter
    | some filter => .ok {d with m_bloomFilter := some (insert filter key)}
  else .ok d

def storeEntry (d : Dictionary F) (key val : Str) : Dictionary F := {d with m_dict := d.m_dict.insert key val}

def record (d : Dictionary F) (inserted : List Str) (key : Str) : List Str :=
  if d.m_bloomFilterEnabled then inserted ++ [key] else inserted

def initial (ι F : Type) [MembershipFilter F] : State ι F := ⟨.fresh,.new,none,fun _ => .idle,[],none⟩

def act (s : State ι F) : Move ι → Option (State ι F)
  | .initWorkers => if s.main = .fresh then some {s with main := .workers} else none
  | .startListener => if s.main = .workers then some {s with main := .listening} else none
  | .setFlag =>
    if s.main = .listening then
      some {s with main := .flagged,dictionary := {s.dictionary with m_bloomFilterEnabled := true}}
    else none
  | .buildFilter =>
    if s.main = .flagged then
      some {s with main := .ready,dictionary := s.dictionary.initBloomFilters,inserted := []}
    else none
  | .test i key val =>
    if s.main.serving ∧ s.threads i = .idle then
      some (if s.dictionary.full then s else {s with threads := Function.update s.threads i (.tested key val)})
    else none
  | .lock i =>
    match s.threads i with
    | .tested key val =>
      if s.m_mtx = none then
        match insertFilter s.dictionary key with
        | .error fault => some {s with fault := some fault}
        | .ok dictionary => some {s with
            dictionary := dictionary,m_mtx := some i,inserted := record s.dictionary s.inserted key
            threads := Function.update s.threads i (.storing key val)}
      else none
    | _ => none
  | .store i =>
    match s.threads i with
    | .storing key val => some {s with
        dictionary := storeEntry s.dictionary key val,m_mtx := none,threads := Function.update s.threads i .idle}
    | _ => none
  | .get i key =>
    if s.main.serving ∧ s.threads i = .idle ∧ s.m_mtx = none then
      match s.dictionary.get key [] with
      | .error fault => some {s with fault := some fault}
      | .ok _ => some s
    else none

-- With the bloom filter asked for on the command line.
def server (ι F : Type) [MembershipFilter F] [DecidableEq ι] : Machine (State ι F) (Move ι) where
  start := initial ι F
  step s move := if s.fault = none then act s move else none

theorem insertFilter_exact {d next : Dictionary F} : insertFilter d key = .ok next ↔
    (d.m_bloomFilterEnabled = false ∧ next = d) ∨
    ∃ filter, d.m_bloomFilterEnabled = true ∧ d.m_bloomFilter = some filter ∧
      next = {d with m_bloomFilter := some (insert filter key)} := by
  unfold insertFilter
  cases d.m_bloomFilterEnabled with
  | false => simp [eq_comm]
  | true => cases d.m_bloomFilter <;> simp [eq_comm]

theorem setLocked_halves (d : Dictionary F) (key val : Str) :
    d.setLocked key val = (insertFilter d key).map fun next => storeEntry next key val := by
  unfold Dictionary.setLocked insertFilter storeEntry
  cases enabled : d.m_bloomFilterEnabled with
  | false => simp [Except.map,enabled]
  | true => cases d.m_bloomFilter <;> simp [Except.map]

section
variable {s next : State ι F}

theorem act_initWorkers : act s .initWorkers = some next ↔ s.main = .fresh ∧ next = {s with main := .workers} := by
  simp [act,eq_comm]

theorem act_startListener : act s .startListener = some next ↔ s.main = .workers ∧ next = {s with main := .listening} := by
  simp [act,eq_comm]

theorem act_setFlag : act s .setFlag = some next ↔ s.main = .listening ∧
    next = {s with main := .flagged,dictionary := {s.dictionary with m_bloomFilterEnabled := true}} := by
  simp [act,eq_comm]

theorem act_buildFilter : act s .buildFilter = some next ↔ s.main = .flagged ∧
    next = {s with main := .ready,dictionary := s.dictionary.initBloomFilters,inserted := []} := by
  simp [act,eq_comm]

theorem act_test (acted : act s (.test i key val) = some next) : ∃ threads, next = {s with threads := threads} := by
  simp only [act] at acted
  split at acted
  · cases acted
    split
    · exact ⟨s.threads,rfl⟩
    · exact ⟨_,rfl⟩
  · cases acted

theorem act_lock (acted : act s (.lock i) = some next) : (∃ fault, next = {s with fault := some fault}) ∨
    ∃ key val dictionary, s.threads i = .tested key val ∧ insertFilter s.dictionary key = .ok dictionary ∧
      next = {s with
        dictionary := dictionary,m_mtx := some i,inserted := record s.dictionary s.inserted key
        threads := Function.update s.threads i (.storing key val)} := by
  simp only [act] at acted
  split at acted
  · rename_i key val tested
    split at acted
    · split at acted
      · rename_i fault _
        cases acted
        exact .inl ⟨fault,rfl⟩
      · rename_i dictionary inserted
        cases acted
        exact .inr ⟨key,val,dictionary,tested,inserted,rfl⟩
    · cases acted
  · cases acted

theorem act_store : act s (.store i) = some next ↔ ∃ key val, s.threads i = .storing key val ∧
    next = {s with
      dictionary := storeEntry s.dictionary key val,m_mtx := none,threads := Function.update s.threads i .idle} := by
  simp only [act]
  split
  · rename_i key val storing
    simp [storing,eq_comm]
  · rename_i other
    constructor
    · intro refused
      cases refused
    · rintro ⟨key,val,storing,_⟩
      exact absurd storing (other key val)

theorem act_get (acted : act s (.get i key) = some next) : next = s ∨ ∃ fault, next = {s with fault := some fault} := by
  simp only [act] at acted
  split at acted
  · split at acted
    · rename_i fault _
      cases acted
      exact .inr ⟨fault,rfl⟩
    · cases acted
      exact .inl rfl
  · cases acted

def Stage (s : State ι F) : Prop :=
  match s.main with
  | .fresh | .workers | .listening => s.dictionary.m_bloomFilterEnabled = false ∧ s.dictionary.m_bloomFilter = none
  | .flagged => s.dictionary.m_bloomFilterEnabled = true ∧ s.dictionary.m_bloomFilter = none
  | .ready => s.dictionary.m_bloomFilterEnabled = true ∧ s.dictionary.m_bloomFilter = some (filterOf s.inserted)

omit [DecidableEq ι] in
theorem stage_ready (stage : Stage s) (on : s.dictionary.m_bloomFilterEnabled = true)
    (built : s.dictionary.m_bloomFilter = some filter) : s.main = .ready ∧ filter = filterOf s.inserted := by
  cases main : s.main with
  | ready =>
    simp only [Stage,main,built] at stage
    exact ⟨rfl,Option.some.inj stage.2⟩
  | flagged =>
    simp only [Stage,main,built] at stage
    cases stage.2
  | fresh | workers | listening =>
    simp only [Stage,main,on] at stage
    cases stage.1

theorem lock_stage (stage : Stage s) (inserted : insertFilter s.dictionary key = .ok dictionary) :
    Stage {s with
      dictionary := dictionary,m_mtx := some i,inserted := record s.dictionary s.inserted key
      threads := Function.update s.threads i (.storing key val)} := by
  rcases insertFilter_exact.mp inserted with ⟨off,rfl⟩ | ⟨filter,on,built,rfl⟩
  · have same : record s.dictionary s.inserted key = s.inserted := by simp [record,off]
    simpa only [Stage,same] using stage
  · obtain ⟨main,rfl⟩ := stage_ready stage on built
    simp only [Stage,main]
    refine ⟨on,congrArg some ?_⟩
    rw [record,if_pos on,filterOf_append]

theorem act_stage (stage : Stage s) (acted : act s move = some next) : Stage next := by
  cases move with
  | initWorkers =>
    obtain ⟨fresh,rfl⟩ := act_initWorkers.mp acted
    simpa only [Stage,fresh] using stage
  | startListener =>
    obtain ⟨workers,rfl⟩ := act_startListener.mp acted
    simpa only [Stage,workers] using stage
  | setFlag =>
    obtain ⟨listening,rfl⟩ := act_setFlag.mp acted
    simp only [Stage,listening] at stage
    exact ⟨rfl,stage.2⟩
  | buildFilter =>
    obtain ⟨flagged,rfl⟩ := act_buildFilter.mp acted
    simp only [Stage,flagged] at stage
    exact ⟨stage.1,rfl⟩
  | test i key val =>
    obtain ⟨threads,rfl⟩ := act_test acted
    exact stage
  | lock i =>
    rcases act_lock acted with ⟨fault,rfl⟩ | ⟨key,val,dictionary,_,inserted,rfl⟩
    · exact stage
    · exact lock_stage stage inserted
  | store i =>
    obtain ⟨key,val,_,rfl⟩ := act_store.mp acted
    exact stage
  | get i key =>
    rcases act_get acted with rfl | ⟨fault,rfl⟩
    · exact stage
    · exact stage

def Covers (s : State ι F) : Prop := s.dictionary.m_bloomFilterEnabled = true →
  s.dictionary.m_bloomFilter.isSome ∧ ∀ key ∈ s.dictionary.m_dict, key ∈ s.inserted

def FilteredOut (d : Dictionary F) (key : Str) : Prop :=
  d.m_bloomFilterEnabled = true ∧ ∃ filter, d.m_bloomFilter = some filter ∧ contains filter key = false

theorem server_stage (reached : (server ι F).Reached s) : Stage s := by
  refine (server ι F).invariant (show Stage (initial ι F) from ⟨rfl,rfl⟩) ?_ reached
  intro s move next stage stepped
  simp only [server] at stepped
  split at stepped
  · exact act_stage stage stepped
  · cases stepped

theorem server_act (stepped : (server ι F).step s move = some next) : act s move = some next := by
  simp only [server] at stepped
  split at stepped
  · exact stepped
  · cases stepped

omit [DecidableEq ι] in
theorem covered_asked (sound : NoFalseNegatives F) (stage : Stage s) (covers : Covers s)
    (held : key ∈ s.dictionary.m_dict) : ¬ FilteredOut s.dictionary key := by
  rintro ⟨on,filter,built,absent⟩
  obtain ⟨_,rfl⟩ := stage_ready stage on built
  rw [sound s.inserted key ((covers on).2 key held)] at absent
  cases absent

theorem flag_uncovers (stage : Stage s) (acted : act s .setFlag = some next) : ¬ Covers next := by
  obtain ⟨listening,rfl⟩ := act_setFlag.mp acted
  simp only [Stage,listening] at stage
  intro covers
  have built := (covers rfl).1
  rw [stage.2] at built
  cases built

def Unflagged (s : State ι F) : Prop := s.main ≠ .flagged ∧ s.main ≠ .ready

omit [DecidableEq ι] in
theorem unflagged_covers (stage : Stage s) (unflagged : Unflagged s) : Covers s := by
  intro on
  obtain ⟨flagged,ready⟩ := unflagged
  cases main : s.main with
  | flagged => exact absurd main flagged
  | ready => exact absurd main ready
  | fresh | workers | listening =>
    simp only [Stage,main,on] at stage
    cases stage.1

theorem act_unflagged (unflagged : Unflagged s) (other : move ≠ .setFlag) (acted : act s move = some next) :
    Unflagged next := by
  cases move with
  | initWorkers =>
    obtain ⟨_,rfl⟩ := act_initWorkers.mp acted
    exact ⟨nofun,nofun⟩
  | startListener =>
    obtain ⟨_,rfl⟩ := act_startListener.mp acted
    exact ⟨nofun,nofun⟩
  | setFlag => exact absurd rfl other
  | buildFilter => exact absurd (act_buildFilter.mp acted).1 unflagged.1
  | test i key val =>
    obtain ⟨threads,rfl⟩ := act_test acted
    exact unflagged
  | lock i => rcases act_lock acted with ⟨fault,rfl⟩ | ⟨key,val,dictionary,_,_,rfl⟩ <;> exact unflagged
  | store i =>
    obtain ⟨key,val,_,rfl⟩ := act_store.mp acted
    exact unflagged
  | get i key => rcases act_get acted with rfl | ⟨fault,rfl⟩ <;> exact unflagged

def Inserted (s : State ι F) (move : Move ι) : Prop :=
  ∀ i key val, move = .store i → s.threads i = .storing key val → key ∈ s.inserted

-- From the build on no step is left to start, and only stores can uncover.
theorem act_ready (ready : s.main = .ready) (stage : Stage s) (covers : Covers s) (acted : act s move = some next) :
    next.main = .ready ∧ (Covers next ↔ Inserted s move) := by
  have on : s.dictionary.m_bloomFilterEnabled = true := by
    simp only [Stage,ready] at stage
    exact stage.1
  cases move with
  | initWorkers | startListener | setFlag | buildFilter => simp [act,ready] at acted
  | test i key val =>
    obtain ⟨threads,rfl⟩ := act_test acted
    exact ⟨ready,iff_of_true covers (by simp [Inserted])⟩
  | lock i =>
    rcases act_lock acted with ⟨fault,rfl⟩ | ⟨key,val,dictionary,_,inserted,rfl⟩
    · exact ⟨ready,iff_of_true covers (by simp [Inserted])⟩
    · refine ⟨ready,iff_of_true ?_ (by simp [Inserted])⟩
      rcases insertFilter_exact.mp inserted with ⟨off,_⟩ | ⟨filter,_,built,rfl⟩
      · rw [on] at off
        cases off
      · intro _
        refine ⟨rfl,fun other held => ?_⟩
        rw [record,if_pos on]
        exact List.mem_append_left _ ((covers on).2 other held)
  | store i =>
    obtain ⟨key,val,storing,rfl⟩ := act_store.mp acted
    refine ⟨ready,?_,?_⟩
    · rintro later j other value ⟨rfl⟩ here
      rw [storing] at here
      cases here
      exact (later on).2 key ((AList.mem_insert _).mpr (.inl rfl))
    · intro inserted _
      refine ⟨(covers on).1,fun other held => ?_⟩
      rcases (AList.mem_insert _).mp held with rfl | old
      · exact inserted i other val rfl storing
      · exact (covers on).2 other old
  | get i key => rcases act_get acted with rfl | ⟨fault,rfl⟩ <;> exact ⟨ready,iff_of_true covers (by simp [Inserted])⟩

def Covered (s : State ι F) : Prop := Covers s ∧ ∀ key ∈ s.dictionary.m_dict, ¬ FilteredOut s.dictionary key

theorem covered_exact (sound : NoFalseNegatives F) (reached : (server ι F).Reached s) : Covered s ↔ Covers s :=
  ⟨fun covered => covered.1,fun covers => ⟨covers,fun _ held => covered_asked sound (server_stage reached) covers held⟩⟩

theorem run_covered (sound : NoFalseNegatives F) (path : (server ι F).Runs (server ι F).start moves last) :
    (∀ t, (server ι F).Visits (server ι F).start moves t → Covered t) ↔
      ∀ t move, (server ι F).Takes (server ι F).start moves t move → move ≠ .setFlag := by
  constructor
  · rintro covered t move taken rfl
    obtain ⟨after,stepped,seen⟩ := (server ι F).takes_step path taken
    have before : (server ι F).Reached t := by
      obtain ⟨earlier,_,_,reached⟩ := taken
      exact (server ι F).reached_exact.mpr ⟨earlier,reached⟩
    exact flag_uncovers (server_stage before) (server_act stepped) (covered after seen).1
  · intro others t seen
    have reached := (server ι F).visits_reached .start seen
    have kept : ∀ (s : State ι F) move next, Unflagged s → move ≠ .setFlag → (server ι F).step s move = some next →
        Unflagged next := fun s move next unflagged other stepped => act_unflagged unflagged other (server_act stepped)
    have first : Unflagged (initial ι F) := ⟨by simp [initial],by simp [initial]⟩
    have unflagged := (server ι F).throughout kept first path others t seen
    exact (covered_exact sound reached).mpr (unflagged_covers (server_stage reached) unflagged)

theorem build_covers {before built : State ι F} (stage : Stage before) (acted : act before .buildFilter = some built) :
    built.main = .ready ∧ (Covers built ↔ ∀ key, key ∉ built.dictionary.m_dict) := by
  obtain ⟨flagged,rfl⟩ := act_buildFilter.mp acted
  simp only [Stage,flagged] at stage
  refine ⟨rfl,?_,fun none _ => ⟨rfl,fun key held => absurd held (none key)⟩⟩
  intro covers key held
  cases (covers stage.1).2 key held

theorem built_covered (sound : NoFalseNegatives F) (reached : (server ι F).Reached before)
    (stepped : (server ι F).step before .buildFilter = some built) (path : (server ι F).Runs built moves last) :
    (∀ t, (server ι F).Visits built moves t → Covered t) ↔
      (∀ key, key ∉ built.dictionary.m_dict) ∧ ∀ t move, (server ι F).Takes built moves t move → Inserted t move := by
  have here : (server ι F).Reached built := .step reached stepped
  obtain ⟨ready,empty⟩ := build_covers (server_stage reached) (server_act stepped)
  have asked : ∀ t, (server ι F).Visits built moves t → (Covered t ↔ Covers t) :=
    fun t seen => covered_exact sound ((server ι F).visits_reached here seen)
  have kept : ∀ (s : State ι F) move next, ((server ι F).Reached s ∧ s.main = .ready) → Covers s →
      (server ι F).step s move = some next → (server ι F).Reached next ∧ next.main = .ready :=
    fun s move next ⟨reached,ready⟩ covers stepped =>
      ⟨.step reached stepped,(act_ready ready (server_stage reached) covers (server_act stepped)).1⟩
  have exact : ∀ (s : State ι F) move next, ((server ι F).Reached s ∧ s.main = .ready) → Covers s →
      (server ι F).step s move = some next → (Covers next ↔ Inserted s move) :=
    fun s move next ⟨reached,ready⟩ covers stepped =>
      (act_ready ready (server_stage reached) covers (server_act stepped)).2
  constructor
  · intro covered
    have covers := fun t seen => (asked t seen).mp (covered t seen)
    have first := covers built (server ι F).visits_first
    exact ⟨empty.mp first,((server ι F).throughout_exact kept exact ⟨here,ready⟩ first path).mp covers⟩
  · rintro ⟨none,inserted⟩ t seen
    have covers := ((server ι F).throughout_exact kept exact ⟨here,ready⟩ (empty.mpr none) path).mpr inserted
    exact (asked t seen).mpr (covers t seen)

theorem coverage_exact (sound : NoFalseNegatives F) :
    (∀ moves last, (server ι F).Runs (server ι F).start moves last →
      ((∀ t, (server ι F).Visits (server ι F).start moves t → Covered t) ↔
        ∀ t move, (server ι F).Takes (server ι F).start moves t move → move ≠ .setFlag)) ∧
    ∀ before built moves last, (server ι F).Reached before → (server ι F).step before .buildFilter = some built →
      (server ι F).Runs built moves last →
      ((∀ t, (server ι F).Visits built moves t → Covered t) ↔
        (∀ key, key ∉ built.dictionary.m_dict) ∧ ∀ t move, (server ι F).Takes built moves t move → Inserted t move) :=
  ⟨fun _ _ path => run_covered sound path,fun _ _ _ _ reached stepped path => built_covered sound reached stepped path⟩

end

abbrev twoWorkers := server Bool (BloomFilter BloomFilter.small)

theorem coverage_exact_small :
    (∀ moves last, twoWorkers.Runs twoWorkers.start moves last →
      ((∀ t, twoWorkers.Visits twoWorkers.start moves t → Covered t) ↔
        ∀ t move, twoWorkers.Takes twoWorkers.start moves t move → move ≠ .setFlag)) ∧
    ∀ before built moves last, twoWorkers.Reached before → twoWorkers.step before .buildFilter = some built →
      twoWorkers.Runs built moves last →
      ((∀ t, twoWorkers.Visits built moves t → Covered t) ↔
        (∀ key, key ∉ built.dictionary.m_dict) ∧ ∀ t move, twoWorkers.Takes built moves t move → Inserted t move) :=
  coverage_exact (BloomFilter.noFalseNegatives _)

-- SET k v is served between the start of the listener and the filter's set-up.
def early : List (Move Bool) :=
  [.initWorkers,.startListener,.test true (text "k") (text "v"),.lock true,.store true,.setFlag,.buildFilter]

theorem early_set_filtered_out :
    (twoWorkers.run twoWorkers.start early).map
      (fun s => (s.dictionary.m_bloomFilterEnabled,s.dictionary.m_dict.lookup (text "k"),s.inserted)) =
        some (true,some (text "v"),[]) ∧
    (twoWorkers.run twoWorkers.start early).map (fun s => s.dictionary.get (text "k") []) =
      some (.ok (false,NOT_FOUND)) := by decide

end RemoteDict.Startup
