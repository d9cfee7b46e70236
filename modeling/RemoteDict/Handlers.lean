import Mathlib.Logic.Function.Basic
import RemoteDict.Foundation.Machine
import RemoteDict.TcpFlow

namespace RemoteDict.Handlers
open Foundation TcpFlow

-- Where a worker stands in the handler of its request, between two accesses to
-- the objects it shares with the others.
inductive Local where
  | idle
  | ready (type : RequestType) (m : Payload)
  | counted (m : Payload)
  | looked (m : Payload) (ret : Bool) (value : Str)
  | tested (m : Payload)
  | readAll (m : Payload) (all : UInt64)
  | readSucc (m : Payload) (all succ : UInt64)
  | done (m : Payload)
  deriving DecidableEq, Repr

variable {F : Type} [MembershipFilter F] {ι : Type} [DecidableEq ι]

-- The atomic steps of the three handlers: each counter access, get under its
-- lock, and for set the size test and the critical section.
def advance : Local → Shared F → Option (Except Fault (Local × Shared F))
  | .idle,_ => none
  | .ready .GET m,s => some (.ok (.counted m,{s with stats := s.stats.incrGetReq}))
  | .ready .SET m,s => some (.ok (if s.dictionary.full then .done (m.set_reason (text "failed")) else .tested m,s))
  | .ready .STAT m,s => some (.ok (.readAll m s.stats.m_numGetReq,s))
  | .counted m,s => some ((s.dictionary.get m.key []).map fun answer => (.looked m answer.1 answer.2,s))
  | .looked m true value,s => some (.ok (.done (m.set_value value),{s with stats := s.stats.incrGetReqSucc}))
  | .looked m false value,s => some (.ok (.done (m.set_reason value),{s with stats := s.stats.incrGetReqFail}))
  | .tested m,s => some ((s.dictionary.setLocked m.key m.value).map fun d => (.done m,{s with dictionary := d}))
  | .readAll m all,s => some (.ok (.readSucc m all s.stats.m_numGetReqSucc,s))
  | .readSucc m all succ,s => some (.ok (.done (setStats m all succ s.stats.m_numGetReqFail),s))
  | .done _,s => some (.ok (.idle,s))

-- The threads of the server; nothing runs on after a fault.
structure State (ι : Type) (F : Type) where
  shared : Shared F
  threads : ι → Local
  fault : Option Fault

inductive Move (ι : Type) where
  | receive (i : ι) (type : RequestType) (m : Payload)
  | advance (i : ι)

def settle (s : State ι F) (i : ι) : Except Fault (Local × Shared F) → State ι F
  | .error fault => {s with fault := some fault}
  | .ok (here,shared) => {s with shared := shared,threads := Function.update s.threads i here}

def step (s : State ι F) : Move ι → Option (State ι F)
  | .receive i type m =>
    if s.fault = none ∧ s.threads i = .idle then
      some {s with threads := Function.update s.threads i (.ready type m)}
    else none
  | .advance i => if s.fault = none then (advance (s.threads i) s.shared).map (settle s i) else none

-- From the end of TcpServer::start, where enableBloomFilter has returned: the filter
-- is built if it is enabled, and no request has been handled before.
def workers (ι F : Type) [MembershipFilter F] [DecidableEq ι] (enable : Bool) : Machine (State ι F) (Move ι) where
  start := ⟨⟨Dictionary.new.enableBloomFilter enable,{}⟩,fun _ => .idle,none⟩
  step := step

theorem step_receive {s next : State ι F} : step s (.receive i type m) = some next ↔
    s.fault = none ∧ s.threads i = .idle ∧ next = {s with threads := Function.update s.threads i (.ready type m)} := by
  simp only [step]
  split
  · rename_i guard
    simp [guard,eq_comm]
  · rename_i guard
    constructor
    · intro refused
      cases refused
    · rintro ⟨clear,idle,_⟩
      exact absurd ⟨clear,idle⟩ guard

theorem step_advance {s next : State ι F} : step s (.advance i) = some next ↔
    s.fault = none ∧ ∃ result, advance (s.threads i) s.shared = some result ∧ next = settle s i result := by
  simp only [step]
  split
  · rename_i clear
    rw [Option.map_eq_some_iff]
    refine ⟨fun ⟨result,ran,same⟩ => ⟨clear,result,ran,same.symm⟩,fun ⟨_,result,ran,same⟩ => ⟨result,ran,same.symm⟩⟩
  · rename_i faulted
    simp [faulted]

theorem step_moved {s : State ι F} (clear : s.fault = none) (here : s.threads i = place)
    (moved : advance place s.shared = some (.ok (there,shared))) :
    step s (.advance i) = some {s with shared := shared,threads := Function.update s.threads i there} :=
  step_advance.mpr ⟨clear,_,here ▸ moved,rfl⟩

inductive Advances (s : Shared F) : Local → Except Fault (Local × Shared F) → Prop where
  | counts : Advances s (.ready .GET m) (.ok (.counted m,{s with stats := s.stats.incrGetReq}))
  | refuses : s.dictionary.full = true → Advances s (.ready .SET m) (.ok (.done (m.set_reason (text "failed")),s))
  | tests : s.dictionary.full = false → Advances s (.ready .SET m) (.ok (.tested m,s))
  | readsAll : Advances s (.ready .STAT m) (.ok (.readAll m s.stats.m_numGetReq,s))
  | unlooked : s.dictionary.get m.key [] = .error fault → Advances s (.counted m) (.error fault)
  | looks : s.dictionary.get m.key [] = .ok (ret,value) → Advances s (.counted m) (.ok (.looked m ret value,s))
  | finds : Advances s (.looked m true value) (.ok (.done (m.set_value value),{s with stats := s.stats.incrGetReqSucc}))
  | misses : Advances s (.looked m false value) (.ok (.done (m.set_reason value),{s with stats := s.stats.incrGetReqFail}))
  | unstored : s.dictionary.setLocked m.key m.value = .error fault → Advances s (.tested m) (.error fault)
  | stores : s.dictionary.setLocked m.key m.value = .ok dictionary →
      Advances s (.tested m) (.ok (.done m,{s with dictionary := dictionary}))
  | readsSucc : Advances s (.readAll m all) (.ok (.readSucc m all s.stats.m_numGetReqSucc,s))
  | tells : Advances s (.readSucc m all succ) (.ok (.done (setStats m all succ s.stats.m_numGetReqFail),s))
  | leaves : Advances s (.done m) (.ok (.idle,s))

theorem advance_exact {s : Shared F} : advance here s = some result ↔ Advances s here result := by
  constructor
  · intro moved
    cases here with
    | idle => cases moved
    | ready type m =>
      cases type with
      | GET =>
        cases moved
        exact .counts
      | SET =>
        cases room : s.dictionary.full with
        | true =>
          rw [advance,room] at moved
          cases moved
          exact .refuses room
        | false =>
          rw [advance,room] at moved
          cases moved
          exact .tests room
      | STAT =>
        cases moved
        exact .readsAll
    | counted m =>
      cases looked : s.dictionary.get m.key [] with
      | error fault =>
        rw [advance,looked] at moved
        cases moved
        exact .unlooked looked
      | ok answer =>
        rw [advance,looked] at moved
        cases moved
        exact .looks looked
    | looked m ret value =>
      cases ret with
      | true =>
        cases moved
        exact .finds
      | false =>
        cases moved
        exact .misses
    | tested m =>
      cases stored : s.dictionary.setLocked m.key m.value with
      | error fault =>
        rw [advance,stored] at moved
        cases moved
        exact .unstored stored
      | ok dictionary =>
        rw [advance,stored] at moved
        cases moved
        exact .stores stored
    | readAll m all =>
      cases moved
      exact .readsSucc
    | readSucc m all succ =>
      cases moved
      exact .tells
    | done m =>
      cases moved
      exact .leaves
  · intro advances
    cases advances with
    | refuses room | tests room =>
      rw [advance,room]
      rfl
    | unlooked looked | looks looked =>
      rw [advance,looked]
      rfl
    | unstored stored | stores stored =>
      rw [advance,stored]
      rfl
    | counts | readsAll | finds | misses | readsSucc | tells | leaves => rfl

theorem advance_dictionary {s shared : Shared F} (moved : advance here s = some (.ok (there,shared))) :
    (shared.dictionary = s.dictionary ∧ ∀ m, here ≠ .tested m) ∨
    ∃ m, here = .tested m ∧ s.dictionary.setLocked m.key m.value = .ok shared.dictionary := by
  cases advance_exact.mp moved with
  | stores stored => exact .inr ⟨_,rfl,stored⟩
  | counts | refuses | tests | readsAll | looks | finds | misses | readsSucc | tells | leaves => exact .inl ⟨rfl,by simp⟩

def looksUp : Local → Bool
  | .counted _ | .tested _ => true
  | .idle | .ready _ _ | .looked _ _ _ | .readAll _ _ | .readSucc _ _ _ | .done _ => false

theorem advance_ok {s : Shared F} (moved : advance here s = some result) :
    (∃ there shared, result = .ok (there,shared)) ↔ (looksUp here = true → s.dictionary.Built) := by
  have refused : ∀ fault : Fault, ¬∃ there shared, (.error fault : Except Fault (Local × Shared F)) = .ok (there,shared) := by
    rintro fault ⟨_,_,same⟩
    cases same
  cases advance_exact.mp moved with
  | @unlooked fault m looked =>
    refine iff_of_false (refused fault) fun built => ?_
    obtain ⟨answer,found⟩ := (s.dictionary.get_exact m.key []).mpr (built rfl)
    rw [looked] at found
    cases found
  | @unstored fault m stored =>
    refine iff_of_false (refused fault) fun built => ?_
    obtain ⟨dictionary,kept⟩ := (s.dictionary.setLocked_exact m.key m.value).mpr (built rfl)
    rw [stored] at kept
    cases kept
  | looks looked => exact iff_of_true ⟨_,_,rfl⟩ fun _ => (s.dictionary.get_exact _ []).mp ⟨_,looked⟩
  | stores stored => exact iff_of_true ⟨_,_,rfl⟩ fun _ => (s.dictionary.setLocked_exact _ _).mp ⟨_,stored⟩
  | counts | refuses | tests | readsAll | finds | misses | readsSucc | tells | leaves =>
    refine iff_of_true ⟨_,_,rfl⟩ fun up => ?_
    cases up

theorem advance_runs {s : Shared F} (built : s.dictionary.Built) (moved : advance here s = some result) :
    ∃ there shared, result = .ok (there,shared) := (advance_ok moved).mpr fun _ => built

theorem advance_moves {here : Local} (busy : here ≠ .idle) (shared : Shared F) : (advance here shared).isSome = true := by
  cases here with
  | idle => exact absurd rfl busy
  | ready type m => cases type <;> rfl
  | looked m ret value => cases ret <;> rfl
  | counted | tested | readAll | readSucc | done => rfl

def steps : Local → Nat
  | .idle => 0
  | .done _ => 1
  | .looked _ _ _ | .tested _ | .readSucc _ _ _ => 2
  | .counted _ | .readAll _ _ => 3
  | .ready _ _ => 4

theorem steps_most (here : Local) : steps here ≤ 4 := by cases here <;> simp [steps]

theorem steps_advance {shared later : Shared F} (moved : advance here shared = some (.ok (there,later))) :
    steps there + 1 ≤ steps here := by
  cases advance_exact.mp moved with
  | counts | refuses | tests | readsAll | looks | finds | misses | stores | readsSucc | tells | leaves => simp [steps]

theorem step_dictionary {s next : State ι F} (built : s.shared.dictionary.Built) (stepped : step s move = some next) :
    (next.shared.dictionary = s.shared.dictionary ∧ ∀ i m, move = .advance i → s.threads i ≠ .tested m) ∨
    ∃ i m, move = .advance i ∧ s.threads i = .tested m ∧
      s.shared.dictionary.setLocked m.key m.value = .ok next.shared.dictionary := by
  cases move with
  | receive i type m =>
    obtain ⟨_,_,rfl⟩ := step_receive.mp stepped
    exact .inl ⟨rfl,by simp⟩
  | advance i =>
    obtain ⟨_,result,moved,rfl⟩ := step_advance.mp stepped
    obtain ⟨there,shared,rfl⟩ := advance_runs built moved
    rcases advance_dictionary moved with ⟨same,other⟩ | ⟨m,here,stored⟩
    · refine .inl ⟨same,?_⟩
      rintro _ m ⟨rfl⟩
      exact other m
    · exact .inr ⟨i,m,rfl,here,stored⟩

theorem step_built {s next : State ι F} (built : s.shared.dictionary.Built) (stepped : step s move = some next) :
    next.shared.dictionary.Built := by
  rcases step_dictionary built stepped with ⟨same,_⟩ | ⟨i,m,_,_,stored⟩
  · rw [same]
    exact built
  · obtain ⟨dictionary,ran,kept⟩ := Dictionary.setLocked_built built m.key m.value
    rw [stored] at ran
    cases ran
    exact kept

inductive Alone : Local → Shared F → Local → Shared F → Prop where
  | rest : Alone here s here s
  | step : advance here s = some (.ok (there,middle)) → Alone there middle last next → Alone here s last next

theorem alone_run {s : State ι F} (enable : Bool) (clear : s.fault = none) (alone : Alone here before last later)
    (at_ : s.threads i = here) (shared : s.shared = before) :
    ∃ n, (workers ι F enable).run s (List.replicate n (.advance i)) =
      some {s with shared := later,threads := Function.update s.threads i last} := by
  induction alone generalizing s with
  | rest =>
    refine ⟨0,?_⟩
    subst shared
    rw [← at_,Function.update_eq_self]
    rfl
  | @step here before there middle last later moved _ ih =>
    subst shared
    have first := step_moved clear at_ moved
    obtain ⟨n,path⟩ := ih (s:={s with shared := middle,threads := Function.update s.threads i there}) clear
      (Function.update_self _ _ _) rfl
    rw [Function.update_idem] at path
    exact ⟨n+1,((workers ι F enable).run_cons).mpr ⟨_,first,path⟩⟩

-- Uninterrupted, the steps of a handler compute what handle computes.
theorem alone_handle (handled : handle type m s = .ok (response,next)) :
    Alone (F:=F) (.ready type m) s (.done response) next := by
  cases handle_exact.mp handled with
  | found looked => exact .step rfl (.step (advance_exact.mpr (.looks looked)) (.step rfl .rest))
  | missed looked => exact .step rfl (.step (advance_exact.mpr (.looks looked)) (.step rfl .rest))
  | accepted stored =>
    obtain ⟨_,_,refused⟩ | ⟨room,locked,_⟩ := Dictionary.set_ok.mp stored
    · cases refused
    · exact .step (advance_exact.mpr (.tests room)) (.step (advance_exact.mpr (.stores locked)) .rest)
  | refused stored =>
    obtain ⟨full,rfl,_⟩ | ⟨_,_,accepted⟩ := Dictionary.set_ok.mp stored
    · exact .step (advance_exact.mpr (.refuses full)) .rest
    · cases accepted
  | told => exact .step rfl (.step rfl (.step rfl .rest))

end RemoteDict.Handlers
