import RemoteDict.Codec
import RemoteDict.Foundation.Linearization
import RemoteDict.Handlers
import RemoteDict.KeyValue
import RemoteDict.ServiceWorker

namespace RemoteDict.Connections
open Foundation TcpFlow KeyValue
open Foundation.Block (Byte ByteOrder)
open Handlers (Local)
open Linearization (Act Point Linear Linearizable points points_effect points_visible points_thread points_or acts_effect
  acts_visible)
open ServiceWorker (Address processEvent deleteTcpFlow cleanState keep)

-- The workers of the server with the flows of each, and for a worker that is in
-- a handler the flow it answers.
structure State (ι F : Type) where
  handlers : Handlers.State ι F
  workers : ι → ServiceWorker.State
  serving : ι → Option (Address × TcpFlow)

-- A worker's loop takes a connection, calls a flow back or is left; stop() comes
-- from another thread. Handlers run in single steps.
inductive Move (ι : Type) where
  | processEvent (i : ι) (fd : Int) (address : Address)
  | data (i : ι) (address : Address) (reads : List ReadResult)
  | cleanState (i : ι)
  | stop (i : ι)
  | advance (i : ι)

variable {F : Type} [MembershipFilter F] {ι : Type} [DecidableEq ι]

def withWorker (s : State ι F) (i : ι) (worker : ServiceWorker.State) : State ι F :=
  {s with workers := Function.update s.workers i worker}

omit [MembershipFilter F] in
@[simp] theorem withWorker_self (s : State ι F) (i : ι) (worker : ServiceWorker.State) :
    (withWorker s i worker).workers i = worker := Function.update_self ..

def callback (order : ByteOrder) (pb : Protobuf) (s : State ι F) (i : ι) (address : Address) (reads : List ReadResult) :
    Option (State ι F) :=
  match (s.workers i).events.lookup address,(s.workers i).heap address with
  | some fd,some flow =>
    match arrive order pb flow fd reads with
    | .stopped fault => some {s with handlers := {s.handlers with fault := some fault}}
    | .gone addr => some (withWorker s i (deleteTcpFlow (s.workers i) addr))
    | .waiting flow => some (withWorker s i (keep (s.workers i) address (some flow)))
    | .request flow type m =>
      (Handlers.step s.handlers (.receive i type m)).map fun handlers =>
        {s with handlers := handlers,serving := Function.update s.serving i (some (address,flow))}
  | _,_ => none

def advance (s : State ι F) (i : ι) : Option (State ι F) :=
  (Handlers.step s.handlers (.advance i)).map fun handlers =>
    match s.handlers.threads i,s.serving i with
    | .done m,some (address,flow) => {withWorker s i (keep (s.workers i) address (some {flow with m_payload := m})) with
        handlers := handlers,serving := Function.update s.serving i none}
    | _,_ => {s with handlers := handlers}

def inLoop (s : State ι F) (i : ι) : Bool := decide (s.handlers.fault = none ∧ s.handlers.threads i = .idle)

def step (getAddrStr : Address → Str) (order : ByteOrder) (pb : Protobuf) (s : State ι F) : Move ι → Option (State ι F)
  | .processEvent i fd address =>
    if inLoop s i ∧ (s.workers i).heap address = none then
      some (withWorker s i (processEvent getAddrStr (s.workers i) fd address))
    else none
  | .data i address reads => if inLoop s i then callback order pb s i address reads else none
  | .cleanState i => if inLoop s i then some (withWorker s i (cleanState (s.workers i))) else none
  | .stop i => if s.handlers.fault = none then some (withWorker s i {s.workers i with m_processExiting := true}) else none
  | .advance i => advance s i

-- From the end of start too, before the first connection.
def service (ι F : Type) [MembershipFilter F] [DecidableEq ι] (getAddrStr : Address → Str) (order : ByteOrder) (pb : Protobuf)
    (enable : Bool) : Machine (State ι F) (Move ι) where
  start := ⟨(Handlers.workers ι F enable).start,fun _ => ServiceWorker.new,fun _ => none⟩
  step := step getAddrStr order pb

-- What the peers see: the bytes of a request with the connection they came
-- from, and the bytes of an answer with the connection they go to.
abbrev Message := Int × List Byte

def asked (order : ByteOrder) (pb : Protobuf) (s : State ι F) (i : ι) (address : Address) (reads : List ReadResult) :
    Option Message :=
  match (s.workers i).events.lookup address,(s.workers i).heap address with
  | some fd,some flow =>
    match arrive order pb flow fd reads with
    | .request flow _ _ => some (flow.m_clientFd,flow.received)
    | _ => none
  | _,_ => none

def answered (pb : Protobuf) (s : State ι F) (i : ι) : Option Message :=
  match s.handlers.threads i,s.serving i with
  | .done m,some (_,flow) => some (flow.m_clientFd,sendResponse pb m)
  | _,_ => none

def observe (order : ByteOrder) (pb : Protobuf) (s : State ι F) : Move ι → List (Act ι Message Message)
  | .data i address reads => ((asked order pb s i address reads).map (.invoked i)).toList
  | .advance i => ((answered pb s i).map (.returned i)).toList
  | .processEvent _ _ _ | .cleanState _ | .stop _ => []

inductive Means (pb : Protobuf) (enable : Bool) : Message → Call → Reply → Message → Prop where
  | means : (pb.ParseFromArray bytes).2.requesttype_ = some type → Writes enable (pb.ParseFromArray bytes).2 reply response →
      Means pb enable (fd,bytes) (callOf (pb.ParseFromArray bytes).2 type) reply (fd,sendResponse pb response)

-- Where in its handler a request takes effect.
def effect (s : Shared F) : Local → Option (Call × Reply)
  | .ready .SET m => if s.dictionary.full then some (.set m.key m.value,.refused) else none
  | .counted m => some (.get m.key,look s.dictionary m.key)
  | .tested m => some (.set m.key m.value,.stored)
  | .readSucc _ all succ =>
    some (.stat,.counts all.toUInt32.toInt32 succ.toUInt32.toInt32 s.stats.m_numGetReqFail.toUInt32.toInt32)
  | .idle | .ready .GET _ | .ready .STAT _ | .looked _ _ _ | .readAll _ _ | .done _ => none

def note (order : ByteOrder) (pb : Protobuf) (s : State ι F) (move : Move ι) : List (Point ι Message Message Call Reply) :=
  match move with
  | .advance i => points i (effect s.handlers.shared (s.handlers.threads i)) ++ (observe order pb s move).map .act
  | .processEvent _ _ _ | .data _ _ _ | .cleanState _ | .stop _ => (observe order pb s move).map .act

inductive Within (enable : Bool) (m : Payload) : RequestType → Local → Option (Call × Reply) → Prop where
  | ready : Within enable m type (.ready type m) none
  | counted : Within enable m .GET (.counted m) none
  | looked : Looked enable reply ret value → Within enable m .GET (.looked m ret value) (some (.get m.key,reply))
  | tested : Within enable m .SET (.tested m) none
  | readAll : Within enable m .STAT (.readAll m all) none
  | readSucc : Within enable m .STAT (.readSucc m all succ) none
  | done : Writes enable m reply response → Within enable m type (.done response) (some (callOf m type,reply))

def said (i : ι) (flow : TcpFlow) (took : Option (Call × Reply)) : List (Point ι Message Message Call Reply) :=
  .act (.invoked i (flow.m_clientFd,flow.received)) :: points i took

inductive Stands (pb : Protobuf) (enable : Bool) (i : ι) : Local → Option (Address × TcpFlow) →
    List (Point ι Message Message Call Reply) → Prop where
  | idle : Stands pb enable i .idle none []
  | handling : (pb.ParseFromArray flow.received).2.requesttype_ = some type →
      Within enable (pb.ParseFromArray flow.received).2 type here took →
      Stands pb enable i here (some (address,flow)) (said i flow took)

section
variable {enable : Bool} {m : Payload} {type : RequestType} {here there : Local} {s shared : Shared F}
  {took : Option (Call × Reply)}

theorem advance_within (sound : enable = true → NoFalseNegatives F) (holds : Holds enable s.dictionary entries)
    (within : Within enable m type here took) (moved : Handlers.advance here s = some (.ok (there,shared))) :
    (∃ response, here = .done response ∧ there = .idle ∧ shared = s) ∨
    Within enable m type there (took.or (effect s here)) ∧ (took.isSome → effect s here = none) := by
  cases within with
  | ready =>
    cases Handlers.advance_exact.mp moved with
    | counts => exact .inr ⟨.counted,nofun⟩
    | refuses full =>
      simp only [effect,full,if_true]
      exact .inr ⟨.done .refused,nofun⟩
    | tests room =>
      simp only [effect,room]
      exact .inr ⟨.tested,nofun⟩
    | readsAll => exact .inr ⟨.readAll,nofun⟩
  | counted =>
    cases Handlers.advance_exact.mp moved with
    | looks got => exact .inr ⟨.looked (holds.looked sound got),nofun⟩
  | looked looked =>
    have written := looked.writes m
    cases Handlers.advance_exact.mp moved with
    | finds | misses => exact .inr ⟨.done written,fun _ => rfl⟩
  | tested =>
    cases Handlers.advance_exact.mp moved with
    | stores _ => exact .inr ⟨.done .stored,nofun⟩
  | readAll =>
    cases Handlers.advance_exact.mp moved with
    | readsSucc => exact .inr ⟨.readSucc,nofun⟩
  | readSucc =>
    cases Handlers.advance_exact.mp moved with
    | tells => exact .inr ⟨.done .counts,nofun⟩
  | done =>
    cases Handlers.advance_exact.mp moved with
    | leaves => exact .inl ⟨_,rfl,rfl,rfl⟩

theorem advance_holds (holds : Holds enable s.dictionary entries) (moved : Handlers.advance here s = some (.ok (there,shared))) :
    ∃ later, dictionary.run entries (effect s here).toList = some later ∧ Holds enable shared.dictionary later := by
  cases Handlers.advance_exact.mp moved with
  | refuses full =>
    simp only [effect,full,if_true]
    exact ⟨entries,dictionary.run_singleton.trans (dictionary_step.mpr (.refused (holds.full.mp full))),holds⟩
  | tests room =>
    simp only [effect,room]
    exact ⟨entries,rfl,holds⟩
  | looks _ => exact ⟨entries,dictionary.run_singleton.trans (dictionary_step.mpr (holds.looks _)),holds⟩
  | stores stored => exact ⟨_,dictionary.run_singleton.trans (dictionary_step.mpr .stored),holds.stores stored⟩
  | tells => exact ⟨entries,dictionary.run_singleton.trans (dictionary_step.mpr .counts),holds⟩
  | counts | readsAll | finds | misses | readsSucc | leaves => exact ⟨entries,rfl,holds⟩

end

variable {getAddrStr : Address → Str} {order : ByteOrder} {pb : Protobuf} {enable : Bool} {s next : State ι F}

omit [MembershipFilter F] [DecidableEq ι] in
theorem note_visible (s : State ι F) (move : Move ι) :
    (note order pb s move).filterMap Point.visible = observe order pb s move := by
  cases move with
  | advance i => rw [note,List.filterMap_append,points_visible,acts_visible,List.nil_append]
  | _ => exact acts_visible _

-- A callback that nothing interrupts, from what it finds on arrival.
inductive Completes (pb : Protobuf) (s : Shared F) : Arrival → Outcome F → Prop where
  | stopped : Completes pb s (.stopped fault) ⟨none,s,[.fault fault]⟩
  | gone : (∀ event ∈ before, quiet event) → Completes pb s (.gone addr) ⟨none,s,before ++ [.delete addr]⟩
  | waiting : Completes pb s (.waiting flow) ⟨some flow,s,[]⟩
  | answered : handle type m s = .ok (response,later) → Completes pb s (.request flow type m)
      ⟨some {flow with m_payload := response},later,[.parse flow.received,.handle type,.respond (sendResponse pb response)]⟩
  | failed : handle type m s = .error fault → Completes pb s (.request flow type m)
      ⟨none,s,[.parse flow.received,.handle type,.fault fault]⟩

theorem data_completes (order : ByteOrder) (pb : Protobuf) (flow : TcpFlow) (fd : Int) (reads : List ReadResult) (s : Shared F) :
    Completes pb s (arrive order pb flow fd reads) (data order pb flow fd EV_READ reads s) := by
  unfold arrive
  cases looped : readLoop order NUM_READ_TRY {flow with m_clientFd := fd} reads with
  | error fault =>
    rw [data_faulted looped]
    exact .stopped
  | ok result =>
    obtain ⟨later,gone⟩ := result
    cases gone with
    | true =>
      rw [data_deleted looped]
      show Completes pb s _ ⟨none,s,[] ++ [.delete later.m_selfAddr]⟩
      exact .gone nofun
    | false =>
      rw [data_kept looped]
      dsimp only
      split
      · split
        · rename_i type typed
          cases handled : handle type (pb.ParseFromArray later.received).2 s with
          | error fault =>
            rw [parse_faulted typed handled]
            exact .failed handled
          | ok result =>
            rw [parse_handled typed handled]
            exact .answered handled
        · rename_i untyped
          rw [parse_untyped untyped]
          show Completes pb s _ ⟨none,s,[.parse later.received] ++ [.delete later.m_selfAddr]⟩
          exact .gone (by simp [quiet])
      · exact .waiting

section
variable {s : State ι F} {i : ι}

theorem advance_inside (inside : ∀ m, s.handlers.threads i ≠ .done m)
    (stepped : Handlers.step s.handlers (.advance i) = some later) : advance s i = some {s with handlers := later} := by
  rw [advance,stepped,Option.map_some]
  split
  · rename_i here _
    exact absurd here (inside _)
  · rfl

theorem advance_done (here : s.handlers.threads i = .done m) (serves : s.serving i = some (address,flow))
    (stepped : Handlers.step s.handlers (.advance i) = some later) :
    advance s i = some {withWorker s i (keep (s.workers i) address (some {flow with m_payload := m})) with
      handlers := later,serving := Function.update s.serving i none} := by
  rw [advance,stepped,Option.map_some,here,serves]

theorem alone_advances (getAddrStr : Address → Str) (order : ByteOrder) (pb : Protobuf) (enable : Bool)
    (alone : Handlers.Alone here before (.done response) later) (clear : s.handlers.fault = none)
    (at_ : s.handlers.threads i = here) (shared : s.handlers.shared = before) :
    ∃ n, (service ι F getAddrStr order pb enable).run s (List.replicate n (.advance i)) = some {s with
      handlers := {s.handlers with shared := later,threads := Function.update s.handlers.threads i (.done response)}} := by
  generalize ended : Local.done response = place at alone
  induction alone generalizing s with
  | rest =>
    subst shared ended
    refine ⟨0,?_⟩
    rw [← at_,Function.update_eq_self]
    rfl
  | @step here before there middle last later moved rest ih =>
    subst shared ended
    have inside : ∀ m, s.handlers.threads i ≠ .done m := by
      intro m ended
      rw [at_] at ended
      subst ended
      cases moved
      cases rest with
      | step moved _ => cases moved
    have first := advance_inside inside (Handlers.step_moved clear at_ moved)
    obtain ⟨n,path⟩ := ih (s:={s with
      handlers := {s.handlers with shared := middle,threads := Function.update s.handlers.threads i there}}) clear
      (Function.update_self _ _ _) rfl rfl
    rw [Function.update_idem] at path
    exact ⟨n+1,((service ι F getAddrStr order pb enable).run_cons).mpr ⟨_,first,path⟩⟩

-- A callback that nothing interrupts does to its worker and to the shared
-- objects what the whole callback does.
theorem callback_whole (getAddrStr : Address → Str) (order : ByteOrder) (pb : Protobuf) (enable : Bool)
    (looping : inLoop s i = true) (served : s.serving i = none) (event : (s.workers i).events.lookup address = some fd)
    (live : (s.workers i).heap address = some flow)
    (defined : ∀ fault, .fault fault ∉ (data order pb flow fd EV_READ reads s.handlers.shared).events) :
    ∃ n worker, ServiceWorker.data order pb (s.workers i) address ⟨s.handlers.shared,reads⟩ spilled = some worker ∧
      (service ι F getAddrStr order pb enable).run s (.data i address reads :: List.replicate n (.advance i)) =
        some {withWorker s i worker with handlers := {s.handlers with
          shared := (data order pb flow fd EV_READ reads s.handlers.shared).shared}} := by
  obtain ⟨clear,rests⟩ := of_decide_eq_true looping
  have completes := data_completes order pb flow fd reads s.handlers.shared
  have begun : (service ι F getAddrStr order pb enable).step s (.data i address reads) =
      callback order pb s i address reads := if_pos looping
  simp only [ServiceWorker.data,event,live]
  rw [callback,event,live] at begun
  dsimp only at begun
  generalize data order pb flow fd EV_READ reads s.handlers.shared = outcome at completes defined ⊢
  generalize arrive order pb flow fd reads = arrival at completes begun
  cases completes with
  | @stopped fault => exact absurd (.head _) (defined fault)
  | @failed _ _ fault => exact absurd (by simp) (defined fault)
  | gone quietly =>
    refine ⟨0,_,ServiceWorker.perform_last quietly _ _ _,?_⟩
    exact ((service ι F getAddrStr order pb enable).run_singleton).trans begun
  | waiting =>
    refine ⟨0,_,rfl,?_⟩
    exact ((service ι F getAddrStr order pb enable).run_singleton).trans begun
  | @answered type m response later flow handled =>
    obtain ⟨n,handled⟩ := alone_advances getAddrStr order pb enable (Handlers.alone_handle handled) (s:={s with
      handlers := {s.handlers with threads := Function.update s.handlers.threads i (.ready type m)}
      serving := Function.update s.serving i (some (address,flow))}) clear (Function.update_self _ _ _) rfl
    have received : Handlers.step s.handlers (.receive i type m) =
        some {s.handlers with threads := Function.update s.handlers.threads i (.ready type m)} :=
      Handlers.step_receive.mpr ⟨clear,rests,rfl⟩
    dsimp only at begun
    rw [received] at begun
    let last : State ι F := {s with
      handlers := {s.handlers with shared := later,threads := Function.update s.handlers.threads i (.done response)}
      serving := Function.update s.serving i (some (address,flow))}
    have here : last.handlers.threads i = .done response := Function.update_self _ _ _
    have leaves : Handlers.step last.handlers (.advance i) =
        some {last.handlers with threads := Function.update last.handlers.threads i .idle} := Handlers.step_moved clear here rfl
    have answered := advance_done here (Function.update_self _ _ _) leaves
    refine ⟨n+1,_,ServiceWorker.perform_quiet (by simp [quiet]) _ _,?_⟩
    rw [List.replicate_succ']
    refine ((service ι F getAddrStr order pb enable).run_cons).mpr ⟨_,begun,?_⟩
    rw [Function.update_idem] at handled
    refine (service ι F getAddrStr order pb enable).run_join handled ?_
    refine ((service ι F getAddrStr order pb enable).run_singleton).trans (answered.trans ?_)
    simp only [last,Function.update_idem,withWorker]
    rw [← rests,← served,Function.update_eq_self,Function.update_eq_self]

end

omit [MembershipFilter F] [DecidableEq ι] in
theorem note_effect (s : State ι F) (move : Move ι) : (note order pb s move).filterMap Point.effect =
    match move with
    | .advance i => (effect s.handlers.shared (s.handlers.threads i)).toList
    | .processEvent _ _ _ | .data _ _ _ | .cleanState _ | .stop _ => [] := by
  cases move with
  | advance i => rw [note,List.filterMap_append,points_effect,acts_effect,List.append_nil]
  | _ => exact acts_effect _

inductive Steps (order : ByteOrder) (pb : Protobuf) (s next : State ι F) (move : Move ι) : Prop where
  | rests : note order pb s move = [] → next.handlers.shared = s.handlers.shared →
      next.handlers.threads = s.handlers.threads → next.serving = s.serving → Steps order pb s next move
  | begins : note order pb s move = said i flow none → s.handlers.threads i = .idle → next.handlers.shared = s.handlers.shared →
      (pb.ParseFromArray flow.received).2.requesttype_ = some type →
      next.handlers.threads = Function.update s.handlers.threads i (.ready type (pb.ParseFromArray flow.received).2) →
      next.serving = Function.update s.serving i (some (address,flow)) → Steps order pb s next move
  | runs : note order pb s move = points i (effect s.handlers.shared (s.handlers.threads i)) →
      Handlers.advance (s.handlers.threads i) s.handlers.shared = some (.ok (there,next.handlers.shared)) → there ≠ .idle →
      next.handlers.threads = Function.update s.handlers.threads i there → next.serving = s.serving → Steps order pb s next move
  | ends : note order pb s move = [.act (.returned i (flow.m_clientFd,sendResponse pb response))] →
      s.handlers.threads i = .done response → s.serving i = some (address,flow) → next.handlers.shared = s.handlers.shared →
      next.handlers.threads = Function.update s.handlers.threads i .idle →
      next.serving = Function.update s.serving i none → Steps order pb s next move

theorem callback_steps (called : callback order pb s i address reads = some next) :
    Steps order pb s next (.data i address reads) := by
  unfold callback at called
  cases event : (s.workers i).events.lookup address with
  | none =>
    rw [event] at called
    cases called
  | some fd =>
    cases live : (s.workers i).heap address with
    | none =>
      rw [event,live] at called
      cases called
    | some flow =>
      rw [event,live] at called
      dsimp only at called
      have asks : asked order pb s i address reads = match arrive order pb flow fd reads with
          | .request flow _ _ => some (flow.m_clientFd,flow.received)
          | _ => none := by
        rw [asked,event,live]
      cases found : arrive order pb flow fd reads with
      | stopped fault | gone addr | waiting later =>
        rw [found] at called asks
        cases called
        have quiet : note order pb s (.data i address reads) = [] := by rw [note,observe,asks]; rfl
        exact .rests quiet rfl rfl rfl
      | request later type m =>
        rw [found] at called asks
        obtain ⟨handlers,stepped,rfl⟩ := Option.map_eq_some_iff.mp called
        obtain ⟨_,idle,rfl⟩ := Handlers.step_receive.mp stepped
        obtain ⟨typed,rfl⟩ : (pb.ParseFromArray later.received).2.requesttype_ = some type ∧
            (pb.ParseFromArray later.received).2 = m := by
          unfold arrive at found
          split at found
          · cases found
          · cases found
          · split at found
            · split at found
              · rename_i typed
                cases found
                exact ⟨typed,rfl⟩
              · cases found
            · cases found
        have begins : note order pb s (.data i address reads) = said i later none := by rw [note,observe,asks]; rfl
        exact .begins begins idle rfl typed rfl rfl

inductive Advances (s : State ι F) (i : ι) : State ι F → Prop where
  | ends : s.handlers.threads i = .done m → s.serving i = some (address,flow) →
      Advances s i {withWorker s i (keep (s.workers i) address (some {flow with m_payload := m})) with
        handlers := {s.handlers with threads := Function.update s.handlers.threads i .idle}
        serving := Function.update s.serving i none}
  | runs : (∀ m, s.handlers.threads i ≠ .done m) → there ≠ .idle →
      Handlers.advance (s.handlers.threads i) s.handlers.shared = some (.ok (there,shared)) →
      Advances s i {s with handlers := {s.handlers with shared := shared,threads := Function.update s.handlers.threads i there}}

theorem advance_parts (built : s.handlers.shared.dictionary.Built)
    (stands : Stands pb enable i (s.handlers.threads i) (s.serving i) spoken) (advanced : advance s i = some next) :
    Advances s i next := by
  obtain ⟨_,stepped,_⟩ := Option.map_eq_some_iff.mp advanced
  obtain ⟨_,result,moved,same⟩ := Handlers.step_advance.mp stepped
  obtain ⟨there,shared,rfl⟩ := Handlers.advance_runs built moved
  subst same
  by_cases inside : ∃ m, s.handlers.threads i = .done m
  · obtain ⟨m,here⟩ := inside
    rw [here] at stands moved
    cases Handlers.advance_exact.mp moved
    cases serves : s.serving i with
    | none =>
      rw [serves] at stands
      cases stands
    | some held =>
      rw [advance_done here serves stepped] at advanced
      cases advanced
      exact .ends here serves
  · have elsewhere : ∀ m, s.handlers.threads i ≠ .done m := fun m here => inside ⟨m,here⟩
    rw [advance_inside elsewhere stepped] at advanced
    cases advanced
    refine .runs elsewhere ?_ moved
    rintro rfl
    cases here : s.handlers.threads i with
    | done m => exact elsewhere m here
    | _ =>
      rw [here] at moved
      cases Handlers.advance_exact.mp moved

theorem advance_steps (advances : Advances s i next) : Steps order pb s next (.advance i) := by
  cases advances with
  | @ends m address flow here serves =>
    have answers : answered pb s i = some (flow.m_clientFd,sendResponse pb m) := by rw [answered,here,serves]
    have ends : note order pb s (.advance i) = [.act (.returned i (flow.m_clientFd,sendResponse pb m))] := by
      rw [note,observe,answers,here]
      rfl
    exact .ends ends here serves rfl rfl rfl
  | runs elsewhere inside moved =>
    have silent : answered pb s i = none := by
      rw [answered]
      split
      · rename_i here _
        exact absurd here (elsewhere _)
      · rfl
    have runs : note order pb s (.advance i) = points i (effect s.handlers.shared (s.handlers.threads i)) := by
      rw [note,observe,silent]
      exact List.append_nil _
    exact .runs runs moved inside rfl rfl

theorem step_steps (built : s.handlers.shared.dictionary.Built)
    (standing : ∀ i, ∃ spoken, Stands pb enable i (s.handlers.threads i) (s.serving i) spoken)
    (stepped : step getAddrStr order pb s move = some next) : Steps order pb s next move := by
  cases move with
  | processEvent i fd address =>
    obtain ⟨_,same⟩ := Option.ite_none_right_eq_some.mp stepped
    cases same
    exact .rests rfl rfl rfl rfl
  | data i address reads =>
    obtain ⟨_,called⟩ := Option.ite_none_right_eq_some.mp stepped
    exact callback_steps called
  | cleanState i | stop i =>
    obtain ⟨_,same⟩ := Option.ite_none_right_eq_some.mp stepped
    cases same
    exact .rests rfl rfl rfl rfl
  | advance i =>
    obtain ⟨spoken,stands⟩ := standing i
    exact advance_steps (advance_parts built stands stepped)

def Standing (pb : Protobuf) (enable : Bool) (s : State ι F) (i : ι) (spoken : List (Point ι Message Message Call Reply)) : Prop :=
  Stands pb enable i (s.handlers.threads i) (s.serving i) spoken

theorem Within.writes (within : Within enable m type here (some (call,reply))) :
    call = callOf m type ∧ ∃ response, Writes enable m reply response := by
  cases within with
  | looked looked => exact ⟨rfl,_,looked.writes _⟩
  | done written => exact ⟨rfl,_,written⟩

omit [MembershipFilter F] [DecidableEq ι] in
theorem Standing.begins (standing : Standing pb enable s i spoken) : Linearization.Beginning (Means pb enable) i spoken := by
  rw [Standing] at standing
  generalize s.handlers.threads i = here,s.serving i = serving at standing
  cases standing with
  | idle => exact .silent
  | @handling type _ took address flow typed within =>
    cases took with
    | none => exact .invoked
    | some event =>
      obtain ⟨call,reply⟩ := event
      obtain ⟨rfl,response,written⟩ := within.writes
      exact .took (.means typed written)

omit [MembershipFilter F] in
theorem Standing.other (apart : j ≠ i) (standing : Standing pb enable s j spoken)
    (threads : next.handlers.threads = Function.update s.handlers.threads i there)
    (serving : next.serving = Function.update s.serving i held) : Standing pb enable next j spoken := by
  rw [Standing,threads,serving,Function.update_of_ne apart,Function.update_of_ne apart]
  exact standing

theorem steps_standing (sound : enable = true → NoFalseNegatives F) (holds : Holds enable s.handlers.shared.dictionary entries)
    (standing : Standing pb enable s j spoken) (steps : Steps order pb s next move) :
    Standing pb enable next j (spoken ++ (note order pb s move).filter (Linearization.ofThread j)) ∨
      Standing pb enable next j [] ∧
        Linearization.Sentence (Means pb enable) j (spoken ++ (note order pb s move).filter (Linearization.ofThread j)) := by
  cases steps with
  | rests silent _ threads serving =>
    rw [silent,List.filter_nil,List.append_nil,Standing,threads,serving]
    exact .inl standing
  | @begins i flow type address begins here _ typed threads serving =>
    by_cases same : j = i
    · subst same
      rw [Standing,here] at standing
      generalize s.serving j = held at standing
      have voice : (note order pb s move).filter (Linearization.ofThread j) = said j flow none := by
        rw [begins]
        simp [said,points,Linearization.ofThread,Point.thread,Act.thread]
      have told : Standing pb enable next j (said j flow none) := by
        rw [Standing,threads,serving,Function.update_self,Function.update_self]
        exact .handling typed .ready
      rw [voice]
      cases standing with
      | idle => exact .inl told
      | handling _ within => cases within
    · have silent : (note order pb s move).filter (Linearization.ofThread j) = [] := by
        rw [begins]
        simp [said,points,Linearization.ofThread,Point.thread,Act.thread,Ne.symm same]
      rw [silent,List.append_nil]
      exact .inl (standing.other same threads serving)
  | @runs i there runs moved inside threads serving =>
    rw [runs,points_thread]
    by_cases same : i = j
    · subst same
      rw [if_pos rfl]
      rw [Standing] at standing
      generalize s.handlers.threads i = place at standing moved ⊢
      generalize serves : s.serving i = held at standing
      cases standing with
      | idle => cases moved
      | @handling type _ took address flow typed within =>
        obtain ⟨_,_,left,_⟩ | ⟨further,once⟩ := advance_within sound holds within moved
        · exact absurd left inside
        · have joined : said i flow took ++ points i (effect s.handlers.shared place) =
              said i flow (took.or (effect s.handlers.shared place)) := congrArg (List.cons _) (points_or once i).symm
          rw [joined,Standing,threads,Function.update_self,serving,serves]
          exact .inl (.handling typed further)
    · rw [if_neg same,List.append_nil]
      have serves : next.serving = Function.update s.serving i (s.serving i) := by rw [serving,Function.update_eq_self]
      exact .inl (standing.other (Ne.symm same) threads serves)
  | @ends i flow response address ends here serves _ threads serving =>
    by_cases same : j = i
    · subst same
      rw [Standing,here,serves] at standing
      have rested : Standing pb enable next j [] := by
        rw [Standing,threads,serving,Function.update_self,Function.update_self]
        exact .idle
      refine .inr ⟨rested,?_⟩
      cases standing with
      | handling typed within =>
        cases within with
        | done written =>
          rw [ends]
          simp [said,points,Linearization.ofThread,Point.thread,Act.thread]
          exact .call (.means typed written)
    · have silent : (note order pb s move).filter (Linearization.ofThread j) = [] := by
        rw [ends]
        simp [Linearization.ofThread,Point.thread,Act.thread,Ne.symm same]
      rw [silent,List.append_nil]
      exact .inl (standing.other same threads serving)

theorem steps_holds (holds : Holds enable s.handlers.shared.dictionary entries) (steps : Steps order pb s next move) :
    ∃ later, dictionary.run entries ((note order pb s move).filterMap Point.effect) = some later ∧
      Holds enable next.handlers.shared.dictionary later := by
  cases steps with
  | rests silent shared _ _ =>
    rw [silent,shared]
    exact ⟨entries,rfl,holds⟩
  | begins begins _ shared _ _ _ =>
    rw [begins,shared]
    exact ⟨entries,rfl,holds⟩
  | runs runs moved _ _ _ =>
    rw [runs,points_effect]
    exact advance_holds holds moved
  | ends ends _ _ shared _ _ =>
    rw [ends,shared]
    exact ⟨entries,rfl,holds⟩

theorem steps_stand (sound : enable = true → NoFalseNegatives F) (holds : Holds enable s.handlers.shared.dictionary entries)
    (standing : ∀ i, ∃ spoken, Standing pb enable s i spoken) (steps : Steps order pb s next move) (j : ι) :
    ∃ spoken, Standing pb enable next j spoken := by
  obtain ⟨spoken,here⟩ := standing j
  rcases steps_standing sound holds here steps with more | ⟨done,_⟩
  · exact ⟨_,more⟩
  · exact ⟨[],done⟩

-- SET k v and GET k, each after the length of its encoding.
def storing : List Byte := [8,0,0,0,8,2,18,1,107,26,1,118]
def looking : List Byte := [5,0,0,0,8,1,18,1,107]

-- The GET has been counted when the SET is stored.
def crossing : List (Move Bool) :=
  [.processEvent true 7 0x1000,.processEvent false 8 0x2000,.data true 0x1000 [.got storing],.data false 0x2000 [.got looking],
    .advance false,.advance true,.advance true,.advance false,.advance false,.advance false,.advance true]

end RemoteDict.Connections
