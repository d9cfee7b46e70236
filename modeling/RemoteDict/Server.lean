import Mathlib.Algebra.Group.Nat.Defs
import Mathlib.Logic.Function.Basic
import RemoteDict.Handlers
import RemoteDict.Handoff
import RemoteDict.Overrun
import RemoteDict.Writes

namespace RemoteDict.Server
open Foundation Foundation.Block Handoff TcpFlow

-- What the server runs with: the byte order of the machine, protobuf, the choice
-- made on the command line, and how many bytes a socketpair takes.
structure Host where
  order : ByteOrder
  pb : Protobuf
  m_bloomFilterEnable : Bool
  capacity : Nat

-- A flow in a worker's table, known by the descriptor its event watches and not
-- by its address. Its m_clientFd is the -1 of the constructor or that descriptor.
structure Session where
  fd : Nat
  flow : TcpFlow
  own : flow.m_clientFd = -1 ∨ flow.m_clientFd = fd

-- The callback that a worker's loop is in: in the handler of a request, or in
-- socketWriteData with what is left of the response.
inductive Serving where
  | idle
  | handling (fd : Nat) (here : Handlers.Local)
  | writing (fd : Nat) (left : List Byte)
  deriving DecidableEq

-- The thread's run() has made its socketpair when it is ready, and has ended
-- (m_exited) when its context's place is `left`; leaving says that exitLoop was
-- called, which ends the loop two seconds later.
structure Worker where
  ready : Bool
  channel : Channel
  m_processExiting : Bool
  m_tcpSessions : List Session
  serving : Serving
  leaving : Bool

-- Where the listener stands: before its socketpair is made, in onAccept, in
-- dispatchFd, in addFdToEvLoop.
inductive Accepting (T : Nat) where
  | starting
  | idle
  | accepted (fd : Nat)
  | nonblocking (fd : Nat)
  | calling (i : Fin T) (fd : Nat)
  | adding (i : Fin T)
  | left
  deriving DecidableEq

-- Where the main thread stands: at the end of start, where enableBloomFilter sets
-- the flag and then builds the filter, before shutdown, and in it; `next n` has
-- dealt with the workers before n.
inductive Main (T : Nat) where
  | listening
  | flagged
  | running
  | haltingListener
  | awaitingListener
  | next (n : Nat)
  | halting (i : Fin T)
  | awaiting (i : Fin T)
  | returned
  deriving DecidableEq

-- Connections are numbered in the order in which accept returns them. `stopped`
-- says that every stop() so far returned true, `closed` lists what was closed.
structure State (F : Type) (T : Nat) where
  shared : Shared F
  accepted : Nat
  listener : Accepting T
  listenerTold : Bool
  listenerLeaving : Bool
  m_index : Nat
  workers : Fin T → Worker
  main : Main T
  stopped : Bool
  closed : List Nat
  fault : Bool

-- `data` is a read callback up to the handler of its request, `advance` a step of
-- that handler, and `write` what the system answers to one write of the response.
inductive Move (T : Nat) where
  | run (i : Fin T)
  | listen
  | accept
  | nonblock
  | nonblockFails
  | dispatch
  | channel (i : Fin T) (move : Handoff.Move)
  | data (i : Fin T) (fd : Nat) (reads : List ReadResult)
  | advance (i : Fin T)
  | write (i : Fin T) (result : WriteResult)
  | exit (i : Fin T)
  | listenerReads
  | listenerExits
  | setFlag
  | buildFilter
  | halt
  | tell
  | tellFails
  | awake
  | clear

namespace Session

def new (fd : Nat) : Session := ⟨fd,.new [],.inl rfl⟩

-- data has set m_clientFd before anything else.
def kept (fd : Nat) (flow : TcpFlow) : Session := ⟨fd,{flow with m_clientFd := fd},.inr rfl⟩

def respond (session : Session) (m : Payload) : Session := ⟨session.fd,{session.flow with m_payload := m},session.own⟩

-- ~TcpFlow closes m_clientFd, whatever it is.
def closes (session : Session) : List Nat :=
  if session.flow.m_clientFd = -1 then [] else [session.flow.m_clientFd.toNat]

end Session

namespace Worker

def new : Worker := ⟨false,.new,false,[],.idle,false⟩

-- The loop waits for an event.
def Looping (w : Worker) : Prop := w.channel.ctx.place = .idle ∧ w.serving = .idle

instance (w : Worker) : Decidable w.Looping := inferInstanceAs (Decidable (_ ∧ _))

def processEvent (w : Worker) (fd : Nat) : Worker :=
  if w.m_processExiting then w else {w with m_tcpSessions := w.m_tcpSessions ++ [.new fd]}

def cleanState (w : Worker) : Worker × List Nat :=
  ({w with m_tcpSessions := [],leaving := true},w.m_tcpSessions.flatMap Session.closes)

def deleteTcpFlow (w : Worker) (fd : Nat) : Worker × List Nat :=
  ({w with m_tcpSessions := w.m_tcpSessions.eraseP (·.fd == fd)},[fd])

def change (w : Worker) (fd : Nat) (after : Session → Session) : Worker :=
  {w with m_tcpSessions := w.m_tcpSessions.map fun session => if session.fd = fd then after session else session}

-- There is no worker any more where what the callback does is undefined.
def data (host : Host) (w : Worker) (session : Session) (reads : List ReadResult) : Option (Worker × List Nat) :=
  match arrive host.order host.pb session.flow session.fd reads with
  | .stopped _ => none
  | .gone _ => some (w.deleteTcpFlow session.fd)
  | .waiting flow => some (w.change session.fd fun _ => .kept session.fd flow,[])
  | .request flow type m =>
    some ({w.change session.fd fun _ => .kept session.fd flow with serving := .handling session.fd (.ready type m)},[])

def send (w : Worker) (fd : Nat) (left : List Byte) : Worker :=
  {w with serving := if left = [] then .idle else .writing fd left}

def resume (pb : Protobuf) (w : Worker) (fd : Nat) : Handlers.Local → Worker
  | .done m => (w.change fd (·.respond m)).send fd (sendResponse pb m)
  | .idle => {w with serving := .idle}
  | here => {w with serving := .handling fd here}

def settle (w : Worker) (channel : Channel) : Effect → Worker × List Nat
  | .silent => ({w with channel := channel},[])
  | .pushed _ => ({w with channel := channel},[])
  | .closed fd => ({w with channel := channel},[fd])
  | .processed fd => ({w with channel := channel}.processEvent fd,[])
  | .ended => {w with channel := channel}.cleanState

theorem settle_ready (w : Worker) (channel : Channel) (effect : Effect) :
    (w.settle channel effect).1.ready = w.ready := by
  cases effect with
  | processed fd =>
    simp only [Worker.settle,Worker.processEvent]
    split <;> rfl
  | _ => rfl

end Worker

-- An iteration of socketWriteData: it goes on where the socket takes nothing yet,
-- and gives up at any other error.
def wrote (left : List Byte) : WriteResult → Option (List Byte)
  | .wrote n => if n ≤ left.length then some (left.drop n) else none
  | .failed errno => some (if Writes.Fatal errno then [] else left)

-- Before that the descriptors in m_sockets are indeterminate, so that no write
-- to them is defined.
def Worker.refuses (w : Worker) (move : Handoff.Move) : Prop := move = .write ∧ w.ready = false

instance (w : Worker) (move : Handoff.Move) : Decidable (w.refuses move) := by unfold Worker.refuses; infer_instance

variable {F : Type} {T : Nat}

-- addFdToEvLoop runs in the listener, which waits in it for the mutex. What comes
-- through the socketpair waits for the callback that the loop is in.
def Runs (s : State F T) (i : Fin T) : Handoff.Move → Prop
  | .call fd => s.listener = .calling i fd
  | .write | .writeFails | .push | .refuse => s.listener = .adding i
  | .read | .spurious => (s.workers i).serving = .idle
  | .lock | .process | .unlock => True

instance (s : State F T) (i : Fin T) (move : Handoff.Move) : Decidable (Runs s i move) := by
  cases move <;> unfold Runs <;> infer_instance

def afterMove (s : State F T) (i : Fin T) : Handoff.Move → Accepting T
  | .call _ => .adding i
  | .push | .refuse => .idle
  | _ => s.listener

def put (s : State F T) (i : Fin T) (changed : Worker × List Nat) : State F T :=
  {s with workers := Function.update s.workers i changed.1,closed := s.closed ++ changed.2}

def fail (s : State F T) : State F T := {s with fault := true}

def Accepting.dispatching : Accepting T → Bool
  | .calling _ _ | .adding _ => true
  | _ => false

def InUse (s : State F T) : Prop :=
  (∃ i, (s.workers i).channel.ctx.place ≠ .left) ∨ s.listener.dispatching = true

instance (s : State F T) : Decidable (InUse s) := by unfold InUse; infer_instance

def destroy (w : Worker) : Worker :=
  {w with channel := {w.channel with ctx := {w.channel.ctx with m_queue := []}},m_tcpSessions := []}

def clear (s : State F T) : State F T :=
  if InUse s then fail s
  else {s with
    workers := fun i => destroy (s.workers i),main := .returned
    closed := s.closed ++ (List.finRange T).flatMap fun i => (s.workers i).m_tcpSessions.flatMap Session.closes}

-- loadbalanceFd with ROUND_ROBIN: a division by zero without workers, an index
-- outside of m_workers after the list was cleared.
def loadbalanceFd (s : State F T) (fd : Nat) : State F T :=
  if workers : 0 < T ∧ s.main ≠ .returned then
    let index := (s.m_index + 1) % 2^32 % T
    {s with m_index := index,listener := .calling ⟨index,Nat.mod_lt _ workers.1⟩ fd}
  else fail s

-- The chunks of a callback are those that were announced before.
def Fitting (host : Host) (s : State F T) (i : Fin T) (fd : Nat) (reads : List ReadResult) : Prop :=
  ∀ session ∈ (s.workers i).m_tcpSessions.find? (·.fd == fd), Overrun.Fits host.order session.flow (Overrun.taken NUM_READ_TRY reads)

instance (host : Host) (s : State F T) (i : Fin T) (fd : Nat) (reads : List ReadResult) : Decidable (Fitting host s i fd reads) :=
  Option.decidableForallMem _

variable [MembershipFilter F]

def proceed (host : Host) (s : State F T) (i : Fin T) (fd : Nat) : Except Fault (Handlers.Local × Shared F) → State F T
  | .error _ => fail s
  | .ok (here,shared) => put {s with shared := shared} i ((s.workers i).resume host.pb fd here,[])

def act (host : Host) (s : State F T) : Move T → Option (State F T)
  | .run i => if (s.workers i).ready then none else some (put s i ({s.workers i with ready := true},[]))
  | .listen => if s.listener = .starting then some {s with listener := .idle} else none
  | .accept =>
    if s.listener = .idle ∧ s.listenerLeaving = false then
      some {s with listener := .accepted s.accepted,accepted := s.accepted + 1}
    else none
  | .nonblock =>
    match s.listener with
    | .accepted fd => some {s with listener := .nonblocking fd}
    | _ => none
  | .nonblockFails =>
    match s.listener with
    | .accepted _ => some {s with listener := .idle}
    | _ => none
  | .dispatch =>
    match s.listener with
    | .nonblocking fd => some (loadbalanceFd s fd)
    | _ => none
  | .channel i move =>
    if Runs s i move then
      if (s.workers i).refuses move then some (fail s)
      else ((s.workers i).channel.step host.capacity move).map fun stepped =>
        put {s with listener := afterMove s i move} i ((s.workers i).settle stepped.1 stepped.2)
    else none
  | .data i fd reads =>
    if (s.workers i).Looping ∧ Overrun.Sized reads then
      ((s.workers i).m_tcpSessions.find? (·.fd == fd)).map fun session =>
        ((s.workers i).data host session reads).elim (fail s) (put s i)
    else none
  | .advance i =>
    match (s.workers i).serving with
    | .handling fd here => (Handlers.advance here s.shared).map (proceed host s i fd)
    | _ => none
  | .write i result =>
    match (s.workers i).serving with
    | .writing fd left => (wrote left result).map fun rest => put s i ((s.workers i).send fd rest,[])
    | _ => none
  | .exit i =>
    if (s.workers i).leaving ∧ (s.workers i).serving = .idle then
      (s.workers i).channel.ctx.leave.map fun ctx =>
        put s i ({s.workers i with channel := {(s.workers i).channel with ctx := ctx}},[])
    else none
  | .listenerReads =>
    if s.listener = .idle ∧ s.listenerTold then some {s with listenerTold := false,listenerLeaving := true} else none
  | .listenerExits =>
    if s.listener = .idle ∧ s.listenerLeaving then some {s with listener := .left} else none
  | .setFlag =>
    if s.main = .listening then
      some {s with
        main := if host.m_bloomFilterEnable then .flagged else .running
        shared := {s.shared with dictionary :=
          {s.shared.dictionary with m_bloomFilterEnabled := host.m_bloomFilterEnable}}}
    else none
  | .buildFilter =>
    if s.main = .flagged then
      some {s with main := .running,shared := {s.shared with dictionary := s.shared.dictionary.initBloomFilters}}
    else none
  | .halt =>
    match s.main with
    | .running => some {s with main := .haltingListener}
    | .next n =>
      if more : n < T then
        some (put {s with main := .halting ⟨n,more⟩} ⟨n,more⟩ ({s.workers ⟨n,more⟩ with m_processExiting := true},[]))
      else none
    | _ => none
  | .tell =>
    match s.main with
    | .haltingListener =>
      some (if s.listener = .starting then fail s else {s with main := .awaitingListener,listenerTold := true})
    | .halting i =>
      if (s.workers i).ready = false then some (fail s)
      else ((s.workers i).channel.ctx.write host.capacity .e).map fun ctx =>
        put {s with main := .awaiting i} i ({s.workers i with channel := {(s.workers i).channel with ctx := ctx}},[])
    | _ => none
  | .tellFails =>
    match s.main with
    | .haltingListener => some {s with main := .next 0,stopped := false}
    | .halting i => some {s with main := .next (i + 1),stopped := false}
    | _ => none
  | .awake =>
    match s.main with
    | .awaitingListener => if s.listener = .left then some {s with main := .next 0} else none
    | .awaiting i => if (s.workers i).channel.ctx.place = .left then some {s with main := .next (i + 1)} else none
    | _ => none
  | .clear =>
    match s.main with
    | .next n => if n < T then none else some (clear s)
    | _ => none

-- start() has made the listener and the workers, whose threads come up in any
-- order, and still has to enable the bloom filter. Once it has, shutdown may begin
-- at any point.
def server (F : Type) [MembershipFilter F] (T : Nat) (host : Host) : Machine (State F T) (Move T) where
  start := ⟨⟨.new,{}⟩,0,.starting,false,false,0,fun _ => .new,.listening,true,[],false⟩
  step s move := if s.fault then none else act host s move

variable {host : Host} {s next : State F T}

-- The moves one by one, with everything they read and write.
theorem act_run : act host s (.run i) = some next ↔ (s.workers i).ready = false ∧
    next = put s i ({s.workers i with ready := true},[]) := by
  cases up : (s.workers i).ready <;> simp [act,up,eq_comm (b := next)]

theorem act_listen : act host s .listen = some next ↔ s.listener = .starting ∧ next = {s with listener := .idle} := by
  simp only [act,Option.ite_none_right_eq_some,Option.some.injEq,eq_comm (b := next)]

theorem act_accept : act host s .accept = some next ↔ s.listener = .idle ∧ s.listenerLeaving = false ∧
    next = {s with listener := .accepted s.accepted,accepted := s.accepted + 1} := by
  simp only [act,Option.ite_none_right_eq_some,Option.some.injEq,and_assoc,eq_comm (b := next)]

theorem act_nonblock : act host s .nonblock = some next ↔ ∃ fd, s.listener = .accepted fd ∧
    next = {s with listener := .nonblocking fd} := by
  cases at_call : s.listener <;> simp [act,at_call,eq_comm (b := next)]

theorem act_nonblockFails : act host s .nonblockFails = some next ↔ ∃ fd, s.listener = .accepted fd ∧
    next = {s with listener := .idle} := by
  cases at_call : s.listener <;> simp [act,at_call,eq_comm (b := next)]

theorem act_dispatch : act host s .dispatch = some next ↔ ∃ fd, s.listener = .nonblocking fd ∧
    next = loadbalanceFd s fd := by
  cases at_call : s.listener <;> simp [act,at_call,eq_comm (b := next)]

theorem act_channel : act host s (.channel i move) = some next ↔ Runs s i move ∧
    ((s.workers i).refuses move ∧ next = fail s ∨
      ¬(s.workers i).refuses move ∧ ∃ later effect, (s.workers i).channel.step host.capacity move = some (later,effect) ∧
        next = put {s with listener := afterMove s i move} i ((s.workers i).settle later effect)) := by
  simp only [act]
  split
  · rename_i runs
    split
    · rename_i refused
      simp [runs,refused,eq_comm (b := next)]
    · rename_i written
      simp only [Option.map_eq_some_iff,Prod.exists,runs,written,true_and,false_and,false_or,not_false_eq_true]
      grind
  · rename_i other
    simp [other]

theorem act_data : act host s (.data i fd reads) = some next ↔ (s.workers i).Looping ∧ Overrun.Sized reads ∧ ∃ session,
    (s.workers i).m_tcpSessions.find? (·.fd == fd) = some session ∧
    next = ((s.workers i).data host session reads).elim (fail s) (put s i) := by
  simp only [act,Option.ite_none_right_eq_some,Option.map_eq_some_iff,and_assoc,eq_comm (b := next)]

theorem act_advance : act host s (.advance i) = some next ↔ ∃ fd here result, (s.workers i).serving = .handling fd here ∧
    Handlers.advance here s.shared = some result ∧ next = proceed host s i fd result := by
  cases busy : (s.workers i).serving <;> simp [act,busy,eq_comm (b := next)]

theorem act_write : act host s (.write i result) = some next ↔ ∃ fd left rest, (s.workers i).serving = .writing fd left ∧
    wrote left result = some rest ∧ next = put s i ((s.workers i).send fd rest,[]) := by
  cases busy : (s.workers i).serving <;> simp [act,busy,eq_comm (b := next)]

theorem act_exit : act host s (.exit i) = some next ↔ (s.workers i).leaving = true ∧ (s.workers i).serving = .idle ∧ ∃ ctx,
    (s.workers i).channel.ctx.leave = some ctx ∧
    next = put s i ({s.workers i with channel := {(s.workers i).channel with ctx := ctx}},[]) := by
  simp only [act,Option.ite_none_right_eq_some,Option.map_eq_some_iff]
  grind

theorem act_listenerReads : act host s .listenerReads = some next ↔ s.listener = .idle ∧ s.listenerTold = true ∧
    next = {s with listenerTold := false,listenerLeaving := true} := by
  simp only [act,Option.ite_none_right_eq_some,Option.some.injEq,and_assoc,eq_comm (b := next)]

theorem act_listenerExits : act host s .listenerExits = some next ↔ s.listener = .idle ∧ s.listenerLeaving = true ∧
    next = {s with listener := .left} := by
  simp only [act,Option.ite_none_right_eq_some,Option.some.injEq,and_assoc,eq_comm (b := next)]

theorem act_setFlag : act host s .setFlag = some next ↔ s.main = .listening ∧
    next = {s with
      main := if host.m_bloomFilterEnable then .flagged else .running
      shared := {s.shared with dictionary :=
        {s.shared.dictionary with m_bloomFilterEnabled := host.m_bloomFilterEnable}}} := by
  simp only [act,Option.ite_none_right_eq_some,Option.some.injEq,eq_comm (b := next)]

theorem act_buildFilter : act host s .buildFilter = some next ↔ s.main = .flagged ∧
    next = {s with main := .running,shared := {s.shared with dictionary := s.shared.dictionary.initBloomFilters}} := by
  simp only [act,Option.ite_none_right_eq_some,Option.some.injEq,eq_comm (b := next)]

theorem act_halt : act host s .halt = some next ↔
    (s.main = .running ∧ next = {s with main := .haltingListener}) ∨
    ∃ i : Fin T, s.main = .next i ∧
      next = put {s with main := .halting i} i ({s.workers i with m_processExiting := true},[]) := by
  cases standing : s.main with
  | next n =>
    simp only [act,standing]
    split
    · rename_i more
      constructor
      · rintro ⟨⟩
        exact .inr ⟨⟨n,more⟩,rfl,rfl⟩
      · rintro (⟨other,_⟩ | ⟨i,same,rfl⟩)
        · cases other
        · cases same
          rfl
    · rename_i finished
      constructor
      · rintro ⟨⟩
      · rintro (⟨other,_⟩ | ⟨i,same,rfl⟩)
        · cases other
        · cases same
          exact absurd i.isLt finished
  | _ => simp [act,standing,eq_comm (b := next)]

theorem act_tell : act host s .tell = some next ↔
    (s.main = .haltingListener ∧
      (s.listener = .starting ∧ next = fail s ∨
        s.listener ≠ .starting ∧ next = {s with main := .awaitingListener,listenerTold := true})) ∨
    ∃ i, s.main = .halting i ∧
      ((s.workers i).ready = false ∧ next = fail s ∨
        (s.workers i).ready = true ∧ ∃ ctx, (s.workers i).channel.ctx.write host.capacity .e = some ctx ∧
          next = put {s with main := .awaiting i} i
            ({s.workers i with channel := {(s.workers i).channel with ctx := ctx}},[])) := by
  cases standing : s.main with
  | haltingListener =>
    by_cases starting : s.listener = .starting <;> simp [act,standing,starting,eq_comm (b := next)]
  | halting i => cases up : (s.workers i).ready <;> simp [act,standing,up,eq_comm (b := next)]
  | _ => simp [act,standing]

theorem act_tellFails : act host s .tellFails = some next ↔
    (s.main = .haltingListener ∧ next = {s with main := .next 0,stopped := false}) ∨
    ∃ i : Fin T, s.main = .halting i ∧ next = {s with main := .next (i + 1),stopped := false} := by
  cases standing : s.main <;> simp [act,standing,eq_comm (b := next)]

theorem act_awake : act host s .awake = some next ↔
    (s.main = .awaitingListener ∧ s.listener = .left ∧ next = {s with main := .next 0}) ∨
    ∃ i : Fin T, s.main = .awaiting i ∧ (s.workers i).channel.ctx.place = .left ∧
      next = {s with main := .next (i + 1)} := by
  cases standing : s.main <;> simp [act,standing,eq_comm (b := next)]

theorem act_clear : act host s .clear = some next ↔ ∃ n, s.main = .next n ∧ T ≤ n ∧ next = clear s := by
  cases standing : s.main with
  | next n => simp [act,standing,eq_comm (b := next)]
  | _ => simp [act,standing]

def Serving.Busy : Serving → Prop
  | .handling _ here => here ≠ .idle
  | .idle | .writing _ _ => True

theorem send_busy (w : Worker) (fd : Nat) (left : List Byte) : (w.send fd left).serving.Busy := by
  unfold Worker.send
  dsimp only
  split <;> trivial

-- All that a callback does to its worker: flows go, or stay with their reads sound.
structure Called (w after : Worker) : Prop where
  ready : after.ready = w.ready
  channel : after.channel = w.channel
  exiting : after.m_processExiting = w.m_processExiting
  leaving : after.leaving = w.leaving
  emptied : w.m_tcpSessions = [] → after.m_tcpSessions = []
  busy : w.serving.Busy → after.serving.Busy
  sound : (∀ session ∈ w.m_tcpSessions, Overrun.Sound session.flow) → ∀ session ∈ after.m_tcpSessions, Overrun.Sound session.flow

section
variable {w : Worker} {session : Session} {fd : Nat}

theorem deleteTcpFlow_called (w : Worker) (fd : Nat) : Called w (w.deleteTcpFlow fd).1 where
  ready := rfl
  channel := rfl
  exiting := rfl
  leaving := rfl
  emptied empty := by rw [Worker.deleteTcpFlow,empty]; rfl
  busy := id
  sound all other member := all other (List.mem_of_mem_eraseP member)

theorem change_called (after : Session → Session)
    (kept : (∀ session ∈ w.m_tcpSessions, Overrun.Sound session.flow) →
      ∀ session ∈ w.m_tcpSessions, Overrun.Sound (after session).flow) (busy : w.serving.Busy → serving.Busy) :
    Called w {w.change fd after with serving := serving} where
  ready := rfl
  channel := rfl
  exiting := rfl
  leaving := rfl
  emptied empty := by simp only [Worker.change,empty,List.map_nil]
  busy := busy
  sound all other member := by
    obtain ⟨session,there,rfl⟩ := List.mem_map.mp member
    split
    · exact kept all session there
    · exact all session there

theorem Called.send {after : Worker} (called : Called w after) (fd : Nat) (left : List Byte) : Called w (after.send fd left) :=
  ⟨called.ready,called.channel,called.exiting,called.leaving,called.emptied,fun _ => send_busy _ fd left,called.sound⟩

theorem called_refl (w : Worker) : Called w w := ⟨rfl,rfl,rfl,rfl,id,id,id⟩

theorem data_called (member : session ∈ w.m_tcpSessions) (sized : Overrun.Sized reads)
    (ran : w.data host session reads = some changed) : Called w changed.1 := by
  have fits := fun sound : Overrun.Sound session.flow => (Overrun.arrive_fits host.order host.pb sound sized session.fd).2
  unfold Worker.data at ran
  split at ran
  · cases ran
  · cases ran
    exact deleteTcpFlow_called w session.fd
  · rename_i flow found
    cases ran
    exact change_called _ (fun all _ _ => (fits (all session member) flow (.inl found)).moved _) id
  · rename_i flow type m found
    cases ran
    exact change_called _ (fun all _ _ => (fits (all session member) flow (.inr ⟨type,m,found⟩)).moved _)
      fun _ => Handlers.Local.noConfusion

-- What a callback does is undefined exactly when its chunks do not fit.
theorem Worker.data_fits (sound : Overrun.Sound session.flow) (sized : Overrun.Sized reads) :
    w.data host session reads = none ↔ ¬Overrun.Fits host.order session.flow (Overrun.taken NUM_READ_TRY reads) := by
  rw [← (Overrun.arrive_fits host.order host.pb sound sized session.fd).1,Worker.data]
  cases arrive host.order host.pb session.flow session.fd reads <;> simp

theorem resume_called (pb : Protobuf) (w : Worker) (fd : Nat) (here : Handlers.Local) : Called w (w.resume pb fd here) := by
  cases here with
  | done m => exact (change_called (·.respond m) (fun all session there => (all session there).parsed m) id).send fd _
  | idle => exact ⟨rfl,rfl,rfl,rfl,id,fun _ => trivial,id⟩
  | ready | counted | looked | tested | readAll | readSucc =>
    exact ⟨rfl,rfl,rfl,rfl,id,fun _ => Handlers.Local.noConfusion,id⟩

end

def callback : Move T → Option (Fin T)
  | .data i _ _ | .advance i | .write i _ => some i
  | _ => none

theorem act_callback (called : callback move = some i) (acted : act host s move = some next) :
    next = fail s ∨ ∃ shared changed, Called (s.workers i) changed.1 ∧ next = put {s with shared := shared} i changed := by
  cases move with
  | data j fd reads =>
    cases called
    obtain ⟨_,sized,session,found,rfl⟩ := act_data.mp acted
    cases ran : (s.workers i).data host session reads with
    | none => exact .inl rfl
    | some changed => exact .inr ⟨s.shared,changed,data_called (List.mem_of_find?_eq_some found) sized ran,rfl⟩
  | advance j =>
    cases called
    obtain ⟨fd,here,result,_,_,rfl⟩ := act_advance.mp acted
    cases result with
    | error fault => exact .inl rfl
    | ok moved => exact .inr ⟨moved.2,_,resume_called host.pb (s.workers i) fd moved.1,rfl⟩
  | write j result =>
    cases called
    obtain ⟨fd,left,rest,_,_,rfl⟩ := act_write.mp acted
    exact .inr ⟨s.shared,_,(called_refl _).send fd rest,rfl⟩
  | _ => cases called

theorem server_step : (server F T host).step s move = some next ↔ s.fault = false ∧ act host s move = some next := by
  cases broken : s.fault <;> simp [server,broken]

-- One worker whose socketpair takes that many bytes, with the bloom filter or without.
abbrev solo (enable : Bool) (capacity : Nat) := server (BloomFilter BloomFilter.small) 1 ⟨.little,Codec.codec,enable,capacity⟩

end RemoteDict.Server
