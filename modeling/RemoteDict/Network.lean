import RemoteDict.Connections
import RemoteDict.Framing
import RemoteDict.Response

namespace RemoteDict.Network
open Foundation TcpFlow KeyValue Connections
open Foundation.Block (Byte ByteOrder)
open Handlers (Local)
open Linearization (Act Point Linearizable points)
open ServiceWorker (Address)
open Framing (frame Fresh Assembled)

-- A client's exchange on the connection it has opened for it: what of the frame
-- the server has not read yet, and the answer once the server has written it. The
-- socket takes an answer in one write.
structure Conn where
  id : Nat
  msg : MessageT
  request : Payload
  unread : List Byte
  answer : Option (List Byte)
  closed : Bool

structure State (ι F : Type) where
  service : Connections.State ι F
  conns : ι → Address → Option Conn
  opened : Nat

-- connect: Client::startClient and the write of sendData, up to the server's
-- processEvent. deliver: a callback of the server with these reads. collect: the
-- one read of sendData, which gives so many bytes, and close. hangup: the server
-- finds the end of the stream.
inductive Move (ι : Type) where
  | connect (i : ι) (fd : Int) (address : Address) (msg : MessageT)
  | deliver (i : ι) (address : Address) (chunks : List (List Byte))
  | advance (i : ι)
  | collect (i : ι) (address : Address) (count : Nat)
  | hangup (i : ι) (address : Address) (result : ReadResult)

-- Reads that the server copes with: the first one brings more than the header,
-- and no callback ends with the last four bytes, or fewer, still to come.
structure Smooth (pb : Protobuf) (c : Conn) (chunks : List (List Byte)) : Prop where
  reads : chunks ≠ []
  tries : chunks.length ≤ NUM_READ_TRY
  sized : ∀ chunk ∈ chunks, chunk ≠ [] ∧ chunk.length ≤ BUFLEN
  front : chunks.flatten <+: c.unread
  first : c.unread.length = pb.ByteSizeLong c.request + 4 → ∀ chunk ∈ chunks.head?, 4 < chunk.length
  last : chunks.flatten = c.unread ∨ chunks.flatten.length + 4 < c.unread.length

instance (pb : Protobuf) (c : Conn) (chunks : List (List Byte)) : Decidable (Smooth pb c chunks) :=
  decidable_of_iff (chunks ≠ [] ∧ chunks.length ≤ NUM_READ_TRY ∧ (∀ chunk ∈ chunks, chunk ≠ [] ∧ chunk.length ≤ BUFLEN) ∧
      chunks.flatten <+: c.unread ∧
      (c.unread.length = pb.ByteSizeLong c.request + 4 → ∀ chunk ∈ chunks.head?, 4 < chunk.length) ∧
      (chunks.flatten = c.unread ∨ chunks.flatten.length + 4 < c.unread.length))
    ⟨fun ⟨reads,tries,sized,front,first,last⟩ => ⟨reads,tries,sized,front,first,last⟩,
      fun ⟨reads,tries,sized,front,first,last⟩ => ⟨reads,tries,sized,front,first,last⟩⟩

variable {F : Type} [MembershipFilter F] {ι : Type} [DecidableEq ι]

def withConn (s : State ι F) (i : ι) (address : Address) (conn : Option Conn) : State ι F :=
  {s with conns := Function.update s.conns i (Function.update (s.conns i) address conn)}

section
variable (getAddrStr : Address → Str) (order : ByteOrder) (pb : Protobuf)

def serve (s : State ι F) (move : Connections.Move ι) (i : ι) (address : Address) (conn : Option Conn) : Option (State ι F) :=
  (Connections.step getAddrStr order pb s.service move).map fun service => {withConn s i address conn with service := service}

def connect (s : State ι F) (i : ι) (fd : Int) (address : Address) (msg : MessageT) : Option (State ι F) :=
  match Client.request msg with
  | .ok (some request) =>
    match Client.sendBuffer order pb request with
    | .ok outgoing =>
      if pb.ByteSizeLong request ≤ INT_MAX then
        (serve getAddrStr order pb s (.processEvent i fd address) i address
          (some ⟨s.opened,msg,request,outgoing,none,false⟩)).map fun next => {next with opened := s.opened + 1}
      else none
    | .error _ => none
  | _ => none

def deliver (s : State ι F) (i : ι) (address : Address) (chunks : List (List Byte)) : Option (State ι F) :=
  match s.conns i address with
  | some c =>
    if Smooth pb c chunks then
      serve getAddrStr order pb s (.data i address (chunks.map .got)) i address
        (some {c with unread := c.unread.drop chunks.flatten.length})
    else none
  | none => none

def answering (s : State ι F) (i : ι) : Option (Address × Conn × Payload) :=
  match s.service.handlers.threads i,s.service.serving i with
  | .done m,some (address,_) => (s.conns i address).map fun c => (address,c,m)
  | _,_ => none

def advance (s : State ι F) (i : ι) : Option (State ι F) :=
  match answering s i with
  | some (address,c,m) =>
    serve getAddrStr order pb s (.advance i) i address (some {c with answer := some (sendResponse pb m)})
  | none => (Connections.step getAddrStr order pb s.service (.advance i)).map fun service => {s with service := service}

-- read waits for a first byte, and may give any front part of what has come.
def collect (s : State ι F) (i : ι) (address : Address) (count : Nat) : Option (State ι F) :=
  match s.conns i address with
  | some c =>
    if c.closed = false ∧ 0 < count ∧ count ≤ min MAX (c.answer.getD []).length then
      some (withConn s i address (some {c with closed := true}))
    else none
  | none => none

-- After a close with bytes unread the server's read fails instead.
def endsStream : ReadResult → Bool
  | .got chunk => chunk.isEmpty
  | .failed errno => errno ≠ .EAGAIN

def hangup (s : State ι F) (i : ι) (address : Address) (result : ReadResult) : Option (State ι F) :=
  match s.conns i address with
  | some c => if c.closed ∧ endsStream result then serve getAddrStr order pb s (.data i address [result]) i address none else none
  | none => none

def step (s : State ι F) : Move ι → Option (State ι F)
  | .connect i fd address msg => connect getAddrStr order pb s i fd address msg
  | .deliver i address chunks => deliver getAddrStr order pb s i address chunks
  | .advance i => advance getAddrStr order pb s i
  | .collect i address count => collect s i address count
  | .hangup i address result => hangup getAddrStr order pb s i address result

end

-- The clients connect once start has returned.
def network (ι F : Type) [MembershipFilter F] [DecidableEq ι] (getAddrStr : Address → Str) (order : ByteOrder) (pb : Protobuf)
    (enable : Bool) : Machine (State ι F) (Move ι) where
  start := ⟨(service ι F getAddrStr order pb enable).start,fun _ _ => none,0⟩
  step := step getAddrStr order pb

-- What the server has written, whether the client's read gave all of it that its
-- buffer holds, and the payload that ends up in m_results.
structure Received where
  answer : List Byte
  whole : Bool
  payload : Payload
  deriving DecidableEq, Repr

def received (pb : Protobuf) (answer : List Byte) (count : Nat) : Received :=
  ⟨answer,decide (count = min MAX answer.length),(Client.readResponse pb (answer.take count)).2⟩

-- What the callers of Client::sendData see: their message, and what they receive.
def observe (pb : Protobuf) (s : State ι F) : Move ι → List (Act Nat MessageT Received)
  | .connect _ _ _ msg => [.invoked s.opened msg]
  | .collect i address count =>
    match s.conns i address with
    | some c => [.returned c.id (received pb (c.answer.getD []) count)]
    | none => []
  | .deliver _ _ _ | .advance _ | .hangup _ _ _ => []

-- The response of the dictionary's reply is written. With 80 bytes at most it is
-- recorded as it is when it is read whole.
inductive Obtains (pb : Protobuf) (enable : Bool) : MessageT → Call → Reply → Received → Prop where
  | obtains : Client.request msg = .ok (some request) → request.requesttype_ = some type →
      Writes enable request reply response → recorded.answer = sendResponse pb response →
      (recorded.whole = true → pb.ByteSizeLong response ≤ MAX → recorded.payload = response) →
      Obtains pb enable msg (callOf request type) reply recorded

def current (s : State ι F) (i : ι) : Option Nat := (s.service.serving i).bind fun held => (s.conns i held.1).map Conn.id

def note (pb : Protobuf) (s : State ι F) (move : Move ι) : List (Point Nat MessageT Received Call Reply) :=
  match move with
  | .advance i =>
    match current s i with
    | some id => points id (effect s.service.handlers.shared (s.service.handlers.threads i))
    | none => []
  | .connect _ _ _ _ | .deliver _ _ _ | .collect _ _ _ | .hangup _ _ _ => (observe pb s move).map .act

def Reads (payload : List Byte) (count : Nat) (flow : TcpFlow) : Prop :=
  Fresh flow ∧ count = 0 ∨ Assembled payload count flow

-- Where an exchange stands at its place in the server, and the effect it has had.
inductive Phase (pb : Protobuf) (order : ByteOrder) (enable : Bool) (s : Connections.State ι F) (i : ι) (address : Address)
    (c : Conn) : Option (Call × Reply) → Prop where
  | reading : (s.workers i).heap address = some flow → Reads (pb.encode c.request) count flow →
      (∀ flow, s.serving i ≠ some (address,flow)) → c.unread = (frame order (pb.encode c.request)).drop count →
      c.unread ≠ [] → c.answer = none → Phase pb order enable s i address c none
  | handling : (s.workers i).heap address = some flow → s.serving i = some (address,later) →
      later.m_selfAddr = flow.m_selfAddr → Overrun.Sound later → c.request.requesttype_ = some type →
      Within enable c.request type (s.handlers.threads i) took → c.unread = [] → c.answer = none →
      Phase pb order enable s i address c took
  | answered : (s.workers i).heap address = some flow → (∀ flow, s.serving i ≠ some (address,flow)) →
      c.request.requesttype_ = some type → Writes enable c.request reply response → c.answer = some (sendResponse pb response) →
      c.unread = [] → Phase pb order enable s i address c (some (callOf c.request type,reply))

structure Elsewhere (s next : Connections.State ι F) (i : ι) (address : Address) : Prop where
  workers : ∀ j, j ≠ i → next.workers j = s.workers j
  heap : ∀ b, b ≠ address → (next.workers i).heap b = (s.workers i).heap b
  others : ∀ j, j ≠ i → next.serving j = s.serving j ∧ next.handlers.threads j = s.handlers.threads j
  serving : ∀ b flow, b ≠ address → s.serving i ≠ some (b,flow) ∧ next.serving i ≠ some (b,flow)

structure Asks (pb : Protobuf) (c : Conn) : Prop where
  request : Client.request c.msg = .ok (some c.request)
  small : pb.ByteSizeLong c.request ≤ INT_MAX

structure Tracks (getAddrStr : Address → Str) (pb : Protobuf) (order : ByteOrder) (enable : Bool) (s : State ι F) : Prop where
  standing : ∀ i, ∃ spoken, Standing pb enable s.service i spoken
  sound : ∀ i, ServiceWorker.Sound getAddrStr (s.service.workers i)
  staying : ∀ i, (s.service.workers i).m_processExiting = false
  served : ∀ i address flow, s.service.serving i = some (address,flow) → (s.conns i address).isSome
  clear : s.service.handlers.fault = none
  apart : ∀ i a c j b d, s.conns i a = some c → s.conns j b = some d → c.id = d.id → j = i ∧ b = a
  named : ∀ i a c, s.conns i a = some c → c.id < s.opened
  asks : ∀ i a c, s.conns i a = some c → Asks pb c
  phases : ∀ i a c, s.conns i a = some c → ∃ took, Phase pb order enable s.service i a c took
  ended : ∀ i a c, s.conns i a = some c → c.closed = true → c.answer.isSome

-- What a step does to one exchange.
inductive Turns (pb : Protobuf) (order : ByteOrder) (enable : Bool) (s next : State ι F) (i : ι) (address : Address) :
    List (Point Nat MessageT Received Call Reply) → Prop where
  | opens : s.conns i address = none → next.conns i address = some c → c.id = s.opened → next.opened = s.opened + 1 →
      c.closed = false → Asks pb c →
      Phase pb order enable next.service i address c none → Turns pb order enable s next i address [.act (.invoked s.opened c.msg)]
  | goes : s.conns i address = some c → next.conns i address = some later → next.opened = s.opened → later.id = c.id →
      later.closed = c.closed → later.msg = c.msg → Asks pb later → (c.answer.isSome → later.answer.isSome) →
      (∀ took, Phase pb order enable s.service i address c took →
        Phase pb order enable next.service i address later (took.or more) ∧ (took.isSome → more = none)) →
      Turns pb order enable s next i address (points c.id more)
  | collects : s.conns i address = some c → next.conns i address = some {c with closed := true} → next.opened = s.opened →
      c.closed = false → c.answer = some bytes → next.service = s.service →
      Turns pb order enable s next i address [.act (.returned c.id (received pb bytes count))]
  | ends : s.conns i address = some c → c.closed = true → next.conns i address = none → next.opened = s.opened →
      Turns pb order enable s next i address []

structure Change (pb : Protobuf) (order : ByteOrder) (enable : Bool) (s next : State ι F) (i : ι) (address : Address)
    (notes : List (Point Nat MessageT Received Call Reply)) : Prop where
  conns : ∀ j b, ¬(j = i ∧ b = address) → next.conns j b = s.conns j b
  elsewhere : next.service = s.service ∨ Elsewhere s.service next.service i address
  turns : Turns pb order enable s next i address notes

-- What a step of a handler is: one before the last, or the answer.
inductive Advanced (pb : Protobuf) (s : State ι F) (i : ι) : State ι F → Prop where
  | runs : s.service.serving i = some (address,flow) → s.conns i address = some c →
      (∀ m, s.service.handlers.threads i ≠ .done m) →
      Handlers.advance (s.service.handlers.threads i) s.service.handlers.shared = some (.ok (there,shared)) →
      Advanced pb s i {s with service := {s.service with handlers := {s.service.handlers with
        shared := shared,threads := Function.update s.service.handlers.threads i there}}}
  | answers : s.service.handlers.threads i = .done m → s.service.serving i = some (address,flow) → s.conns i address = some c →
      Advanced pb s i {withConn s i address (some {c with answer := some (sendResponse pb m)}) with service :=
        {withWorker s.service i (ServiceWorker.keep (s.service.workers i) address (some {flow with m_payload := m})) with
          handlers := {s.service.handlers with threads := Function.update s.service.handlers.threads i .idle}
          serving := Function.update s.service.serving i none}}

-- How far a client is with its exchange: it has none or has had its answer, or it
-- is somewhere between the two.
inductive Stands (pb : Protobuf) (order : ByteOrder) (enable : Bool) (s : State ι F) (id : Nat) :
    List (Point Nat MessageT Received Call Reply) → Prop where
  | silent : (∀ i a c, s.conns i a = some c → c.id = id → c.closed = true) → Stands pb order enable s id []
  | calling : s.conns i a = some c → c.id = id → c.closed = false → Asks pb c → Phase pb order enable s.service i a c took →
      Stands pb order enable s id (.act (.invoked id c.msg) :: points id took)

-- A client's read is the only step in which the server has no part.
inductive Carries (getAddrStr : Address → Str) (order : ByteOrder) (pb : Protobuf) (s next : State ι F) : Move ι → Prop where
  | handler : Connections.step getAddrStr order pb s.service (.advance i) = some next.service →
      Carries getAddrStr order pb s next (.advance i)
  | loop : Connections.step getAddrStr order pb s.service moved = some next.service → (∀ i, move ≠ .advance i) →
      (∀ i, moved ≠ .advance i) → Carries getAddrStr order pb s next move
  | client : next.service = s.service → Carries getAddrStr order pb s next (.collect i address count)

variable {getAddrStr : Address → Str} {order : ByteOrder} {pb : Protobuf} {enable : Bool} {s next : Connections.State ι F}
  {i j : ι} {address b : Address} {c : Conn} {took : Option (Call × Reply)}

omit [MembershipFilter F] [DecidableEq ι] in
theorem Phase.elsewhere (phase : Phase pb order enable s j b c took) (elsewhere : Elsewhere s next i address)
    (apart : ¬(j = i ∧ b = address)) : Phase pb order enable next j b c took := by
  have heap : (next.workers j).heap b = (s.workers j).heap b := by
    by_cases same : j = i
    · subst same
      exact elsewhere.heap b fun there => apart ⟨rfl,there⟩
    · rw [elsewhere.workers j same]
  have unserved : (∀ flow, s.serving j ≠ some (b,flow)) → ∀ flow, next.serving j ≠ some (b,flow) := by
    intro unserved flow
    by_cases same : j = i
    · subst same
      exact (elsewhere.serving b flow fun there => apart ⟨rfl,there⟩).2
    · rw [(elsewhere.others j same).1]
      exact unserved flow
  cases phase with
  | reading live along idle unread more answer => exact .reading (heap.trans live) along (unserved idle) unread more answer
  | handling live serves addr sound typed within unread answer =>
    have same : j ≠ i := by
      rintro rfl
      exact (elsewhere.serving b _ fun there => apart ⟨rfl,there⟩).1 serves
    obtain ⟨serving,threads⟩ := elsewhere.others j same
    rw [← threads] at within
    exact .handling (heap.trans live) (serving.trans serves) addr sound typed within unread answer
  | answered live idle typed written answer unread =>
    exact .answered (heap.trans live) (unserved idle) typed written answer unread

omit [MembershipFilter F] [DecidableEq ι] in
theorem Change.phases {s next : State ι F} (change : Change pb order enable s next i address notes)
    (apart : ¬(j = i ∧ b = address)) (phase : Phase pb order enable s.service j b c took) :
    Phase pb order enable next.service j b c took := by
  rcases change.elsewhere with same | elsewhere
  · rw [same]
    exact phase
  · exact phase.elsewhere elsewhere apart

omit [MembershipFilter F] [DecidableEq ι] in
theorem Phase.collected (phase : Phase pb order enable s i address c took) :
    Phase pb order enable s i address {c with closed := true} took := by
  cases phase with
  | reading live along idle unread more answer => exact .reading live along idle unread more answer
  | handling live serves addr sound typed within unread answer =>
    exact .handling live serves addr sound typed within unread answer
  | answered live idle typed written answer unread => exact .answered live idle typed written answer unread

omit [MembershipFilter F] [DecidableEq ι] in
theorem free (standing : Standing pb enable s i spoken) (looping : inLoop s i = true) : s.serving i = none := by
  obtain ⟨_,rests⟩ := of_decide_eq_true looping
  rw [Standing,rests] at standing
  generalize s.serving i = held at standing
  cases standing with
  | idle => rfl
  | handling _ within => cases within

omit [MembershipFilter F] [DecidableEq ι] in
theorem unserved (idle : s.serving i = none) (flow : TcpFlow) : s.serving i ≠ some (b,flow) :=
  fun busy => Option.some_ne_none _ (busy.symm.trans idle)

omit [MembershipFilter F] in
theorem withWorker_elsewhere (idle : s.serving i = none) (heap : ∀ b, b ≠ address → worker.heap b = (s.workers i).heap b) :
    Elsewhere s (withWorker s i worker) i address := by
  refine ⟨fun j other => Function.update_of_ne other ..,?_,fun _ _ => ⟨rfl,rfl⟩,fun b flow _ => ?_⟩
  · intro b other
    rw [withWorker_self]
    exact heap b other
  · exact ⟨unserved idle flow,unserved idle flow⟩

theorem accepted (sound : ServiceWorker.Sound getAddrStr (s.workers i)) (injective : getAddrStr.Injective)
    (staying : (s.workers i).m_processExiting = false) (standing : Standing pb enable s i spoken)
    (stepped : Connections.step getAddrStr order pb s (.processEvent i fd address) = some next) :
    ∃ worker, next = withWorker s i worker ∧ ServiceWorker.Sound getAddrStr worker ∧ worker.m_processExiting = false ∧
      worker.heap address = some (TcpFlow.new (getAddrStr address)) ∧ (s.workers i).heap address = none ∧
      s.serving i = none ∧ ∀ b, b ≠ address → worker.heap b = (s.workers i).heap b := by
  obtain ⟨⟨looping,fresh⟩,same⟩ := Option.ite_none_right_eq_some.mp stepped
  cases same
  have added := sound.added injective fresh fd
  have vacant := sound.vacant injective fresh
  have result : ServiceWorker.processEvent getAddrStr (s.workers i) fd address = {s.workers i with
      heap := Function.update (s.workers i).heap address (some (TcpFlow.new (getAddrStr address)))
      events := (s.workers i).events.insert address fd
      m_tcpSessions := (s.workers i).m_tcpSessions.insert (getAddrStr address) address} := by
    rw [ServiceWorker.processEvent,if_neg (by rw [staying]; exact Bool.false_ne_true),if_neg vacant]
  refine ⟨_,rfl,added,?_⟩
  rw [result]
  exact ⟨staying,Function.update_self ..,fresh,free standing looping,fun b other => Function.update_of_ne other ..⟩

theorem assembled_sound {payload : List Byte} (fits : payload.length + 4 < 2^32) (along : Assembled payload count flow) :
    Overrun.Sound flow := by
  have written : (payload.take (count - 4)).length = count - 4 := by
    rw [List.length_take]
    exact Nat.min_eq_left (by have := along.bounded; omega)
  constructor
  · intro none
    rw [along.block] at none
    cases none
  · intro block currlen held length
    rw [along.block] at held
    rw [along.currlen] at length
    cases held
    cases length
    rw [Foundation.Block.filled_length (by rw [List.length_take]; exact Nat.min_le_right _ _)]
    have bounded := along.bounded
    omega

-- What a callback makes of reads that the server copes with.
theorem delivered {payload : List Byte} {flow : TcpFlow} (fits : payload.length + 4 < 2^32)
    (before : Reads payload count flow) (nonempty : ∀ chunk ∈ chunks, chunk ≠ [])
    (tries : chunks.length ≤ NUM_READ_TRY) (reads : chunks ≠ [])
    (first : count = 0 → ∀ chunk ∈ chunks.head?, 4 < chunk.length)
    (front : chunks.flatten <+: (frame order payload).drop count) (fd : Int) :
    ∃ later, readLoop order NUM_READ_TRY {flow with m_clientFd := fd} (chunks.map .got) = .ok (later,false) ∧
      Assembled payload (count + chunks.flatten.length) later := by
  obtain ⟨rest,split⟩ := front
  rcases before with ⟨fresh,rfl⟩ | along
  · cases chunks with
    | nil => exact absurd rfl reads
    | cons chunk chunks =>
      have long : 4 < chunk.length := first rfl chunk rfl
      have arrived : frame order payload = chunk ++ (chunks.flatten ++ rest) := by
        rw [← List.append_assoc,← List.flatten_cons]
        exact split.symm
      obtain ⟨later,looped,along⟩ := Framing.loop_fresh fresh fits long arrived (fun c member => nonempty c (.tail _ member))
        tries fd
      refine ⟨later,looped,?_⟩
      rw [Nat.zero_add,List.flatten_cons,List.length_append]
      exact along
  · exact Framing.loop_assembled along fits split.symm nonempty tries fd

theorem Asks.fits (asks : Asks pb c) : (pb.encode c.request).length + 4 < 2^32 := by
  have limit : INT_MAX = 2147483647 := rfl
  have small := asks.small
  rw [Protobuf.ByteSizeLong] at small
  omega

theorem Smooth.unread (smooth : Smooth pb c chunks) : c.unread ≠ [] := by
  intro empty
  have front := smooth.front
  rw [empty,List.prefix_nil] at front
  obtain ⟨chunk,rest,rfl⟩ := List.exists_cons_of_ne_nil smooth.reads
  exact (smooth.sized chunk (.head _)).1 (List.append_eq_nil_iff.mp front).1

structure Left (getAddrStr : Address → Str) (s next : Connections.State ι F) (i : ι) (address : Address) : Prop where
  elsewhere : Elsewhere s next i address
  sound : ServiceWorker.Sound getAddrStr (next.workers i)
  staying : (next.workers i).m_processExiting = (s.workers i).m_processExiting
  clear : next.handlers.fault = s.handlers.fault

theorem arrive_waits {flow later : TcpFlow}
    (looped : readLoop order NUM_READ_TRY {flow with m_clientFd := fd} reads = .ok (later,false))
    (short : later.m_lenTillnow < later.m_payloadLen) : arrive order pb flow fd reads = .waiting later := by
  rw [arrive,looped]
  exact if_neg (Nat.not_le.mpr short)

theorem arrive_request {flow later : TcpFlow}
    (looped : readLoop order NUM_READ_TRY {flow with m_clientFd := fd} reads = .ok (later,false))
    (whole : later.m_payloadLen ≤ later.m_lenTillnow)
    (typed : (pb.ParseFromArray later.received).2.requesttype_ = some type) :
    arrive order pb flow fd reads = .request later type (pb.ParseFromArray later.received).2 := by
  simp only [arrive,looped,if_pos whole,typed]

theorem reads_next (asks : Asks pb c) (smooth : Smooth pb c chunks) (before : Reads (pb.encode c.request) count flow)
    (unread : c.unread = (frame order (pb.encode c.request)).drop count) (fd : Int) :
    ∃ later, readLoop order NUM_READ_TRY {flow with m_clientFd := fd} (chunks.map .got) = .ok (later,false) ∧
      Assembled (pb.encode c.request) (count + chunks.flatten.length) later ∧
      (c.unread.drop chunks.flatten.length).length + (count + chunks.flatten.length) = (pb.encode c.request).length + 4 := by
  have total : c.unread.length = (pb.encode c.request).length + 4 - count := by
    rw [unread,List.length_drop,Framing.frame_length]
  have first : count = 0 → ∀ chunk ∈ chunks.head?, 4 < chunk.length :=
    fun zero => smooth.first (by rw [total,zero]; rfl)
  have inside : count ≤ (pb.encode c.request).length + 4 := by
    rcases before with ⟨_,rfl⟩ | before
    · exact Nat.zero_le _
    · exact before.bounded
  have front := smooth.front
  have taken := front.length_le
  rw [unread] at front
  obtain ⟨later,looped,along⟩ := delivered asks.fits before (fun chunk member => (smooth.sized chunk member).1) smooth.tries
    smooth.reads first front fd
  refine ⟨later,looped,along,?_⟩
  rw [List.length_drop]
  omega

omit [MembershipFilter F] in
theorem keep_left (idle : s.serving i = none) (sound : ServiceWorker.Sound getAddrStr (s.workers i))
    (live : (s.workers i).heap address = some flow) (same : later.m_selfAddr = flow.m_selfAddr)
    (receiving : Overrun.Sound later) :
    Left getAddrStr s (withWorker s i (ServiceWorker.keep (s.workers i) address (some later))) i address := by
  refine ⟨withWorker_elsewhere idle fun b other => Function.update_of_ne other ..,?_,?_,rfl⟩
  · rw [withWorker_self]
    exact sound.kept live same receiving
  · rw [withWorker_self]
    rfl

omit [MembershipFilter F] in
theorem request_left (idle : s.serving i = none) (sound : ServiceWorker.Sound getAddrStr (s.workers i)) (there : Local) :
    Left getAddrStr s {s with handlers := {s.handlers with threads := Function.update s.handlers.threads i there}
                              serving := Function.update s.serving i (some (address,later))} i address := by
  refine ⟨⟨fun _ _ => rfl,fun _ _ => rfl,?_,fun b flow other => ⟨unserved idle flow,?_⟩⟩,sound,rfl,rfl⟩
  · intro j other
    exact ⟨Function.update_of_ne other ..,Function.update_of_ne other ..⟩
  · intro serves
    cases (Function.update_self i _ s.serving).symm.trans serves
    exact other rfl

-- A callback either takes more of the frame or hands all of it to a handler.
theorem deliver_left (round : pb.RoundTrip) (asks : Asks pb c) (sound : ServiceWorker.Sound getAddrStr (s.workers i))
    (standing : Standing pb enable s i spoken) (smooth : Smooth pb c chunks) (phase : Phase pb order enable s i address c took)
    (stepped : Connections.step getAddrStr order pb s (.data i address (chunks.map .got)) = some next) :
    Left getAddrStr s next i address ∧ took = none ∧
      Phase pb order enable next i address {c with unread := c.unread.drop chunks.flatten.length} none := by
  obtain ⟨looping,called⟩ := Option.ite_none_right_eq_some.mp stepped
  have idle := free standing looping
  cases phase with
  | handling _ serves =>
    rw [idle] at serves
    cases serves
  | answered _ _ _ _ _ unread => exact absurd unread smooth.unread
  | @reading flow count live before _ unread _ answer =>
    unfold callback at called
    rw [live] at called
    cases event : (s.workers i).events.lookup address with
    | none =>
      rw [event] at called
      cases called
    | some fd =>
      rw [event] at called
      dsimp only at called
      obtain ⟨later,looped,along,left⟩ := reads_next asks smooth before unread fd
      have same : later.m_selfAddr = {flow with m_clientFd := fd}.m_selfAddr := readLoop_addr looped
      have receiving := assembled_sound asks.fits along
      by_cases read : c.unread.drop chunks.flatten.length = []
      · rw [read,List.length_nil,Nat.zero_add] at left
        rw [left] at along
        have received : (pb.ParseFromArray later.received).2 = c.request := by
          rw [Framing.assembled_received along,round _ (Client.request_typed asks.request)]
        obtain ⟨type,typed⟩ := Option.isSome_iff_exists.mp (Client.request_typed asks.request)
        have asking : (pb.ParseFromArray later.received).2.requesttype_ = some type := by rw [received,typed]
        have enough : later.m_payloadLen ≤ later.m_lenTillnow := by
          rw [along.length,along.till]
          exact Nat.le_add_right _ _
        rw [arrive_request looped enough asking,received] at called
        obtain ⟨handled,begun,rfl⟩ := Option.map_eq_some_iff.mp called
        obtain ⟨_,_,rfl⟩ := Handlers.step_receive.mp begun
        have within : Within enable c.request type (Function.update s.handlers.threads i (.ready type c.request) i) none := by
          rw [Function.update_self]
          exact .ready
        have busy : Function.update s.serving i (some (address,later)) i = some (address,later) := Function.update_self ..
        exact ⟨request_left idle sound _,rfl,.handling live busy same receiving typed within read answer⟩
      · have more := List.length_pos_iff.mpr read
        have rest := smooth.last.resolve_left fun all => read (by rw [all,List.drop_length])
        have short : later.m_lenTillnow < later.m_payloadLen := by
          rw [along.till,along.length]
          rw [List.length_drop] at left
          omega
        rw [arrive_waits looped short] at called
        cases called
        have kept : ((withWorker s i (ServiceWorker.keep (s.workers i) address (some later))).workers i).heap address =
            some later := by
          rw [withWorker_self]
          exact Function.update_self ..
        refine ⟨keep_left idle sound live same receiving,rfl,.reading kept (.inr along) (unserved idle) ?_ read answer⟩
        show c.unread.drop chunks.flatten.length = (frame order (pb.encode c.request)).drop (count + chunks.flatten.length)
        rw [unread,List.drop_drop]

theorem runs_left (sound : enable = true → NoFalseNegatives F) (holds : Holds enable s.handlers.shared.dictionary entries)
    (there : Local) (moved : Handlers.advance (s.handlers.threads i) s.handlers.shared = some (.ok (there,shared)))
    (inside : ∀ m, s.handlers.threads i ≠ .done m) (serves : s.serving i = some (address,later))
    (phase : Phase pb order enable s i address c took) :
    Phase pb order enable {s with handlers := {s.handlers with
      shared := shared,threads := Function.update s.handlers.threads i there}} i address c
        (took.or (effect s.handlers.shared (s.handlers.threads i))) ∧
      (took.isSome → effect s.handlers.shared (s.handlers.threads i) = none) := by
  cases phase with
  | reading _ _ idle => exact absurd serves (idle _)
  | answered _ idle => exact absurd serves (idle _)
  | handling live serves addr receiving typed within unread answer =>
    obtain ⟨_,here,_⟩ | ⟨further,once⟩ := advance_within sound holds within moved
    · exact absurd here (inside _)
    · refine ⟨.handling live serves addr receiving typed ?_ unread answer,once⟩
      show Within enable c.request _ (Function.update s.handlers.threads i there i) _
      rw [Function.update_self]
      exact further

omit [MembershipFilter F] in
theorem runs_elsewhere (serves : s.serving i = some (address,later)) (there : Local) (shared : Shared F) :
    Elsewhere s {s with handlers := {s.handlers with
      shared := shared,threads := Function.update s.handlers.threads i there}} i address := by
  refine ⟨fun _ _ => rfl,fun _ _ => rfl,fun j other => ⟨rfl,Function.update_of_ne other ..⟩,fun b flow other => ?_⟩
  have apart : s.serving i ≠ some (b,flow) := by
    rw [serves]
    rintro ⟨⟩
    exact other rfl
  exact ⟨apart,apart⟩

omit [MembershipFilter F] in
theorem ends_left (sound : ServiceWorker.Sound getAddrStr (s.workers i)) (here : s.handlers.threads i = .done m)
    (serves : s.serving i = some (address,flow)) (phase : Phase pb order enable s i address c took)
    (advances : next = {withWorker s i (ServiceWorker.keep (s.workers i) address (some {flow with m_payload := m})) with
      handlers := {s.handlers with threads := Function.update s.handlers.threads i .idle}
      serving := Function.update s.serving i none}) :
    Left getAddrStr s next i address ∧
      Phase pb order enable next i address {c with answer := some (sendResponse pb m)} took := by
  subst advances
  cases phase with
  | reading _ _ idle => exact absurd serves (idle _)
  | answered _ idle => exact absurd serves (idle _)
  | @handling before later type _ live also addr receiving typed within unread answer =>
    cases serves.symm.trans also
    have workers : (withWorker s i (ServiceWorker.keep (s.workers i) address (some {flow with m_payload := m}))).workers i =
        ServiceWorker.keep (s.workers i) address (some {flow with m_payload := m}) := withWorker_self ..
    have kept : ServiceWorker.Sound getAddrStr (ServiceWorker.keep (s.workers i) address (some {flow with m_payload := m})) :=
      sound.kept live addr ⟨receiving.waiting,receiving.inside⟩
    rw [← workers] at kept
    rw [here] at within
    cases within with
    | done written =>
      have own := (congrArg (fun worker => worker.heap address) workers).trans (Function.update_self ..)
      refine ⟨⟨⟨?_,?_,?_,?_⟩,?_,?_,rfl⟩,.answered own ?_ typed written rfl unread⟩
      · exact fun j other => Function.update_of_ne other ..
      · intro b other
        exact (congrArg (fun worker => worker.heap b) workers).trans (Function.update_of_ne other ..)
      · exact fun j other => ⟨Function.update_of_ne other ..,Function.update_of_ne other ..⟩
      · intro b other differ
        refine ⟨?_,?_⟩
        · rw [serves]
          rintro ⟨⟩
          exact differ rfl
        · intro busy
          have none := (Function.update_self i _ s.serving).symm.trans busy
          cases none
      · exact kept
      · exact (congrArg ServiceWorker.State.m_processExiting workers).trans rfl
      · intro flow busy
        have none := (Function.update_self i _ s.serving).symm.trans busy
        cases none

theorem arrive_over (flow : TcpFlow) (fd : Int) (ends : endsStream result = true) :
    arrive order pb flow fd [result] = .gone flow.m_selfAddr := by
  cases result with
  | got chunk =>
    obtain rfl := List.isEmpty_iff.mp ends
    rfl
  | failed errno =>
    have stops : errno ≠ .EAGAIN := of_decide_eq_true ends
    have looped : readLoop order NUM_READ_TRY {flow with m_clientFd := fd} [.failed errno] = .ok ({flow with m_clientFd := fd},true) :=
      if_pos stops
    rw [arrive,looped]

theorem hangup_left (sound : ServiceWorker.Sound getAddrStr (s.workers i)) (standing : Standing pb enable s i spoken)
    (ends : endsStream result = true) (stepped : Connections.step getAddrStr order pb s (.data i address [result]) = some next) :
    Left getAddrStr s next i address ∧ next.serving i = none := by
  obtain ⟨looping,called⟩ := Option.ite_none_right_eq_some.mp stepped
  have idle := free standing looping
  unfold callback at called
  cases event : (s.workers i).events.lookup address with
  | none =>
    rw [event] at called
    cases called
  | some fd =>
    obtain ⟨flow,live,held⟩ := sound.watched event
    rw [event,live] at called
    dsimp only at called
    rw [arrive_over flow fd ends] at called
    cases called
    have alone := ServiceWorker.removed_alone held
    have staying : (ServiceWorker.deleteTcpFlow (s.workers i) flow.m_selfAddr).m_processExiting =
        (s.workers i).m_processExiting := by
      rw [ServiceWorker.deleteTcpFlow,held]
      rfl
    refine ⟨⟨withWorker_elsewhere idle alone.flows,?_,?_,rfl⟩,idle⟩
    · rw [withWorker_self]
      exact sound.removed held
    · rw [withWorker_self]
      exact staying

section
variable {s next : State ι F}

omit [MembershipFilter F] [DecidableEq ι] in
theorem Turns.origin (turns : Turns pb order enable s next i address notes) (held : next.conns i address = some later) :
    (later.id = s.opened ∧ next.opened = s.opened + 1 ∧ later.closed = false) ∨
      ∃ c, s.conns i address = some c ∧ later.id = c.id ∧ next.opened = s.opened ∧ (c.answer.isSome → later.answer.isSome) ∧
        (later.closed = true → c.closed = true ∨ c.answer.isSome) := by
  cases turns with
  | opens _ there id opened closed _ _ =>
    cases there.symm.trans held
    exact .inl ⟨id,opened,closed⟩
  | goes here there opened id closed _ _ answer _ =>
    cases there.symm.trans held
    exact .inr ⟨_,here,id,opened,answer,fun done => .inl (closed ▸ done)⟩
  | collects here there opened open_ answer _ =>
    cases there.symm.trans held
    exact .inr ⟨_,here,rfl,opened,id,fun _ => .inr (by rw [answer]; rfl)⟩
  | ends _ _ there _ =>
    rw [there] at held
    cases held

omit [MembershipFilter F] [DecidableEq ι] in
theorem Turns.asks (turns : Turns pb order enable s next i address notes)
    (asks : ∀ c, s.conns i address = some c → Asks pb c) (held : next.conns i address = some later) : Asks pb later := by
  cases turns with
  | opens _ there _ _ _ asks _ =>
    cases there.symm.trans held
    exact asks
  | goes _ there _ _ _ _ asks _ _ =>
    cases there.symm.trans held
    exact asks
  | collects here there _ _ _ _ =>
    cases there.symm.trans held
    exact ⟨(asks _ here).request,(asks _ here).small⟩
  | ends _ _ there _ =>
    rw [there] at held
    cases held

omit [MembershipFilter F] in
theorem Change.each {P : ι → Address → Conn → Prop} (change : Change pb order enable s next i address notes)
    (own : ∀ c, next.conns i address = some c → P i address c)
    (others : ∀ j b c, ¬(j = i ∧ b = address) → s.conns j b = some c → P j b c) (held : next.conns j b = some c) : P j b c := by
  by_cases here : j = i ∧ b = address
  · obtain ⟨rfl,rfl⟩ := here
    exact own c held
  · rw [change.conns j b here] at held
    exact others j b c here held

section
variable (tracks : Tracks getAddrStr pb order enable s) (change : Change pb order enable s next i address notes)
include tracks change

omit [MembershipFilter F] in
theorem Tracks.lasting (held : next.conns j b = some later) :
    ∀ k a c, s.conns k a = some c → later.id = c.id → j = k ∧ b = a := by
  refine change.each (P:=fun j b later => ∀ k a c, s.conns k a = some c → later.id = c.id → j = k ∧ b = a) ?_ ?_ held
  · intro later there k a c before same
    rcases change.turns.origin there with ⟨id,_⟩ | ⟨d,here,id,_⟩
    · have named := tracks.named k a c before
      omega
    · exact tracks.apart k a c i address d before here (same.symm.trans id)
  · intro j b later _ there k a c before same
    exact tracks.apart k a c j b later before there same.symm

omit [MembershipFilter F] in
theorem Tracks.named_later (held : next.conns j b = some c) : c.id < next.opened := by
  have opened : s.opened ≤ next.opened := by
    cases change.turns with
    | opens _ _ _ opened => rw [opened]; exact Nat.le_succ _
    | goes _ _ opened | collects _ _ opened | ends _ _ _ opened => exact Nat.le_of_eq opened.symm
  refine change.each (P:=fun _ _ c => c.id < next.opened) ?_ ?_ held
  · intro c there
    rcases change.turns.origin there with ⟨id,more,_⟩ | ⟨d,before,id,_⟩
    · omega
    · have named := tracks.named _ _ d before
      omega
  · intro j b c _ there
    exact Nat.lt_of_lt_of_le (tracks.named j b c there) opened

omit [MembershipFilter F] in
theorem Tracks.apart_later (here : next.conns j b = some c) :
    ∀ k a d, next.conns k a = some d → c.id = d.id → k = j ∧ a = b := by
  intro k a d there
  refine change.each (P:=fun k a d => c.id = d.id → k = j ∧ a = b) ?_ ?_ there
  · intro d own same
    rcases change.turns.origin own with ⟨id,_⟩ | ⟨e,before,id,_⟩
    · -- The new one: an old one has not its id, so the other one is at this place too.
      by_cases also : j = i ∧ b = address
      · exact ⟨also.1.symm,also.2.symm⟩
      · rw [change.conns j b also] at here
        have named := tracks.named j b c here
        omega
    · obtain ⟨rfl,rfl⟩ := tracks.lasting change here i address e before (same.trans id)
      exact ⟨rfl,rfl⟩
  · intro k a d _ before same
    obtain ⟨rfl,rfl⟩ := tracks.lasting change here k a d before same
    exact ⟨rfl,rfl⟩

omit [MembershipFilter F] in
theorem Tracks.phases_later (held : next.conns j b = some c) : ∃ took, Phase pb order enable next.service j b c took := by
  refine change.each (P:=fun j b c => ∃ took, Phase pb order enable next.service j b c took) ?_ ?_ held
  · intro c there
    cases change.turns with
    | opens _ also _ _ _ _ phase =>
      cases also.symm.trans there
      exact ⟨none,phase⟩
    | goes here also _ _ _ _ _ _ phases =>
      cases also.symm.trans there
      obtain ⟨took,phase⟩ := tracks.phases _ _ _ here
      exact ⟨_,(phases took phase).1⟩
    | collects here also _ _ _ same =>
      cases also.symm.trans there
      obtain ⟨took,phase⟩ := tracks.phases _ _ _ here
      rw [same]
      exact ⟨took,phase.collected⟩
    | ends _ _ gone _ =>
      rw [gone] at there
      cases there
  · intro j b c own there
    obtain ⟨took,phase⟩ := tracks.phases j b c there
    exact ⟨took,change.phases own phase⟩

omit [MembershipFilter F] in
theorem Tracks.ended_later (held : next.conns j b = some c) : c.closed = true → c.answer.isSome := by
  refine change.each (P:=fun _ _ c => c.closed = true → c.answer.isSome) ?_ ?_ held
  · intro c there closed
    rcases change.turns.origin there with ⟨_,_,open_⟩ | ⟨d,before,_,_,answer,reason⟩
    · rw [open_] at closed
      cases closed
    · rcases reason closed with also | given
      · exact answer (tracks.ended _ _ d before also)
      · exact answer given
  · intro j b c _ there
    exact tracks.ended j b c there

omit [MembershipFilter F] in
theorem Tracks.changed (standing : ∀ i, ∃ spoken, Standing pb enable next.service i spoken)
    (sound : ∀ i, ServiceWorker.Sound getAddrStr (next.service.workers i))
    (staying : ∀ i, (next.service.workers i).m_processExiting = false)
    (served : ∀ i address flow, next.service.serving i = some (address,flow) → (next.conns i address).isSome)
    (clear : next.service.handlers.fault = none) : Tracks getAddrStr pb order enable next := by
  refine ⟨standing,sound,staying,served,clear,?_,fun _ _ _ => tracks.named_later change,?_,
    fun _ _ _ => tracks.phases_later change,fun _ _ _ => tracks.ended_later change⟩
  · intro j b c k a d here there same
    exact tracks.apart_later change here k a d there same
  · intro j b c held
    refine change.each (P:=fun _ _ c => Asks pb c) (fun c there => ?_) (fun j b c _ there => ?_) held
    · exact change.turns.asks (fun d before => tracks.asks _ _ d before) there
    · exact tracks.asks j b c there

end

omit [MembershipFilter F] in
theorem withConn_own (s : State ι F) (i : ι) (address : Address) (conn : Option Conn) :
    (withConn s i address conn).conns i address = conn := by
  simp only [withConn,Function.update_self]

omit [MembershipFilter F] in
theorem withConn_other (s : State ι F) (conn : Option Conn) (apart : ¬(j = i ∧ b = address)) :
    (withConn s i address conn).conns j b = s.conns j b := by
  by_cases same : j = i
  · subst same
    have differ : b ≠ address := fun there => apart ⟨rfl,there⟩
    simp only [withConn,Function.update_self,Function.update_of_ne differ]
  · simp only [withConn,Function.update_of_ne same]

theorem serve_exact : serve getAddrStr order pb s move i address conn = some next ↔
    ∃ service, Connections.step getAddrStr order pb s.service move = some service ∧
      next = {withConn s i address conn with service := service} := by
  rw [serve,Option.map_eq_some_iff]
  exact exists_congr fun service => and_congr_right fun _ => eq_comm

theorem connect_exact : connect getAddrStr order pb s i fd address msg = some next ↔
    ∃ request service, Client.request msg = .ok (some request) ∧ pb.ByteSizeLong request ≤ INT_MAX ∧
      Connections.step getAddrStr order pb s.service (.processEvent i fd address) = some service ∧
      next = {withConn s i address (some ⟨s.opened,msg,request,frame order (pb.encode request),none,false⟩) with
        service := service,opened := s.opened + 1} := by
  unfold connect
  constructor
  · intro stepped
    split at stepped
    · rename_i request asked
      split at stepped
      · rename_i outgoing framed
        obtain ⟨small,begun⟩ := Option.ite_none_right_eq_some.mp stepped
        obtain ⟨middle,served,rfl⟩ := Option.map_eq_some_iff.mp begun
        obtain ⟨service,accepts,rfl⟩ := serve_exact.mp served
        rw [Client.sendBuffer_frame small] at framed
        cases framed
        exact ⟨request,service,asked,small,accepts,rfl⟩
      · cases stepped
    · cases stepped
  · rintro ⟨request,service,asked,small,accepts,rfl⟩
    have framed : Client.sendBuffer order pb request = .ok (frame order (pb.encode request)) := Client.sendBuffer_frame small
    simp only [asked,framed]
    rw [if_pos small,serve,accepts]
    rfl

theorem deliver_exact : deliver getAddrStr order pb s i address chunks = some next ↔
    ∃ c service, s.conns i address = some c ∧ Smooth pb c chunks ∧
      Connections.step getAddrStr order pb s.service (.data i address (chunks.map .got)) = some service ∧
      next = {withConn s i address (some {c with unread := c.unread.drop chunks.flatten.length}) with service := service} := by
  unfold deliver
  constructor
  · intro stepped
    split at stepped
    · rename_i c held
      obtain ⟨smooth,served⟩ := Option.ite_none_right_eq_some.mp stepped
      obtain ⟨service,called,rfl⟩ := serve_exact.mp served
      exact ⟨c,service,held,smooth,called,rfl⟩
    · cases stepped
  · rintro ⟨c,service,held,smooth,called,rfl⟩
    rw [held]
    dsimp only
    rw [if_pos smooth]
    exact serve_exact.mpr ⟨service,called,rfl⟩

theorem hangup_exact : hangup getAddrStr order pb s i address result = some next ↔
    ∃ c service, s.conns i address = some c ∧ c.closed = true ∧ endsStream result = true ∧
      Connections.step getAddrStr order pb s.service (.data i address [result]) = some service ∧
      next = {withConn s i address none with service := service} := by
  unfold hangup
  constructor
  · intro stepped
    split at stepped
    · rename_i c held
      obtain ⟨⟨closed,ends⟩,served⟩ := Option.ite_none_right_eq_some.mp stepped
      obtain ⟨service,called,rfl⟩ := serve_exact.mp served
      exact ⟨c,service,held,closed,ends,called,rfl⟩
    · cases stepped
  · rintro ⟨c,service,held,closed,ends,called,rfl⟩
    rw [held]
    dsimp only
    rw [if_pos ⟨closed,ends⟩]
    exact serve_exact.mpr ⟨service,called,rfl⟩

omit [MembershipFilter F] in
theorem collect_exact : collect s i address count = some next ↔
    ∃ c bytes, s.conns i address = some c ∧ c.answer = some bytes ∧ c.closed = false ∧ 0 < count ∧
      count ≤ min MAX bytes.length ∧ next = withConn s i address (some {c with closed := true}) := by
  unfold collect
  constructor
  · intro stepped
    split at stepped
    · rename_i c held
      obtain ⟨⟨open_,some,most⟩,same⟩ := Option.ite_none_right_eq_some.mp stepped
      cases same
      obtain ⟨bytes,answer⟩ : ∃ bytes, c.answer = Option.some bytes := by
        refine Option.ne_none_iff_exists'.mp fun none => ?_
        rw [none,Option.getD_none,List.length_nil,Nat.min_zero] at most
        omega
      rw [answer,Option.getD_some] at most
      exact ⟨c,bytes,held,answer,open_,some,most,rfl⟩
    · cases stepped
  · rintro ⟨c,bytes,held,answer,open_,some,most,rfl⟩
    rw [held]
    exact if_pos ⟨open_,some,by rwa [answer,Option.getD_some]⟩

theorem advance_exact : advance getAddrStr order pb s i = some next ↔
    ∃ service, Connections.step getAddrStr order pb s.service (.advance i) = some service ∧
      ((answering s i = none ∧ next = {s with service := service}) ∨
        ∃ address c m, answering s i = some (address,c,m) ∧
          next = {withConn s i address (some {c with answer := some (sendResponse pb m)}) with service := service}) := by
  unfold advance
  cases found : answering s i with
  | none =>
    dsimp only
    rw [Option.map_eq_some_iff]
    constructor
    · rintro ⟨service,advanced,rfl⟩
      exact ⟨service,advanced,.inl ⟨rfl,rfl⟩⟩
    · rintro ⟨service,advanced,⟨_,rfl⟩ | ⟨_,_,_,other,_⟩⟩
      · exact ⟨service,advanced,rfl⟩
      · cases other
  | some parts =>
    obtain ⟨address,c,m⟩ := parts
    dsimp only
    rw [serve_exact]
    refine exists_congr fun service => and_congr_right fun _ => ?_
    constructor
    · rintro rfl
      exact .inr ⟨address,c,m,rfl,rfl⟩
    · rintro (⟨other,_⟩ | ⟨_,_,_,same,rfl⟩)
      · cases other
      · cases same
        rfl

structure Serves (getAddrStr : Address → Str) (next : State ι F) : Prop where
  sound : ∀ i, ServiceWorker.Sound getAddrStr (next.service.workers i)
  staying : ∀ i, (next.service.workers i).m_processExiting = false
  served : ∀ i address flow, next.service.serving i = some (address,flow) → (next.conns i address).isSome
  clear : next.service.handlers.fault = none

omit [MembershipFilter F] [DecidableEq ι] in
theorem Tracks.left (tracks : Tracks getAddrStr pb order enable s) (left : Left getAddrStr s.service next.service i address)
    (conns : ∀ j b, ¬(j = i ∧ b = address) → next.conns j b = s.conns j b)
    (own : ∀ flow, next.service.serving i = some (address,flow) → (next.conns i address).isSome) : Serves getAddrStr next := by
  refine ⟨fun j => ?_,fun j => ?_,fun j b flow busy => ?_,left.clear.trans tracks.clear⟩
  · by_cases same : j = i
    · subst same
      exact left.sound
    · rw [left.elsewhere.workers j same]
      exact tracks.sound j
  · by_cases same : j = i
    · subst same
      exact left.staying.trans (tracks.staying j)
    · rw [left.elsewhere.workers j same]
      exact tracks.staying j
  · by_cases same : j = i
    · subst same
      by_cases there : b = address
      · subst there
        exact own flow busy
      · exact absurd busy (left.elsewhere.serving b flow there).2
    · rw [(left.elsewhere.others j same).1] at busy
      rw [conns j b fun both => same both.1]
      exact tracks.served j b flow busy

omit [MembershipFilter F] [DecidableEq ι] in
theorem Phase.live (phase : Phase pb order enable s.service i address c took) :
    (s.service.workers i).heap address ≠ none := by
  cases phase with
  | reading live | handling live | answered live =>
    rw [live]
    nofun

theorem connect_change (injective : getAddrStr.Injective) (tracks : Tracks getAddrStr pb order enable s)
    (stepped : connect getAddrStr order pb s i fd address msg = some next) :
    Serves getAddrStr next ∧ Change pb order enable s next i address [.act (.invoked s.opened msg)] := by
  obtain ⟨request,service,asked,small,accepts,rfl⟩ := connect_exact.mp stepped
  obtain ⟨spoken,standing⟩ := tracks.standing i
  obtain ⟨worker,rfl,sound,staying,live,fresh,idle,others⟩ := accepted (tracks.sound i) injective (tracks.staying i)
    standing accepts
  have elsewhere := withWorker_elsewhere idle others
  have left : Left getAddrStr s.service (withWorker s.service i worker) i address := by
    refine ⟨elsewhere,?_,?_,rfl⟩
    · rw [withWorker_self]
      exact sound
    · rw [withWorker_self,staying,tracks.staying]
  let c : Conn := ⟨s.opened,msg,request,frame order (pb.encode request),none,false⟩
  have conns : ∀ j b, ¬(j = i ∧ b = address) → (withConn s i address (some c)).conns j b = s.conns j b :=
    fun j b apart => withConn_other s _ apart
  have vacant : s.conns i address = none := by
    cases held : s.conns i address with
    | none => rfl
    | some d =>
      obtain ⟨took,phase⟩ := tracks.phases i address d held
      exact absurd fresh phase.live
  have more : c.unread ≠ [] := by
    refine List.ne_nil_of_length_pos ?_
    show 0 < (frame order (pb.encode request)).length
    rw [Framing.frame_length]
    omega
  rw [← withWorker_self s.service i worker] at live
  have phase : Phase pb order enable (withWorker s.service i worker) i address c none :=
    .reading live (.inl ⟨Framing.fresh_new _,rfl⟩) (unserved idle) rfl more rfl
  let last : State ι F := ⟨withWorker s.service i worker,(withConn s i address (some c)).conns,s.opened + 1⟩
  have own : last.conns i address = some c := withConn_own ..
  have turns : Turns pb order enable s last i address [.act (.invoked s.opened msg)] :=
    .opens vacant own rfl rfl rfl ⟨asked,small⟩ phase
  exact ⟨tracks.left left conns fun flow busy => absurd busy (unserved idle flow),conns,.inr elsewhere,turns⟩

theorem deliver_change (round : pb.RoundTrip) (tracks : Tracks getAddrStr pb order enable s)
    (stepped : deliver getAddrStr order pb s i address chunks = some next) :
    Serves getAddrStr next ∧ Change pb order enable s next i address [] := by
  obtain ⟨c,service,held,smooth,called,rfl⟩ := deliver_exact.mp stepped
  obtain ⟨spoken,standing⟩ := tracks.standing i
  have asks := tracks.asks i address c held
  have each := fun took (phase : Phase pb order enable s.service i address c took) =>
    deliver_left round asks (tracks.sound i) standing smooth phase called
  obtain ⟨took,phase⟩ := tracks.phases i address c held
  have left := (each took phase).1
  let later : Conn := {c with unread := c.unread.drop chunks.flatten.length}
  have conns : ∀ j b, ¬(j = i ∧ b = address) → (withConn s i address (some later)).conns j b = s.conns j b :=
    fun j b apart => withConn_other s _ apart
  have own : (withConn s i address (some later)).conns i address = some later := withConn_own ..
  refine ⟨tracks.left left conns fun flow busy => ?_,conns,.inr left.elsewhere,?_⟩
  · exact Option.isSome_iff_exists.mpr ⟨later,own⟩
  · show Turns pb order enable s _ i address (points c.id none)
    refine .goes held own rfl rfl rfl rfl ⟨asks.request,asks.small⟩ id fun took phase => ?_
    obtain ⟨_,rfl,further⟩ := each took phase
    exact ⟨further,nofun⟩

theorem hangup_change (tracks : Tracks getAddrStr pb order enable s)
    (stepped : hangup getAddrStr order pb s i address result = some next) :
    Serves getAddrStr next ∧ Change pb order enable s next i address [] := by
  obtain ⟨c,service,held,closed,ends,called,rfl⟩ := hangup_exact.mp stepped
  obtain ⟨spoken,standing⟩ := tracks.standing i
  obtain ⟨left,idle⟩ := hangup_left (tracks.sound i) standing ends called
  have conns : ∀ j b, ¬(j = i ∧ b = address) → (withConn s i address none).conns j b = s.conns j b :=
    fun j b apart => withConn_other s _ apart
  refine ⟨tracks.left left conns fun flow busy => ?_,conns,.inr left.elsewhere,.ends held closed (withConn_own ..) rfl⟩
  exact absurd busy (unserved idle flow)

omit [MembershipFilter F] in
theorem collect_change (tracks : Tracks getAddrStr pb order enable s) (stepped : collect s i address count = some next) :
    Serves getAddrStr next ∧ Change pb order enable s next i address ((observe pb s (.collect i address count)).map .act) := by
  obtain ⟨c,bytes,held,answer,open_,_,_,rfl⟩ := collect_exact.mp stepped
  have conns : ∀ j b, ¬(j = i ∧ b = address) →
      (withConn s i address (some {c with closed := true})).conns j b = s.conns j b := fun j b apart => withConn_other s _ apart
  have noted : observe pb s (.collect i address count) = [.returned c.id (received pb bytes count)] := by
    rw [observe,held]
    simp only [answer,Option.getD_some]
  rw [noted]
  refine ⟨⟨tracks.sound,tracks.staying,fun j b flow busy => ?_,tracks.clear⟩,conns,.inl rfl,
    .collects held (withConn_own ..) rfl open_ answer rfl⟩
  by_cases own : j = i ∧ b = address
  · obtain ⟨rfl,rfl⟩ := own
    exact Option.isSome_iff_exists.mpr ⟨_,withConn_own ..⟩
  · rw [conns j b own]
    exact tracks.served j b flow busy

omit [MembershipFilter F] [DecidableEq ι] in
theorem answering_some (found : answering s i = some (address,c,m)) : s.service.handlers.threads i = .done m ∧
    (∃ flow, s.service.serving i = some (address,flow)) ∧ s.conns i address = some c := by
  unfold answering at found
  split at found
  · rename_i here serves
    obtain ⟨d,held,same⟩ := Option.map_eq_some_iff.mp found
    cases same
    exact ⟨here,⟨_,serves⟩,held⟩
  · cases found

omit [MembershipFilter F] [DecidableEq ι] in
theorem noted (serves : s.service.serving i = some (address,flow)) (held : s.conns i address = some c) :
    note pb s (.advance i) = points c.id (effect s.service.handlers.shared (s.service.handlers.threads i)) := by
  have id : current s i = some c.id := by
    rw [current,serves]
    exact congrArg (Option.map Conn.id) held
  rw [note,id]

omit [DecidableEq ι] in
theorem handles (standing : Standing pb enable s.service i spoken)
    (moved : Handlers.advance (s.service.handlers.threads i) s.service.handlers.shared = some result) :
    ∃ address flow, s.service.serving i = some (address,flow) := by
  rw [Standing] at standing
  generalize s.service.handlers.threads i = here,s.service.serving i = serving at standing moved
  cases standing with
  | idle => cases moved
  | handling _ _ => exact ⟨_,_,rfl⟩

theorem advance_kinds (tracks : Tracks getAddrStr pb order enable s) (holds : Holds enable s.service.handlers.shared.dictionary entries)
    (stepped : advance getAddrStr order pb s i = some next) : Advanced pb s i next := by
  obtain ⟨spoken,standing⟩ := tracks.standing i
  obtain ⟨service,advanced,⟨found,rfl⟩ | ⟨address,c,m,found,rfl⟩⟩ := advance_exact.mp stepped
  · cases advance_parts holds.built standing advanced with
    | ends here serves =>
      obtain ⟨c,held⟩ := Option.isSome_iff_exists.mp (tracks.served _ _ _ serves)
      simp only [answering,here,serves,held,Option.map_some] at found
      cases found
    | runs inside _ moved =>
      obtain ⟨address,flow,serves⟩ := handles standing moved
      obtain ⟨c,held⟩ := Option.isSome_iff_exists.mp (tracks.served _ _ _ serves)
      exact .runs serves held inside moved
  · obtain ⟨here,⟨flow,serves⟩,held⟩ := answering_some found
    cases advance_parts holds.built standing advanced with
    | ends also busy =>
      cases here.symm.trans also
      cases serves.symm.trans busy
      exact .answers here serves held
    | runs inside => exact absurd here (inside m)

theorem advance_change (sound : enable = true → NoFalseNegatives F) (tracks : Tracks getAddrStr pb order enable s)
    (holds : Holds enable s.service.handlers.shared.dictionary entries)
    (stepped : advance getAddrStr order pb s i = some next) :
    Serves getAddrStr next ∧ ∃ address, (∃ flow, s.service.serving i = some (address,flow)) ∧
      Change pb order enable s next i address (note pb s (.advance i)) := by
  cases advance_kinds tracks holds stepped with
  | @runs address flow c there shared serves held inside moved =>
    have elsewhere := runs_elsewhere serves there shared
    have left : Left getAddrStr s.service {s.service with handlers := {s.service.handlers with
        shared := shared,threads := Function.update s.service.handlers.threads i there}} i address :=
      ⟨elsewhere,tracks.sound i,rfl,rfl⟩
    have asks := tracks.asks i address c held
    refine ⟨tracks.left left (fun _ _ _ => rfl) fun flow _ => Option.isSome_iff_exists.mpr ⟨c,held⟩,
      address,⟨flow,serves⟩,fun _ _ _ => rfl,.inr elsewhere,?_⟩
    rw [noted serves held]
    exact .goes held held rfl rfl rfl rfl asks id fun took phase => runs_left sound holds there moved inside serves phase
  | @answers m address flow c here serves held =>
    have each took (phase : Phase pb order enable s.service i address c took) := ends_left (tracks.sound i) here serves phase rfl
    obtain ⟨took,phase⟩ := tracks.phases i address c held
    have left := (each took phase).1
    have conns (j b) (apart : ¬(j = i ∧ b = address)) := withConn_other s (some {c with answer := some (sendResponse pb m)}) apart
    have own := withConn_own s i address (some {c with answer := some (sendResponse pb m)})
    have asks := tracks.asks i address c held
    have silent : note pb s (.advance i) = points c.id none := by rw [noted serves held,here,effect]
    refine ⟨tracks.left left conns fun flow _ => Option.isSome_iff_exists.mpr ⟨_,own⟩,
      address,⟨flow,serves⟩,conns,.inr left.elsewhere,?_⟩
    rw [silent]
    refine .goes held own rfl rfl rfl rfl ⟨asks.request,asks.small⟩ (fun _ => rfl) fun took phase => ⟨?_,fun _ => rfl⟩
    rw [Option.or_none]
    exact (each took phase).2

theorem step_change (round : pb.RoundTrip) (sound : enable = true → NoFalseNegatives F) (injective : getAddrStr.Injective)
    (tracks : Tracks getAddrStr pb order enable s) (holds : Holds enable s.service.handlers.shared.dictionary entries)
    (stepped : step getAddrStr order pb s move = some next) :
    Serves getAddrStr next ∧ ∃ i address, Change pb order enable s next i address (note pb s move) := by
  cases move with
  | connect i fd address msg => exact (connect_change injective tracks stepped).imp id fun change => ⟨i,address,change⟩
  | deliver i address chunks => exact (deliver_change round tracks stepped).imp id fun change => ⟨i,address,change⟩
  | advance i => exact (advance_change sound tracks holds stepped).imp id fun ⟨address,_,change⟩ => ⟨i,address,change⟩
  | collect i address count => exact (collect_change tracks stepped).imp id fun change => ⟨i,address,change⟩
  | hangup i address result => exact (hangup_change tracks stepped).imp id fun change => ⟨i,address,change⟩

theorem step_carries (stepped : step getAddrStr order pb s move = some next) : Carries getAddrStr order pb s next move := by
  cases move with
  | connect i fd address msg =>
    obtain ⟨_,_,_,_,accepts,rfl⟩ := connect_exact.mp stepped
    exact .loop accepts nofun nofun
  | deliver i address chunks =>
    obtain ⟨_,_,_,_,called,rfl⟩ := deliver_exact.mp stepped
    exact .loop called nofun nofun
  | advance i =>
    obtain ⟨_,advanced,⟨_,rfl⟩ | ⟨_,_,_,_,rfl⟩⟩ := advance_exact.mp stepped
    · exact .handler advanced
    · exact .handler advanced
  | collect i address count =>
    obtain ⟨_,_,_,_,_,_,_,rfl⟩ := collect_exact.mp stepped
    exact .client rfl
  | hangup i address result =>
    obtain ⟨_,_,_,_,_,called,rfl⟩ := hangup_exact.mp stepped
    exact .loop called nofun nofun

omit [MembershipFilter F] [DecidableEq ι] in
theorem Tracks.effect (tracks : Tracks getAddrStr pb order enable s) (i : ι) :
    (note pb s (.advance i)).filterMap Point.effect =
      (Connections.effect s.service.handlers.shared (s.service.handlers.threads i)).toList := by
  cases serves : s.service.serving i with
  | none =>
    obtain ⟨spoken,standing⟩ := tracks.standing i
    have rests : s.service.handlers.threads i = .idle := by
      rw [Standing,serves] at standing
      generalize s.service.handlers.threads i = here at standing
      cases standing
      rfl
    have nobody : current s i = none := by
      rw [current,serves]
      rfl
    rw [note,nobody,rests]
    rfl
  | some held =>
    obtain ⟨c,there⟩ := Option.isSome_iff_exists.mp (tracks.served i held.1 held.2 serves)
    rw [noted serves there,Linearization.points_effect]

theorem step_holds (tracks : Tracks getAddrStr pb order enable s)
    (holds : Holds enable s.service.handlers.shared.dictionary entries)
    (stepped : step getAddrStr order pb s move = some next) :
    ∃ later, dictionary.run entries ((note pb s move).filterMap Point.effect) = some later ∧
      Holds enable next.service.handlers.shared.dictionary later := by
  have quiet : (∀ i, move ≠ .advance i) → (note pb s move).filterMap Point.effect = [] := by
    intro other
    cases move with
    | advance i => exact absurd rfl (other i)
    | _ => exact Linearization.acts_effect _
  cases step_carries stepped with
  | handler advanced =>
    have effects := steps_holds holds (step_steps holds.built tracks.standing advanced)
    rw [Connections.note_effect] at effects
    rw [tracks.effect]
    exact effects
  | @loop moved _ served other plain =>
    have effects := steps_holds holds (step_steps holds.built tracks.standing served)
    rw [quiet other]
    have none : (Connections.note order pb s.service moved).filterMap Point.effect = [] := by
      rw [Connections.note_effect]
      cases moved with
      | advance i => exact absurd rfl (plain i)
      | _ => rfl
    rw [none] at effects
    exact effects
  | client same =>
    rw [quiet nofun,same]
    exact ⟨entries,rfl,holds⟩

theorem step_tracks (round : pb.RoundTrip) (sound : enable = true → NoFalseNegatives F) (injective : getAddrStr.Injective)
    (tracks : Tracks getAddrStr pb order enable s) (holds : Holds enable s.service.handlers.shared.dictionary entries)
    (stepped : step getAddrStr order pb s move = some next) : Tracks getAddrStr pb order enable next := by
  obtain ⟨serves,i,address,change⟩ := step_change round sound injective tracks holds stepped
  refine tracks.changed change ?_ serves.sound serves.staying serves.served serves.clear
  cases step_carries stepped with
  | handler served | loop served => exact steps_stand sound holds tracks.standing (step_steps holds.built tracks.standing served)
  | client same =>
    rw [same]
    exact tracks.standing

theorem answer_recorded (round : pb.RoundTrip) (zero : pb.ZeroTag) (typed : m.has_requesttype = true)
    (whole : (received pb (sendResponse pb m) count).whole = true) (short : pb.ByteSizeLong m ≤ MAX) :
    (received pb (sendResponse pb m) count).payload = m := by
  have limit : MAX = 80 ∧ INT_MAX = 2147483647 := ⟨rfl,rfl⟩
  have all : count = min MAX (sendResponse pb m).length := of_decide_eq_true whole
  have same : ((sendResponse pb m).take count).take MAX = (sendResponse pb m).take MAX := by
    rw [List.take_take,all,← min_assoc,min_self,← List.take_eq_take_min]
  rw [received,Client.readResponse,same,Response.sendResponse_small (by omega)]
  have length : (pb.encode m).length ≤ 80 := short
  rcases Nat.lt_or_eq_of_le length with less | full
  · rw [List.take_of_length_le (by rw [List.length_append,List.length_singleton]; omega),zero.2 _ m [] (round m typed)]
  · rw [List.take_left' (full.trans limit.1.symm),round m typed]

theorem Writes.typed (written : Writes enable m reply response) : response.requesttype_ = m.requesttype_ := by
  cases written with
  | found => cases enable <;> rfl
  | missing | unfiltered | stored | refused | counts => rfl

theorem obtained (round : pb.RoundTrip) (zero : pb.ZeroTag) (asks : Asks pb c) (typed : c.request.requesttype_ = some type)
    (written : Writes enable c.request reply response) (count : Nat) :
    Obtains pb enable c.msg (callOf c.request type) reply (received pb (sendResponse pb response) count) := by
  have whole : response.has_requesttype = true := by
    rw [Payload.has_requesttype,Writes.typed written]
    exact Client.request_typed asks.request
  exact .obtains asks.request typed written rfl (answer_recorded round zero whole)

omit [MembershipFilter F] [DecidableEq ι] in
theorem Stands.begins (round : pb.RoundTrip) (zero : pb.ZeroTag) (stands : Stands pb order enable s n spoken) :
    Linearization.Beginning (Obtains pb enable) n spoken := by
  cases stands with
  | silent _ => exact .silent
  | @calling _ _ c took held id open_ asks phase =>
    cases phase with
    | reading => exact .invoked
    | handling _ _ _ _ typed within _ _ =>
      cases took with
      | none => exact .invoked
      | some event =>
        obtain ⟨call,reply⟩ := event
        obtain ⟨rfl,response,written⟩ := within.writes
        exact .took (obtained round zero asks typed written 0)
    | answered _ _ typed written _ _ => exact .took (obtained round zero asks typed written 0)

theorem silent_points (apart : c.id ≠ n) (more : Option (Call × Reply)) :
    (points c.id more : List (Point Nat MessageT Received Call Reply)).filter (Linearization.ofThread n) = [] := by
  rw [Linearization.points_thread,if_neg apart]

theorem silent_act (act : Act Nat MessageT Received) (apart : act.thread ≠ n) :
    [(.act act : Point Nat MessageT Received Call Reply)].filter (Linearization.ofThread n) = [] := by
  simp [Linearization.ofThread,Point.thread,apart]

theorem voiced_act (act : Act Nat MessageT Received) (same : act.thread = n) :
    [(.act act : Point Nat MessageT Received Call Reply)].filter (Linearization.ofThread n) = [.act act] := by
  simp [Linearization.ofThread,Point.thread,same]

omit [MembershipFilter F] in
theorem change_silent (tracks : Tracks getAddrStr pb order enable s) (change : Change pb order enable s next i address notes)
    (silent : ∀ i a c, s.conns i a = some c → c.id = n → c.closed = true) :
    Stands pb order enable next n (notes.filter (Linearization.ofThread n)) := by
  have others (own : ∀ c, next.conns i address = some c → c.id = n → c.closed = true) (j b c)
      (held : next.conns j b = some c) : c.id = n → c.closed = true :=
    change.each own (fun j b c _ there => silent j b c there) held
  cases change.turns with
  | @opens c _ there id _ closed asks phase =>
    by_cases same : s.opened = n
    · subst same
      rw [voiced_act (n:=s.opened) (.invoked s.opened c.msg) rfl]
      exact .calling there id closed asks phase
    · rw [silent_act (.invoked s.opened c.msg) same]
      refine .silent (others fun d held named => ?_)
      cases there.symm.trans held
      exact absurd (id.symm.trans named) same
  | @goes c later more here there _ id closed _ _ _ phases =>
    have ended : c.id = n → more = none := by
      intro same
      have answer := tracks.ended i address c here (silent i address c here same)
      obtain ⟨took,phase⟩ := tracks.phases i address c here
      refine (phases took phase).2 ?_
      cases phase with
      | reading _ _ _ _ _ none | handling _ _ _ _ _ _ _ none =>
        rw [none] at answer
        cases answer
      | answered => rfl
    have voice : (points c.id more : List (Point Nat MessageT Received Call Reply)).filter (Linearization.ofThread n) = [] := by
      by_cases same : c.id = n
      · rw [ended same]
        rfl
      · exact silent_points same more
    rw [voice]
    refine .silent (others fun d held named => ?_)
    cases there.symm.trans held
    rw [closed]
    exact silent i address c here (id.symm.trans named)
  | @collects c bytes count here there _ open_ _ _ =>
    have apart : c.id ≠ n := by
      intro same
      rw [silent i address c here same] at open_
      cases open_
    rw [silent_act (.returned c.id (received pb bytes count)) apart]
    refine .silent (others fun d held named => ?_)
    cases there.symm.trans held
    rfl
  | ends _ _ there _ =>
    refine .silent (others fun d held named => ?_)
    rw [there] at held
    cases held

omit [MembershipFilter F] in
theorem change_calling (round : pb.RoundTrip) (zero : pb.ZeroTag) (tracks : Tracks getAddrStr pb order enable s)
    (change : Change pb order enable s next i address notes) (held : s.conns j b = some c) (open_ : c.closed = false)
    (phase : Phase pb order enable s.service j b c took) :
    Stands pb order enable next c.id
        ((.act (.invoked c.id c.msg) :: points c.id took) ++ notes.filter (Linearization.ofThread c.id)) ∨
      Stands pb order enable next c.id [] ∧ Linearization.Sentence (Obtains pb enable) c.id
        ((.act (.invoked c.id c.msg) :: points c.id took) ++ notes.filter (Linearization.ofThread c.id)) := by
  have asks := tracks.asks j b c held
  by_cases here : j = i ∧ b = address
  · obtain ⟨rfl,rfl⟩ := here
    cases change.turns with
    | opens vacant => exact absurd (vacant.symm.trans held) nofun
    | @goes d later more before there _ id closed msg also _ phases =>
      cases before.symm.trans held
      obtain ⟨further,once⟩ := phases took phase
      have voice : (points c.id more : List (Point Nat MessageT Received Call Reply)).filter (Linearization.ofThread c.id) =
          points c.id more := (Linearization.points_thread ..).trans (if_pos rfl)
      rw [voice,List.cons_append,← Linearization.points_or once,← msg]
      exact .inl (.calling there id (closed.trans open_) also further)
    | @collects d bytes count before there _ _ answer _ =>
      cases before.symm.trans held
      rw [voiced_act (n:=c.id) (.returned c.id (received pb bytes count)) rfl]
      have silent : Stands pb order enable next c.id [] := by
        refine .silent fun k a d => change.each (P:=fun _ _ d => d.id = c.id → d.closed = true) ?_ ?_
        · intro d own _
          cases there.symm.trans own
          rfl
        · intro k a d other before id
          exact absurd (tracks.apart j b c k a d held before id.symm) other
      refine .inr ⟨silent,?_⟩
      cases phase with
      | reading _ _ _ _ _ none | handling _ _ _ _ _ _ _ none => exact absurd (none.symm.trans answer) nofun
      | answered _ _ typed written written' _ =>
        cases written'.symm.trans answer
        exact .call (obtained round zero asks typed written count)
    | ends before closed =>
      cases before.symm.trans held
      rw [closed] at open_
      cases open_
  · have silent : notes.filter (Linearization.ofThread c.id) = [] := by
      have apart : ∀ d, s.conns i address = some d → d.id ≠ c.id := fun d there same =>
        here (tracks.apart i address d j b c there held same)
      cases change.turns with
      | @opens d _ _ _ _ _ _ =>
        exact silent_act (.invoked s.opened d.msg) (Nat.ne_of_gt (tracks.named j b c held))
      | goes before => exact silent_points (apart _ before) _
      | @collects d bytes count before => exact silent_act (.returned d.id (received pb bytes count)) (apart d before)
      | ends => rfl
    rw [silent,List.append_nil]
    exact .inl (.calling ((change.conns j b here).trans held) rfl open_ asks (change.phases here phase))

theorem nobody (i : ι) (a : Address) (c : Conn) : (network ι F getAddrStr order pb enable).start.conns i a ≠ some c := by
  intro held
  cases held

theorem start_tracks :
    Tracks getAddrStr pb order enable (network ι F getAddrStr order pb enable).start := by
  constructor
  case standing => exact fun _ => ⟨[],.idle⟩
  case sound => exact fun _ => ServiceWorker.new_sound
  case staying => exact fun _ => rfl
  case served =>
    intro i a flow busy
    cases busy
  case clear => rfl
  case apart => exact fun i a c _ _ _ held => absurd held (nobody i a c)
  all_goals exact fun i a c held => absurd held (nobody i a c)

omit [MembershipFilter F] [DecidableEq ι] in
theorem note_visible (s : State ι F) (move : Move ι) : (note pb s move).filterMap Point.visible = observe pb s move := by
  cases move with
  | advance i =>
    rw [note]
    cases current s i with
    | none => rfl
    | some id => exact Linearization.points_visible _ _
  | _ => exact Linearization.acts_visible _

def Related (getAddrStr : Address → Str) (pb : Protobuf) (order : ByteOrder) (enable : Bool) (s : State ι F) (entries : Entries) :
    Prop :=
  Tracks getAddrStr pb order enable s ∧ Holds enable s.service.handlers.shared.dictionary entries

theorem start_related :
    Related getAddrStr pb order enable (network ι F getAddrStr order pb enable).start dictionary.start :=
  ⟨start_tracks,start_holds enable⟩

theorem step_related (round : pb.RoundTrip) (sound : NoFalseNegatives F) (injective : getAddrStr.Injective)
    (related : Related getAddrStr pb order enable s entries) (stepped : step getAddrStr order pb s move = some next) :
    ∃ later, dictionary.run entries ((note pb s move).filterMap Point.effect) = some later ∧
      Related getAddrStr pb order enable next later := by
  obtain ⟨tracks,holds⟩ := related
  obtain ⟨later,ran,there⟩ := step_holds tracks holds stepped
  exact ⟨later,ran,step_tracks round (fun _ => sound) injective tracks holds stepped,there⟩

theorem run_related (round : pb.RoundTrip) (sound : NoFalseNegatives F) (injective : getAddrStr.Injective)
    (path : (network ι F getAddrStr order pb enable).run (network ι F getAddrStr order pb enable).start moves = some last) :
    ∃ entries, Related getAddrStr pb order enable last entries := by
  have kept : ∀ (s : State ι F) move next, (∃ entries, Related getAddrStr pb order enable s entries) →
      (network ι F getAddrStr order pb enable).step s move = some next →
      ∃ entries, Related getAddrStr pb order enable next entries := by
    rintro s move next ⟨entries,related⟩ stepped
    obtain ⟨later,_,there⟩ := step_related round sound injective related stepped
    exact ⟨later,there⟩
  have reached := (network ι F getAddrStr order pb enable).reached_exact.mpr ⟨moves,path⟩
  exact (network ι F getAddrStr order pb enable).invariant ⟨_,start_related⟩ kept reached

theorem run_linear (round : pb.RoundTrip) (zero : pb.ZeroTag) (sound : NoFalseNegatives F) (injective : getAddrStr.Injective)
    (path : (network ι F getAddrStr order pb enable).run (network ι F getAddrStr order pb enable).start moves = some last) :
    Linearization.Linear dictionary (Obtains pb enable)
      ((network ι F getAddrStr order pb enable).journal (note pb) (network ι F getAddrStr order pb enable).start moves) := by
  have acts : ∀ (s : State ι F) entries move next, Related getAddrStr pb order enable s entries →
      (∀ n, ∃ spoken, Stands pb order enable s n spoken) →
      (network ι F getAddrStr order pb enable).step s move = some next →
      ∃ later, dictionary.run entries ((note pb s move).filterMap Point.effect) = some later ∧
        Related getAddrStr pb order enable next later :=
    fun _ _ _ _ related _ stepped => step_related round sound injective related stepped
  have speaks : ∀ (s : State ι F) entries move next n spoken, Related getAddrStr pb order enable s entries →
      (∀ n, ∃ spoken, Stands pb order enable s n spoken) → Stands pb order enable s n spoken →
      (network ι F getAddrStr order pb enable).step s move = some next →
      Stands pb order enable next n (spoken ++ (note pb s move).filter (Linearization.ofThread n)) ∨
        Stands pb order enable next n [] ∧
          Linearization.Sentence (Obtains pb enable) n (spoken ++ (note pb s move).filter (Linearization.ofThread n)) := by
    rintro s entries move next n spoken ⟨tracks,holds⟩ _ stands stepped
    obtain ⟨_,i,address,change⟩ := step_change round (fun _ => sound) injective tracks holds stepped
    cases stands with
    | silent silent => exact .inl (change_silent tracks change silent)
    | calling held id open_ _ phase =>
      subst id
      exact change_calling round zero tracks change held open_ phase
  have begins : ∀ (s : State ι F) n spoken, Stands pb order enable s n spoken →
      Linearization.Beginning (Obtains pb enable) n spoken := fun _ _ _ stands => stands.begins round zero
  have silent : ∀ n, Stands pb order enable (network ι F getAddrStr order pb enable).start n [] :=
    fun n => .silent fun i a c held => absurd held (nobody i a c)
  exact Linearization.linear_journal begins acts speaks start_related silent path

-- From end to end, for any workers, clients and order of the steps, on a network
-- whose reads the server copes with: nothing faults, and the payload that each
-- client records is the dictionary's answer to its message at some moment
-- between its connect and its close.
theorem network_linearizable (round : pb.RoundTrip) (zero : pb.ZeroTag) (sound : NoFalseNegatives F)
    (injective : getAddrStr.Injective)
    (path : (network ι F getAddrStr order pb enable).run (network ι F getAddrStr order pb enable).start moves = some last) :
    last.service.handlers.fault = none ∧ Linearizable dictionary (Obtains pb enable)
      ((network ι F getAddrStr order pb enable).journal (observe pb) (network ι F getAddrStr order pb enable).start moves) := by
  obtain ⟨_,tracks,_⟩ := run_related round sound injective path
  exact ⟨tracks.clear,_,Linearization.journal_visible note_visible,run_linear round zero sound injective path⟩

end

def setting : MessageT := ⟨some .SET,text "k",text "v"⟩
def getting : MessageT := ⟨some .GET,text "k",[]⟩

def crossing : List (Move Bool) :=
  [.connect true 7 0x1000 setting,.connect false 8 0x2000 getting,.deliver true 0x1000 [storing.take 6],
    .deliver false 0x2000 [looking.take 5,looking.drop 5],.advance false,.deliver true 0x1000 [storing.drop 6],.advance true,
    .advance true,.advance false,.advance false,.advance false,.advance true,.collect false 0x2000 2,.collect true 0x1000 9,
    .hangup true 0x1000 (.got []),.hangup false 0x2000 (.failed (.other 104))]

abbrev town := network Bool (BloomFilter BloomFilter.small) ServiceWorker.pointer .little Codec.codec false

theorem network_linearizable_crossing : ∃ last, town.run town.start crossing = some last ∧
    last.service.handlers.fault = none ∧
    Linearizable dictionary (Obtains Codec.codec false) (town.journal (observe Codec.codec) town.start crossing) := by
  have path : town.run town.start crossing = some _ := rfl
  exact ⟨_,path,network_linearizable Codec.roundTrip Codec.zeroTag (BloomFilter.noFalseNegatives _)
    ServiceWorker.pointer_injective path⟩

end RemoteDict.Network
