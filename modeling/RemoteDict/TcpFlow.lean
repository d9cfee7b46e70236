import RemoteDict.Store

namespace RemoteDict
open Foundation.Block

def NUM_READ_TRY : Nat := 50
def BUFLEN : Nat := 1200
def EV_READ : Nat := 2

-- m_currlen is the one member the constructor leaves unset. The block of
-- m_data was allocated with m_payloadLen bytes; calloc is taken to succeed.
structure TcpFlow where
  m_clientFd : Int
  m_selfAddr : Str
  m_payload : Payload
  m_data : Option (List Byte)
  m_payloadLen : Nat
  m_lenTillnow : Nat
  m_currlen : Option Nat
  deriving DecidableEq, Repr

-- One result of read(): `got []` is the end of the stream, a longer chunk is
-- what the call copied to the buffer.
inductive ReadResult where
  | got (chunk : List Byte)
  | failed (errno : Errno)
  deriving DecidableEq, Repr

inductive WriteResult where
  | wrote (count : Nat)
  | failed (errno : Errno)
  deriving DecidableEq, Repr

-- What a callback does that its surroundings can see, in order.
inductive Event where
  | parse (bytes : List Byte)
  | handle (type : RequestType)
  | respond (buffer : List Byte)
  | delete (addr : Str)
  | fault (fault : Fault)
  deriving DecidableEq, Repr

-- No flow is left once m_deleteCbk has erased it, or after a fault.
structure Outcome (F : Type) where
  flow : Option TcpFlow
  shared : Shared F
  events : List Event

namespace TcpFlow
variable {F : Type} [MembershipFilter F]

def new (addr : Str) : TcpFlow := ⟨-1,addr,{},none,0,0,none⟩

def buffer (chunk : List Byte) : List Byte := chunk ++ calloc (BUFLEN - chunk.length)

def receive (order : ByteOrder) (flow : TcpFlow) (chunk : List Byte) : Except Fault TcpFlow :=
  let flow := {flow with m_lenTillnow := (flow.m_lenTillnow + chunk.length) % 2^32}
  match flow.m_data with
  | some block =>
    match flow.m_currlen with
    | none => .error .unassignedLength
    | some currlen =>
      match store block currlen chunk with
      | none => .error .copyOutside
      | some block => .ok {flow with m_data := some block,m_currlen := some ((currlen + chunk.length) % 2^32)}
  | none =>
    if 4 ≤ flow.m_lenTillnow then
      let payloadLen := order.decode ((buffer chunk).take 4)
      let flow := {flow with m_payloadLen := payloadLen,m_data := some (calloc payloadLen)}
      if 4 < flow.m_lenTillnow then
        -- len - 4 is negative here when earlier reads brought part of the header.
        if chunk.length < 4 then .error .copyOutside
        else match store (calloc payloadLen) 0 (chunk.drop 4) with
          | none => .error .copyOutside
          | some block => .ok {flow with m_data := some block,m_currlen := some (chunk.length - 4)}
      else .ok flow
    else .ok flow

-- The bounded loop of data. When the list of results is used up the next read
-- gives EAGAIN; `true` says that the flow has been deleted.
def readLoop (order : ByteOrder) : Nat → TcpFlow → List ReadResult → Except Fault (TcpFlow × Bool)
  | 0,flow,_ => .ok (flow,false)
  | _+1,flow,[] => .ok (flow,false)
  | tries+1,flow,result :: rest =>
    match result with
    | .got [] => .ok (flow,true)
    | .got chunk =>
      match receive order flow chunk with
      | .error fault => .error fault
      | .ok flow => readLoop order tries flow rest
    | .failed errno => if errno ≠ .EAGAIN then .ok (flow,true) else .ok (flow,false)

def handleGetRequest (m : Payload) (s : Shared F) : Except Fault (Payload × Shared F) :=
  let s := {s with stats := s.stats.incrGetReq}
  match s.dictionary.get m.key [] with
  | .error fault => .error fault
  | .ok (true,value) => .ok (m.set_value value,{s with stats := s.stats.incrGetReqSucc})
  | .ok (false,value) => .ok (m.set_reason value,{s with stats := s.stats.incrGetReqFail})

def handleSetRequest (m : Payload) (s : Shared F) : Except Fault (Payload × Shared F) :=
  match s.dictionary.set m.key m.value with
  | .error fault => .error fault
  | .ok (dictionary,true) => .ok (m,{s with dictionary := dictionary})
  | .ok (dictionary,false) => .ok (m.set_reason (text "failed"),{s with dictionary := dictionary})

-- The setters take int32: the conversion from uint64_t keeps the low 32 bits.
def setStats (m : Payload) (all succ fail : UInt64) : Payload :=
  {m with stats_ := some {m.mutable_stats with
    numgetreq_ := some all.toUInt32.toInt32
    numsuccgetreq_ := some succ.toUInt32.toInt32
    numfailgetreq_ := some fail.toUInt32.toInt32}}

def handleStatRequest (m : Payload) (s : Shared F) : Except Fault (Payload × Shared F) :=
  .ok (setStats m s.stats.m_numGetReq s.stats.m_numGetReqSucc s.stats.m_numGetReqFail,s)

-- The default branch of the switch is not reachable: protobuf keeps a value
-- outside of the declared ones with the unknown fields.
def handle : RequestType → Payload → Shared F → Except Fault (Payload × Shared F)
  | .GET => handleGetRequest
  | .SET => handleSetRequest
  | .STAT => handleStatRequest

-- The buffer is one byte longer than the message.
def sendResponse (pb : Protobuf) (m : Payload) : List Byte :=
  let size := (pb.ByteSizeLong m + 1) % 2^32
  (pb.SerializeToArray m (calloc size)).2

-- `ret` is missing while the loop still waits, `accepted` is what the socket took.
@[ext]
structure Written where
  ret : Option Int
  accepted : List Byte
  deriving DecidableEq, Repr

def writeLoop (buf : List Byte) (buf_len : Nat) (bytes : Int) : List WriteResult → Written
  | [] => if buf_len = 0 then ⟨some bytes,[]⟩ else ⟨none,[]⟩
  | result :: rest =>
    if buf_len = 0 then ⟨some bytes,[]⟩
    else match result with
      | .failed errno =>
        if errno ≠ .EAGAIN ∧ errno ≠ .EWOULDBLOCK ∧ errno ≠ .EINTR then ⟨some (-1),[]⟩
        else writeLoop buf buf_len bytes rest
      | .wrote n =>
        let later := writeLoop (buf.drop n) (buf_len - n) (bytes + n) rest
        ⟨later.ret,buf.take n ++ later.accepted⟩

def socketWriteData (buf : List Byte) (results : List WriteResult) : Written :=
  writeLoop buf buf.length 0 results

-- m_data[0..m_payloadLen) as parse hands it to protobuf.
def received (flow : TcpFlow) : List Byte := (flow.m_data.getD []).take flow.m_payloadLen

def parse (pb : Protobuf) (flow : TcpFlow) (s : Shared F) : Outcome F :=
  let bytes := flow.received
  let payload := (pb.ParseFromArray bytes).2
  match payload.requesttype_ with
  | some type =>
    match handle type payload s with
    | .error fault => ⟨none,s,[.parse bytes,.handle type,.fault fault]⟩
    | .ok (payload,s) =>
      ⟨some {flow with m_payload := payload},s,[.parse bytes,.handle type,.respond (sendResponse pb payload)]⟩
  | none => ⟨none,s,[.parse bytes,.delete flow.m_selfAddr]⟩

def data (order : ByteOrder) (pb : Protobuf) (flow : TcpFlow) (fd : Int) (ev : Nat)
    (reads : List ReadResult) (s : Shared F) : Outcome F :=
  if ev ≠ EV_READ then ⟨some flow,s,[]⟩
  else
    let flow := {flow with m_clientFd := fd}
    match readLoop order NUM_READ_TRY flow reads with
    | .error fault => ⟨none,s,[.fault fault]⟩
    | .ok (flow,true) => ⟨none,s,[.delete flow.m_selfAddr]⟩
    | .ok (flow,false) =>
      if flow.m_payloadLen ≤ flow.m_lenTillnow then flow.parse pb s else ⟨some flow,s,[]⟩

-- A callback on a flow finds the shared objects as other connections left them.
structure Callback (F : Type) where
  shared : Shared F
  reads : List ReadResult

def serve (order : ByteOrder) (pb : Protobuf) (fd : Int) : TcpFlow → List (Callback F) → List (List Event)
  | _,[] => []
  | flow,callback :: rest =>
    let outcome := data order pb flow fd EV_READ callback.reads callback.shared
    match outcome.flow with
    | none => [outcome.events]
    | some flow => outcome.events :: serve order pb fd flow rest

def after (order : ByteOrder) (pb : Protobuf) (fd : Int) : TcpFlow → List (Callback F) → Option TcpFlow
  | flow,[] => some flow
  | flow,callback :: rest =>
    (data order pb flow fd EV_READ callback.reads callback.shared).flow.bind (after order pb fd · rest)

def parsedBytes : Event → Option (List Byte)
  | .parse bytes => some bytes
  | _ => none

def parses (events : List Event) : List (List Byte) := events.filterMap parsedBytes

def handledType : Event → Option RequestType
  | .handle type => some type
  | _ => none

def handlers (events : List Event) : List RequestType := events.filterMap handledType

theorem buffer_header {chunk : List Byte} (long : 4 ≤ chunk.length) : (buffer chunk).take 4 = chunk.take 4 := by
  rw [buffer,List.take_append_of_le_length long]

theorem receive_empty {order : ByteOrder} {chunk : List Byte} (flow : TcpFlow) (empty : flow.m_data = none)
    (small : flow.m_lenTillnow + chunk.length < 2^32) :
    receive order flow chunk =
      if flow.m_lenTillnow + chunk.length < 4 then
        .ok {flow with m_lenTillnow := flow.m_lenTillnow + chunk.length}
      else
        let size := order.decode ((buffer chunk).take 4)
        if flow.m_lenTillnow + chunk.length = 4 then
          .ok {flow with m_lenTillnow := flow.m_lenTillnow + chunk.length,m_payloadLen := size,m_data := some (calloc size)}
        else if chunk.length < 4 ∨ size < chunk.length - 4 then .error .copyOutside
        else .ok {flow with
          m_lenTillnow := flow.m_lenTillnow + chunk.length,m_payloadLen := size
          m_data := some (filled (chunk.drop 4) size),m_currlen := some (chunk.length - 4)} := by
  unfold receive
  simp only [Nat.mod_eq_of_lt small,empty]
  by_cases short : flow.m_lenTillnow + chunk.length < 4
  · rw [if_neg (by omega),if_pos short]
  · rw [if_pos (by omega),if_neg short]
    by_cases exactly : flow.m_lenTillnow + chunk.length = 4
    · rw [if_neg (by omega),if_pos exactly]
    · rw [if_pos (by omega),if_neg exactly]
      by_cases negative : chunk.length < 4
      · rw [if_pos negative,if_pos (.inl negative)]
      · rw [if_neg negative]
        by_cases outside : order.decode ((buffer chunk).take 4) < chunk.length - 4
        · rw [if_pos (.inr outside)]
          have refused : store (calloc (order.decode ((buffer chunk).take 4))) 0 (chunk.drop 4) = none :=
            store_none.mpr (by simpa using outside)
          rw [refused]
        · rw [if_neg (by simp [negative,outside])]
          rw [store_calloc (by simpa using Nat.not_lt.mp outside)]

theorem readLoop_got {order : ByteOrder} {flow : TcpFlow} (nonempty : chunk ≠ []) :
    readLoop order (tries+1) flow (.got chunk :: results) =
      match receive order flow chunk with
      | .error fault => .error fault
      | .ok flow => readLoop order tries flow results := by
  cases chunk with
  | nil => exact absurd rfl nonempty
  | cons byte chunk => rfl

theorem received_filled {flow : TcpFlow} (block : flow.m_data = some (filled written size)) (inside : written.length ≤ size)
    (length : flow.m_payloadLen = size) : flow.received = filled written size := by
  rw [received,block,length,Option.getD_some,List.take_of_length_le (Nat.le_of_eq (filled_length inside))]

theorem parse_parses (pb : Protobuf) (flow : TcpFlow) (s : Shared F) :
    parses (flow.parse pb s).events = [flow.received] := by
  unfold parse
  dsimp only
  split
  · split <;> rfl
  · rfl

theorem get_handled {s : Shared F} (disabled : s.dictionary.m_bloomFilterEnabled = false) : handleGetRequest m s = .ok
    (match s.dictionary.m_dict.lookup m.key with
      | some value => (m.set_value value,{s with stats := s.stats.incrGetReq.incrGetReqSucc})
      | none => (m.set_reason NOT_FOUND,{s with stats := s.stats.incrGetReq.incrGetReqFail})) := by
  unfold handleGetRequest
  dsimp only
  rw [Dictionary.get_disabled _ disabled]
  cases s.dictionary.m_dict.lookup m.key <;> rfl

theorem set_handled {s : Shared F} (disabled : s.dictionary.m_bloomFilterEnabled = false) : handleSetRequest m s = .ok
    (if s.dictionary.full then (m.set_reason (text "failed"),s)
      else (m,{s with dictionary := {s.dictionary with m_dict := s.dictionary.m_dict.insert m.key m.value}})) := by
  have stored := Dictionary.setLocked_disabled disabled m.key m.value
  unfold handleSetRequest
  cases room : s.dictionary.full with
  | true => rw [Dictionary.set_full room]; rfl
  | false => rw [Dictionary.set_open room stored]; rfl

-- What a handler answers and what it leaves of the shared objects.
inductive Handles (m : Payload) (s : Shared F) : RequestType → Payload → Shared F → Prop where
  | found : s.dictionary.get m.key [] = .ok (true,value) →
      Handles m s .GET (m.set_value value) {s with stats := s.stats.incrGetReq.incrGetReqSucc}
  | missed : s.dictionary.get m.key [] = .ok (false,value) →
      Handles m s .GET (m.set_reason value) {s with stats := s.stats.incrGetReq.incrGetReqFail}
  | accepted : s.dictionary.set m.key m.value = .ok (dictionary,true) →
      Handles m s .SET m {s with dictionary := dictionary}
  | refused : s.dictionary.set m.key m.value = .ok (dictionary,false) →
      Handles m s .SET (m.set_reason (text "failed")) {s with dictionary := dictionary}
  | told : Handles m s .STAT (setStats m s.stats.m_numGetReq s.stats.m_numGetReqSucc s.stats.m_numGetReqFail) s

theorem handle_exact {s : Shared F} : handle type m s = .ok (response,next) ↔ Handles m s type response next := by
  constructor
  · intro handled
    cases type with
    | GET =>
      simp only [handle,handleGetRequest] at handled
      split at handled
      · cases handled
      · rename_i looked
        cases handled
        exact .found looked
      · rename_i looked
        cases handled
        exact .missed looked
    | SET =>
      simp only [handle,handleSetRequest] at handled
      split at handled
      · cases handled
      · rename_i stored
        cases handled
        exact .accepted stored
      · rename_i stored
        cases handled
        exact .refused stored
    | STAT =>
      cases handled
      exact .told
  · intro handles
    cases handles with
    | found looked => simp only [handle,handleGetRequest,looked]
    | missed looked => simp only [handle,handleGetRequest,looked]
    | accepted stored => simp only [handle,handleSetRequest,stored]
    | refused stored => simp only [handle,handleSetRequest,stored]
    | told => rfl

theorem handle_fault {s : Shared F} (failed : handle type m s = .error fault) : fault = .nullFilter := by
  cases type with
  | GET =>
    simp only [handle,handleGetRequest] at failed
    split at failed <;> cases failed
    rename_i looked
    exact Dictionary.get_fault looked
  | SET =>
    simp only [handle,handleSetRequest] at failed
    split at failed <;> cases failed
    rename_i stored
    exact Dictionary.set_fault stored
  | STAT => cases failed

theorem parse_untyped {pb : Protobuf} {flow : TcpFlow} {s : Shared F}
    (untyped : (pb.ParseFromArray flow.received).2.requesttype_ = none) :
    flow.parse pb s = ⟨none,s,[.parse flow.received,.delete flow.m_selfAddr]⟩ := by
  unfold parse
  simp only [untyped]

theorem parse_handled {pb : Protobuf} {flow : TcpFlow} {s next : Shared F}
    (typed : (pb.ParseFromArray flow.received).2.requesttype_ = some type)
    (handled : handle type (pb.ParseFromArray flow.received).2 s = .ok (response,next)) :
    flow.parse pb s = ⟨some {flow with m_payload := response},next,
      [.parse flow.received,.handle type,.respond (sendResponse pb response)]⟩ := by
  unfold parse
  simp only [typed,handled]

theorem parse_faulted {pb : Protobuf} {flow : TcpFlow} {s : Shared F}
    (typed : (pb.ParseFromArray flow.received).2.requesttype_ = some type)
    (faulted : handle type (pb.ParseFromArray flow.received).2 s = .error fault) :
    flow.parse pb s = ⟨none,s,[.parse flow.received,.handle type,.fault fault]⟩ := by
  unfold parse
  simp only [typed,faulted]

theorem parse_flow {pb : Protobuf} {flow next : TcpFlow} {s : Shared F} (answered : (flow.parse pb s).flow = some next) :
    ∃ m, next = {flow with m_payload := m} := by
  unfold parse at answered
  dsimp only at answered
  split at answered
  · split at answered
    · cases answered
    · cases answered; exact ⟨_,rfl⟩
  · cases answered

theorem receive_addr {order : ByteOrder} {flow next : TcpFlow} (received : receive order flow chunk = .ok next) :
    next.m_selfAddr = flow.m_selfAddr := by
  unfold receive at received
  dsimp only at received
  split at received
  · split at received
    · cases received
    · split at received
      · cases received
      · cases received
        rfl
  · split at received
    · split at received
      · split at received
        · cases received
        · split at received
          · cases received
          · cases received
            rfl
      · cases received
        rfl
    · cases received
      rfl

theorem readLoop_addr {order : ByteOrder} {flow next : TcpFlow} (looped : readLoop order n flow reads = .ok (next,gone)) :
    next.m_selfAddr = flow.m_selfAddr := by
  induction n generalizing flow reads with
  | zero =>
    cases looped
    rfl
  | succ n ih =>
    cases reads with
    | nil =>
      cases looped
      rfl
    | cons result reads =>
      cases result with
      | failed errno =>
        simp only [readLoop] at looped
        split at looped <;> cases looped <;> rfl
      | got chunk =>
        cases chunk with
        | nil =>
          cases looped
          rfl
        | cons byte chunk =>
          rw [readLoop_got (List.cons_ne_nil _ _)] at looped
          cases received : receive order flow (byte :: chunk) with
          | error fault =>
            rw [received] at looped
            cases looped
          | ok middle =>
            rw [received] at looped
            rw [ih looped,receive_addr received]

def quiet : Event → Bool
  | .delete _ | .fault _ => false
  | .parse _ | .handle _ | .respond _ => true

-- How a callback can end: the flow stays, it has erased itself as its last act,
-- or the last thing done was not defined.
inductive Ends (flow : TcpFlow) : Outcome F → Prop where
  | stays (s : Shared F) : next.m_selfAddr = flow.m_selfAddr → (∀ event ∈ events, quiet event) → Ends flow ⟨some next,s,events⟩
  | erased (s : Shared F) : (∀ event ∈ before, quiet event) → Ends flow ⟨none,s,before ++ [.delete flow.m_selfAddr]⟩
  | faulted (s : Shared F) (fault : Fault) : (∀ event ∈ before, quiet event) → Ends flow ⟨none,s,before ++ [.fault fault]⟩

theorem parse_ends (pb : Protobuf) (flow : TcpFlow) (s : Shared F) : Ends flow (flow.parse pb s) := by
  cases typed : (pb.ParseFromArray flow.received).2.requesttype_ with
  | none =>
    rw [parse_untyped typed]
    show Ends flow ⟨none,s,[.parse flow.received] ++ [.delete flow.m_selfAddr]⟩
    exact .erased s (by simp [quiet])
  | some type =>
    cases ran : handle type (pb.ParseFromArray flow.received).2 s with
    | error fault =>
      rw [parse_faulted typed ran]
      show Ends flow ⟨none,s,[.parse flow.received,.handle type] ++ [.fault fault]⟩
      exact .faulted s fault (by simp [quiet])
    | ok result =>
      rw [parse_handled typed ran]
      exact .stays _ rfl (by simp [quiet])

section
variable {fd : Int} {reads : List ReadResult}

theorem data_faulted (looped : readLoop order NUM_READ_TRY {flow with m_clientFd := fd} reads = .error fault)
    (s : Shared F) : data order pb flow fd EV_READ reads s = ⟨none,s,[.fault fault]⟩ := by
  rw [data,if_neg (by simp)]
  dsimp only
  rw [looped]

theorem data_deleted (looped : readLoop order NUM_READ_TRY {flow with m_clientFd := fd} reads = .ok (next,true))
    (s : Shared F) : data order pb flow fd EV_READ reads s = ⟨none,s,[.delete next.m_selfAddr]⟩ := by
  rw [data,if_neg (by simp)]
  dsimp only
  rw [looped]

theorem data_kept (looped : readLoop order NUM_READ_TRY {flow with m_clientFd := fd} reads = .ok (next,false))
    (s : Shared F) : data order pb flow fd EV_READ reads s =
      if next.m_payloadLen ≤ next.m_lenTillnow then next.parse pb s else ⟨some next,s,[]⟩ := by
  rw [data,if_neg (by simp)]
  dsimp only
  rw [looped]

end

theorem data_ends (order : ByteOrder) (pb : Protobuf) (flow : TcpFlow) (fd : Int) (ev : Nat) (reads : List ReadResult)
    (s : Shared F) : Ends flow (data order pb flow fd ev reads s) := by
  by_cases other : ev ≠ EV_READ
  · rw [data,if_pos other]
    exact .stays s rfl nofun
  · rw [not_not.mp other]
    cases looped : readLoop order NUM_READ_TRY {flow with m_clientFd := fd} reads with
    | error fault =>
      rw [data_faulted looped]
      show Ends flow ⟨none,s,[] ++ [.fault fault]⟩
      exact .faulted s fault nofun
    | ok result =>
      obtain ⟨middle,gone⟩ := result
      have same : middle.m_selfAddr = {flow with m_clientFd := fd}.m_selfAddr := readLoop_addr looped
      cases gone with
      | true =>
        rw [data_deleted looped]
        show Ends flow ⟨none,s,[] ++ [.delete middle.m_selfAddr]⟩
        rw [same]
        exact .erased s nofun
      | false =>
        rw [data_kept looped]
        split
        · have ended := parse_ends pb middle s
          generalize middle.parse pb s = outcome at ended
          cases ended with
          | stays s kept quietly => exact .stays s (kept.trans same) quietly
          | erased s quietly =>
            rw [same]
            exact .erased s quietly
          | faulted s fault quietly => exact .faulted s fault quietly
        · exact .stays s same nofun

-- What a callback has found before it enters a handler.
inductive Arrival where
  | stopped (fault : Fault)
  | gone (addr : Str)
  | waiting (flow : TcpFlow)
  | request (flow : TcpFlow) (type : RequestType) (m : Payload)

def arrive (order : ByteOrder) (pb : Protobuf) (flow : TcpFlow) (fd : Int) (reads : List ReadResult) : Arrival :=
  match readLoop order NUM_READ_TRY {flow with m_clientFd := fd} reads with
  | .error fault => .stopped fault
  | .ok (flow,true) => .gone flow.m_selfAddr
  | .ok (flow,false) =>
    if flow.m_payloadLen ≤ flow.m_lenTillnow then
      match (pb.ParseFromArray flow.received).2.requesttype_ with
      | some type => .request flow type (pb.ParseFromArray flow.received).2
      | none => .gone flow.m_selfAddr
    else .waiting flow

end TcpFlow
end RemoteDict
