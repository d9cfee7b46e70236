import RemoteDict.Messagebody

namespace RemoteDict
open Foundation.Block

def MAX : Nat := 80

inductive MessageType where
  | GET
  | SET
  | STAT
  deriving DecidableEq, Repr

structure MessageT where
  type : Option MessageType := none
  key : Str := []
  value : Str := []
  deriving DecidableEq, Repr

structure ResultData where
  payload : Payload
  timestamp : Nat
  deriving DecidableEq, Repr

-- `closed` records the descriptors handed to close(), latest last. The
-- constructor leaves m_averageLatency unset: it starts with any value.
structure Client where
  m_fd : Int
  m_averageLatency : UInt32
  m_results : List ResultData
  closed : List Int
  deriving DecidableEq, Repr

-- What the calls of one sendData give: write's result, the bytes that have
-- arrived when read is called (`none` when it fails), the two clocks.
structure Exchange where
  written : Int
  arrived : Option (List Byte)
  timestamp : Nat
  duration : UInt32
  deriving DecidableEq, Repr

namespace Client

def payloadType : MessageType → RequestType
  | .GET => .GET
  | .SET => .SET
  | .STAT => .STAT

def request (msg : MessageT) : Except Fault (Option Payload) :=
  match msg.type with
  | none => .error .unassignedType
  | some type =>
    let payload := ({} : Payload).set_requesttype (payloadType type)
    let payload := if type ≠ .STAT then payload.set_key msg.key else payload
    if type = .SET then
      if msg.value.isEmpty then .ok none else .ok (some (payload.set_value msg.value))
    else .ok (some payload)

-- The header is the size in the byte order of the machine; `size + 4` is
-- computed in 32 bits.
def sendBuffer (order : ByteOrder) (pb : Protobuf) (payload : Payload) : Except Fault (List Byte) :=
  let size := pb.ByteSizeLong payload % 2^32
  let buffer := (pb.SerializeToArray payload (calloc size)).2
  match store (calloc ((size + 4) % 2^32)) 0 (order.encode size) with
  | none => .error .copyOutside
  | some send_buffer =>
    match store send_buffer 4 buffer with
    | none => .error .copyOutside
    | some send_buffer => .ok send_buffer

def recordLatency (average duration : UInt32) : UInt32 :=
  if average = 0 then duration else (average + duration) / 2

-- One read of at most MAX bytes; ParseFromArray's answer is not looked at.
def readResponse (pb : Protobuf) (arrived : List Byte) : Bool × Payload :=
  pb.ParseFromArray (arrived.take MAX)

def sendData (order : ByteOrder) (pb : Protobuf) (client : Client) (msg : MessageT) (exchange : Exchange) :
    Except Fault (Client × Int) :=
  match request msg with
  | .error fault => .error fault
  | .ok none => .ok (client,-1)
  | .ok (some payload) =>
    match sendBuffer order pb payload with
    | .error fault => .error fault
    | .ok _ =>
      if exchange.written < 0 then .ok (client,-1)
      else match exchange.arrived with
        | none => .ok (client,exchange.written)
        | some arrived =>
          .ok ({client with
            m_results := client.m_results ++ [⟨(readResponse pb arrived).2,exchange.timestamp⟩]
            closed := client.closed ++ [client.m_fd]
            m_averageLatency := recordLatency client.m_averageLatency exchange.duration},exchange.written)

inductive Requested (msg : MessageT) : Option Payload → Prop where
  | get : msg.type = some .GET → Requested msg (some {requesttype_ := some .GET,key_ := some msg.key})
  | stat : msg.type = some .STAT → Requested msg (some {requesttype_ := some .STAT})
  | set : msg.type = some .SET → msg.value ≠ [] →
      Requested msg (some {requesttype_ := some .SET,key_ := some msg.key,value_ := some msg.value})
  | refused : msg.type = some .SET → msg.value = [] → Requested msg none

theorem request_exact : request msg = .ok answer ↔ Requested msg answer := by
  constructor
  · intro built
    unfold request at built
    cases typed : msg.type with
    | none => simp [typed] at built
    | some type =>
      simp only [typed] at built
      cases type with
      | GET =>
        cases built
        exact .get typed
      | STAT =>
        cases built
        exact .stat typed
      | SET =>
        rw [if_pos rfl] at built
        split at built
        · rename_i empty
          cases built
          exact .refused typed (List.isEmpty_iff.mp empty)
        · rename_i present
          cases built
          exact .set typed fun empty => present (List.isEmpty_iff.mpr empty)
  · intro requested
    cases requested with
    | get typed => simp [request,typed]; rfl
    | stat typed => simp [request,typed]; rfl
    | set typed present => simp [request,typed,present]; rfl
    | refused typed empty => simp [request,typed,empty]

theorem request_typed (built : request msg = .ok (some payload)) : payload.has_requesttype = true := by
  cases request_exact.mp built <;> rfl

theorem sendBuffer_frame {pb : Protobuf} (small : pb.ByteSizeLong payload ≤ INT_MAX) :
    sendBuffer order pb payload = .ok (order.encode (pb.ByteSizeLong payload) ++ pb.encode payload) := by
  have bound : pb.ByteSizeLong payload ≤ 2147483647 := small
  have size : pb.ByteSizeLong payload % 2^32 = pb.ByteSizeLong payload := by omega
  have total : (pb.ByteSizeLong payload + 4) % 2^32 = pb.ByteSizeLong payload + 4 := by omega
  have written := pb.serialize_fresh payload 0 small
  have header : store (calloc (pb.ByteSizeLong payload + 4)) 0 (order.encode (pb.ByteSizeLong payload)) =
      some (filled (order.encode (pb.ByteSizeLong payload)) (pb.ByteSizeLong payload + 4)) :=
    store_calloc (by simp)
  have whole : (order.encode (pb.ByteSizeLong payload) ++ pb.encode payload).length =
      pb.ByteSizeLong payload + 4 := by
    simp only [List.length_append,ByteOrder.encode_length,Protobuf.ByteSizeLong]; omega
  have body : store (filled (order.encode (pb.ByteSizeLong payload)) (pb.ByteSizeLong payload + 4)) 4 (pb.encode payload) =
      some (order.encode (pb.ByteSizeLong payload) ++ pb.encode payload) := by
    have stored := store_filled (Nat.le_of_eq (List.length_append.symm.trans whole))
    rwa [order.encode_length,filled_of_length whole] at stored
  have empty : calloc 0 = [] := rfl
  rw [Nat.add_zero,empty,List.append_nil] at written
  simp only [sendBuffer,size,total,header,body,written]

end Client
end RemoteDict
