import RemoteDict.Client
import RemoteDict.Codec
import RemoteDict.Foundation.Indexed

namespace RemoteDict.ClientRun
open Foundation Foundation.Block Client

-- What ends a loop of the client in behaviour that is not defined: a fault of its
-- body, or the increment of its int index.
inductive Halt where
  | fault (fault : Fault)
  | index
  deriving DecidableEq, Repr

-- What the calls made for one message give: the results of socket and connect,
-- and those of sendData.
structure Attempt where
  socket : Int
  connect : Int
  exchange : Exchange
  deriving DecidableEq, Repr

def startClient (client : Client) (attempt : Attempt) : Client × Bool :=
  let client := {client with m_fd := attempt.socket}
  if attempt.socket = -1 then (client,false)
  else if attempt.connect ≠ 0 then (client,false)
  else (client,true)

abbrev Call := MessageT × Attempt

def body (order : ByteOrder) (pb : Protobuf) (client : Client) (call : Call) : Except Halt Client :=
  match startClient client call.2 with
  | (client,false) => .ok client
  | (client,true) =>
    match sendData order pb client call.1 call.2.exchange with
    | .error fault => .error (.fault fault)
    | .ok (client,_) => .ok client

def run (order : ByteOrder) (pb : Protobuf) (client : Client) (calls : List Call) : Except Halt Client :=
  Indexed.loop INT_MAX .index (body order pb) 0 client calls

def opens (call : Call) : List Int := if call.2.socket = -1 then [] else [call.2.socket]

def opened (calls : List Call) : List Int := calls.flatMap opens

-- None of the early returns of sendData is taken.
def Answered (msg : MessageT) (exchange : Exchange) : Prop :=
  ¬(msg.type = some .SET ∧ msg.value = []) ∧ 0 ≤ exchange.written ∧ exchange.arrived.isSome

instance (msg : MessageT) (exchange : Exchange) : Decidable (Answered msg exchange) :=
  inferInstanceAs (Decidable (_ ∧ _ ∧ _))

def Completes (call : Call) : Prop := call.2.socket ≠ -1 ∧ call.2.connect = 0 ∧ Answered call.1 call.2.exchange

instance (call : Call) : Decidable (Completes call) := inferInstanceAs (Decidable (_ ∧ _ ∧ _))

variable {order : ByteOrder} {pb : Protobuf} {client next later : Client} {call : Call} {calls : List Call}

theorem request_refused (built : request msg = .ok none) : msg.type = some .SET ∧ msg.value = [] := by
  cases request_exact.mp built with
  | refused typed empty => exact ⟨typed,empty⟩

theorem request_built (built : request msg = .ok (some payload)) : ¬(msg.type = some .SET ∧ msg.value = []) := by
  intro refused
  cases request_exact.mp built with
  | get typed => cases typed.symm.trans refused.1
  | stat typed => cases typed.symm.trans refused.1
  | set _ present => exact present refused.2

theorem sendData_left (sent : sendData order pb client msg exchange = .ok (next,len)) :
    (¬Answered msg exchange ∧ next = client) ∨
    Answered msg exchange ∧ ∃ arrived, exchange.arrived = some arrived ∧ next = {client with
      m_results := client.m_results ++ [⟨(readResponse pb arrived).2,exchange.timestamp⟩]
      closed := client.closed ++ [client.m_fd]
      m_averageLatency := recordLatency client.m_averageLatency exchange.duration} := by
  unfold sendData at sent
  cases built : request msg with
  | error fault =>
    rw [built] at sent
    cases sent
  | ok made =>
    cases made with
    | none =>
      rw [built] at sent
      cases sent
      exact .inl ⟨fun answered => answered.1 (request_refused built),rfl⟩
    | some payload =>
      simp only [built] at sent
      cases framed : sendBuffer order pb payload with
      | error fault =>
        rw [framed] at sent
        cases sent
      | ok outgoing =>
        simp only [framed] at sent
        split at sent
        · rename_i failed
          cases sent
          exact .inl ⟨fun answered => absurd answered.2.1 (Int.not_le.mpr failed),rfl⟩
        · rename_i written
          cases read : exchange.arrived with
          | none =>
            rw [read] at sent
            cases sent
            refine .inl ⟨fun answered => ?_,rfl⟩
            have held := answered.2.2
            rw [read] at held
            cases held
          | some arrived =>
            rw [read] at sent
            cases sent
            exact .inr ⟨⟨request_built built,Int.not_lt.mp written,by rw [read]; rfl⟩,arrived,rfl,rfl⟩

inductive Served (pb : Protobuf) (client : Client) (call : Call) : Client → Prop where
  | left : ¬Completes call → Served pb client call {client with m_fd := call.2.socket}
  | completed : Completes call → call.2.exchange.arrived = some arrived → Served pb client call {client with
      m_fd := call.2.socket
      m_results := client.m_results ++ [⟨(readResponse pb arrived).2,call.2.exchange.timestamp⟩]
      closed := client.closed ++ [call.2.socket]
      m_averageLatency := recordLatency client.m_averageLatency call.2.exchange.duration}

theorem body_served (ran : body order pb client call = .ok next) : Served pb client call next := by
  unfold body startClient at ran
  dsimp only at ran
  by_cases refused : call.2.socket = -1
  · rw [if_pos refused] at ran
    cases ran
    exact .left fun completes => completes.1 refused
  · rw [if_neg refused] at ran
    by_cases failed : call.2.connect ≠ 0
    · rw [if_pos failed] at ran
      cases ran
      exact .left fun completes => failed completes.2.1
    · rw [if_neg failed] at ran
      dsimp only at ran
      cases sent : sendData order pb {client with m_fd := call.2.socket} call.1 call.2.exchange with
      | error fault =>
        rw [sent] at ran
        cases ran
      | ok result =>
        obtain ⟨left,len⟩ := result
        rw [sent] at ran
        cases ran
        rcases sendData_left sent with ⟨stopped,same⟩ | ⟨answered,arrived,read,same⟩
        · rw [same]
          exact .left fun completes => stopped completes.2.2
        · rw [same]
          exact .completed ⟨refused,not_not.mp failed,answered⟩ read

def closes (call : Call) : List Int := if Completes call then [call.2.socket] else []

theorem Served.closed (served : Served pb client call next) : next.closed = client.closed ++ closes call := by
  cases served with
  | left stopped => rw [closes,if_neg stopped,List.append_nil]
  | completed completes read => rw [closes,if_pos completes]

theorem each_closed (ran : Indexed.each (body order pb) client calls = .ok later) :
    later.closed = client.closed ++ calls.flatMap closes := by
  induction calls generalizing client with
  | nil =>
    cases ran
    exact (List.append_nil _).symm
  | cons call calls ih =>
    obtain ⟨next,first,rest⟩ := Indexed.each_cons.mp ran
    rw [ih rest,(body_served first).closed,List.flatMap_cons,List.append_assoc]

theorem closes_fewer (calls : List Call) : (calls.flatMap closes).length ≤ (opened calls).length := by
  induction calls with
  | nil => exact Nat.le_refl 0
  | cons call calls ih =>
    have here : (closes call).length ≤ (opens call).length := by
      unfold closes opens
      split
      · rename_i completes
        exact Nat.le_of_eq (congrArg List.length (if_neg completes.1).symm)
      · exact Nat.zero_le _
    simp only [opened,List.flatMap_cons,List.length_append] at ih ⊢
    omega

theorem closes_all (calls : List Call) : calls.flatMap closes = opened calls ↔
    ∀ call ∈ calls, call.2.socket ≠ -1 → Completes call := by
  induction calls with
  | nil => simp [opened]
  | cons call calls ih =>
    simp only [opened,List.flatMap_cons,List.forall_mem_cons] at ih ⊢
    rw [← ih]
    by_cases completes : Completes call
    · have same : closes call = opens call := by
        rw [closes,opens,if_pos completes,if_neg completes.1]
      rw [same,List.append_cancel_left_eq]
      exact ⟨fun rest => ⟨fun _ => completes,rest⟩,And.right⟩
    · have none : closes call = [] := if_neg completes
      by_cases refused : call.2.socket = -1
      · rw [none,opens,if_pos refused]
        exact ⟨fun rest => ⟨fun socket => absurd refused socket,rest⟩,And.right⟩
      · have fewer := closes_fewer calls
        rw [none,opens,if_neg refused]
        refine iff_of_false (fun same => ?_) (fun both => completes (both.1 refused))
        have lengths := congrArg List.length same
        simp only [opened,List.nil_append,List.length_append,List.length_singleton] at fewer lengths
        omega

theorem run_closes (ran : run order pb client calls = .ok later) :
    later.closed = client.closed ++ opened calls ↔ ∀ call ∈ calls, call.2.socket ≠ -1 → Completes call := by
  obtain ⟨_,through⟩ := (Indexed.loop_exact (Nat.zero_le _)).mp ran
  rw [each_closed through,List.append_cancel_left_eq,closes_all]

def mixed : List Call :=
  [(⟨some .GET,text "k1",[]⟩,⟨5,-1,⟨0,none,0,0⟩⟩),(⟨some .SET,text "k2",text "v2"⟩,⟨6,0,⟨14,some [],1,7⟩⟩)]

def fresh : Client := ⟨0,0,[],[]⟩

theorem run_closes_mixed : ∃ later, run .little Codec.codec fresh mixed = .ok later ∧
    (later.closed = [] ++ opened mixed ↔ ∀ call ∈ mixed, call.2.socket ≠ -1 → Completes call) := by
  have ran : run .little Codec.codec fresh mixed = .ok ⟨6,7,[⟨(Codec.codec.ParseFromArray []).2,1⟩],[6]⟩ := by decide
  exact ⟨_,ran,run_closes ran⟩

-- A SET without a value on a connection that is up.
def unfinished : List Call := [(⟨some .SET,text "k2",[]⟩,⟨5,0,⟨0,none,0,0⟩⟩)]

theorem run_leaks : ∃ later, run .little Codec.codec fresh unfinished = .ok later ∧ opened unfinished = [5] ∧
    later.closed = [] ∧ later.closed ≠ fresh.closed ++ opened unfinished :=
  ⟨⟨5,0,[],[]⟩,by decide,by decide,rfl,by decide⟩

end RemoteDict.ClientRun
