import RemoteDict.Reassembly

namespace RemoteDict.Completed
open Foundation.Block TcpFlow Framing Reassembly

variable {F : Type} [MembershipFilter F] {order : ByteOrder} {pb : Protobuf} {payload : List Byte} {flow next : TcpFlow}
  {s : Shared F}

structure Complete (payload : List Byte) (flow : TcpFlow) : Prop where
  length : flow.m_payloadLen = payload.length
  block : flow.m_data = some payload
  currlen : flow.m_currlen = some payload.length
  till : flow.m_lenTillnow = payload.length + 4

theorem assembled_complete (assembled : Assembled payload (payload.length + 4) flow) : Complete payload flow := by
  refine ⟨assembled.length,?_,assembled.currlen,assembled.till⟩
  have block := assembled.block
  rwa [Nat.add_sub_cancel,List.take_length,filled_of_length rfl] at block

theorem frame_complete (fits : payload.length + 4 < 2^32) (split : Segmentation F (frame order payload))
    (long : 4 < firstRead split.callbacks)
    (left : after order pb fd (new addr) (split.callbacks.map callback) = some flow) : Complete payload flow := by
  have begun : ∀ first ∈ (split.callbacks.flatMap (·.2)).head?, 4 < first.length := by
    intro first member
    rwa [firstRead,member] at long
  have some : split.callbacks.flatMap (·.2) ≠ [] := by
    intro none
    rw [firstRead,none] at long
    exact absurd long (Nat.not_lt_zero 4)
  have proper : Proper order payload (chunks (split.callbacks.map callback)) := by
    rw [segmentation_chunks]
    exact ⟨⟨[],(List.append_nil _).trans split.joined⟩,begun⟩
  have stands := after_stands fits (.fresh (fresh_new addr)) proper left
  rw [List.nil_append,segmentation_chunks] at stands
  have assembled := stands.assembled some
  rw [split.joined,frame_length] at assembled
  exact assembled_complete assembled

def Hangup : List ReadResult → Prop
  | .got [] :: _ => True
  | .failed errno :: _ => errno ≠ .EAGAIN
  | _ => False

def Closes : List (Callback F) → Prop
  | [] => True
  | callback :: _ => Hangup callback.reads

-- Neither handler nor response, and nothing that could become one: after a
-- fault the program may do either.
def Quiet (events : List Event) : Prop :=
  ∀ event ∈ events, (∀ type, event ≠ .handle type) ∧ (∀ buffer, event ≠ .respond buffer) ∧ ∀ fault, event ≠ .fault fault

theorem complete_moved (complete : Complete payload flow) (fd : Int) : Complete payload {flow with m_clientFd := fd} :=
  ⟨complete.length,complete.block,complete.currlen,complete.till⟩

theorem data_hangup (hangup : Hangup reads) (s : Shared F) :
    data order pb flow fd EV_READ reads s = ⟨none,s,[.delete flow.m_selfAddr]⟩ := by
  cases reads with
  | nil => cases hangup
  | cons result reads =>
    cases result with
    | got chunk =>
      cases chunk with
      | nil => rfl
      | cons byte chunk => cases hangup
    | failed errno =>
      have looped : readLoop order NUM_READ_TRY {flow with m_clientFd := fd} (.failed errno :: reads) =
          .ok ({flow with m_clientFd := fd},true) := if_pos hangup
      exact data_deleted looped s

theorem parse_again (complete : Complete payload flow) (answered : (pb.ParseFromArray payload).2.has_requesttype = true)
    (s : Shared F) : ∃ type, .handle type ∈ (flow.parse pb s).events := by
  have bytes : flow.received = payload := by
    rw [received,complete.block,complete.length,Option.getD_some,List.take_length]
  obtain ⟨type,typed⟩ := Option.isSome_iff_exists.mp answered
  rw [← bytes] at typed
  refine ⟨type,?_⟩
  cases ran : handle type (pb.ParseFromArray flow.received).2 s with
  | error fault => rw [parse_faulted typed ran]; simp
  | ok result => rw [parse_handled typed ran]; simp

theorem data_repeats (complete : Complete payload flow) (answered : (pb.ParseFromArray payload).2.has_requesttype = true)
    (idle : readLoop order NUM_READ_TRY {flow with m_clientFd := fd} reads = .ok ({flow with m_clientFd := fd},false))
    (s : Shared F) : ¬ Quiet (data order pb flow fd EV_READ reads s).events := by
  intro quiet
  have reached : flow.m_payloadLen ≤ flow.m_lenTillnow := by rw [complete.till,complete.length]; omega
  rw [data_kept idle] at quiet
  dsimp only at quiet
  rw [if_pos reached] at quiet
  obtain ⟨type,member⟩ := parse_again (complete_moved complete fd) answered s
  exact (quiet _ member).1 type rfl

theorem data_overruns (complete : Complete payload flow) (some : chunk ≠ []) (s : Shared F) :
    data order pb flow fd EV_READ (.got chunk :: reads) s = ⟨none,s,[.fault .copyOutside]⟩ := by
  have positive := List.length_pos_of_ne_nil some
  have outside : store payload payload.length chunk = none := store_none.mpr (by omega)
  have faulted : readLoop order NUM_READ_TRY {flow with m_clientFd := fd} (.got chunk :: reads) = .error .copyOutside := by
    rw [NUM_READ_TRY,readLoop_got some]
    simp only [receive,complete.block,complete.currlen,outside]
  exact data_faulted faulted s

theorem data_again (complete : Complete payload flow) (answered : (pb.ParseFromArray payload).2.has_requesttype = true)
    (stays : ¬ Hangup reads) (s : Shared F) : ¬ Quiet (data order pb flow fd EV_READ reads s).events := by
  cases reads with
  | nil => exact data_repeats complete answered rfl s
  | cons result reads =>
    cases result with
    | failed errno =>
      apply data_repeats complete answered
      exact if_neg stays
    | got chunk =>
      have some : chunk ≠ [] := by
        rintro rfl
        exact stays trivial
      rw [data_overruns complete some]
      intro quiet
      exact (quiet _ (.head _)).2.2 _ rfl

theorem one_request_exact (complete : Complete payload flow)
    (answered : (pb.ParseFromArray payload).2.has_requesttype = true) (fd : Int) (callbacks : List (Callback F)) :
    (∀ events ∈ serve order pb fd flow callbacks, Quiet events) ↔ Closes callbacks := by
  cases callbacks with
  | nil => simp [serve,Closes]
  | cons callback rest =>
    by_cases hangup : Hangup callback.reads
    · refine iff_of_true ?_ hangup
      intro events member
      rw [serve,data_hangup hangup] at member
      cases List.mem_singleton.mp member
      simp [Quiet]
    · refine iff_of_false ?_ hangup
      intro quiet
      apply data_again complete answered hangup callback.shared
      apply quiet
      rw [serve]
      split <;> exact .head _

def answeredK1 : TcpFlow := ⟨7,text "0x1",{},some [8,1,18,2,107,49],6,10,some 6⟩

theorem one_request_exact_eof :
    (∀ events ∈ serve .little Codec.codec 7 answeredK1 [⟨idle,[.got []]⟩], Quiet events) ↔
      Closes [(⟨idle,[.got []]⟩ : Callback (BloomFilter BloomFilter.small))] :=
  one_request_exact (show Complete [8,1,18,2,107,49] answeredK1 from ⟨rfl,rfl,rfl,rfl⟩) (by decide) 7 [⟨idle,[.got []]⟩]

-- The frame of GET k1, and then a readiness whose first read gives EAGAIN.
theorem answered_twice :
    (serve .little Codec.codec 7 (new (text "0x1"))
      [⟨idle,[.got [6,0,0,0,8,1,18,2,107,49]]⟩,⟨idle,[]⟩]).map handlers = [[.GET],[.GET]] := by decide

end RemoteDict.Completed
