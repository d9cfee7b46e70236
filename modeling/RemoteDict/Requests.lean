import RemoteDict.TcpFlow
import RemoteDict.Codec
import RemoteDict.BloomFilter

namespace RemoteDict.Requests
open TcpFlow

variable {F : Type} [MembershipFilter F] {pb : Protobuf} {m response : Payload} {s : Shared F} {flow other : TcpFlow}
  {type : RequestType}

def Untouched (outcome : Outcome F) (s : Shared F) : Prop := outcome.shared = s ∧ handlers outcome.events = []

theorem untouched_exact :
    Untouched (flow.parse pb s) s ↔ (pb.ParseFromArray flow.received).2.has_requesttype = false := by
  cases typed : (pb.ParseFromArray flow.received).2.requesttype_ with
  | none =>
    rw [parse_untyped typed]
    simp [Untouched,handlers,handledType,Payload.has_requesttype,typed]
  | some type =>
    cases ran : handle type (pb.ParseFromArray flow.received).2 s with
    | error fault =>
      rw [parse_faulted typed ran]
      simp [Untouched,handlers,handledType,Payload.has_requesttype,typed]
    | ok result =>
      rw [parse_handled typed ran]
      simp [Untouched,handlers,handledType,Payload.has_requesttype,typed]

-- Parse depends on the received bytes through the fields they leave only.
theorem parse_same (same : (pb.ParseFromArray flow.received).2 = (pb.ParseFromArray other.received).2) :
    (flow.parse pb s).shared = (other.parse pb s).shared ∧
    handlers (flow.parse pb s).events = handlers (other.parse pb s).events := by
  unfold TcpFlow.parse
  dsimp only
  rw [same]
  split
  · split <;> exact ⟨rfl,rfl⟩
  · exact ⟨rfl,rfl⟩

-- A refused string is served as an accepted one with the same fields would be.
theorem malformed_exact (refused : pb.ParseFromArray flow.received = (false,m)) :
    (Untouched (flow.parse pb s) s ↔ m.has_requesttype = false) ∧
    ∀ other : TcpFlow, pb.ParseFromArray other.received = (true,m) →
      (flow.parse pb s).shared = (other.parse pb s).shared ∧
      handlers (flow.parse pb s).events = handlers (other.parse pb s).events := by
  refine ⟨?_,?_⟩
  · rw [untouched_exact,refused]
  · intro other accepted
    apply parse_same
    rw [refused,accepted]

def holding (bytes : List Foundation.Block.Byte) : TcpFlow :=
  {new (text "0x1") with
    m_data := some bytes,m_payloadLen := bytes.length,m_lenTillnow := bytes.length + 4,m_currlen := some bytes.length}

def empty : Shared (BloomFilter BloomFilter.small) := ⟨.new,{}⟩

theorem malformed_exact_cut :
    (Untouched ((holding [8,2,18,3,107]).parse Codec.codec empty) empty ↔
      ({requesttype_ := some .SET} : Payload).has_requesttype = false) ∧
    ∀ other : TcpFlow, Codec.codec.ParseFromArray other.received = (true,{requesttype_ := some .SET}) →
      ((holding [8,2,18,3,107]).parse Codec.codec empty).shared = (other.parse Codec.codec empty).shared ∧
      handlers ((holding [8,2,18,3,107]).parse Codec.codec empty).events = handlers (other.parse Codec.codec empty).events :=
  malformed_exact (by decide)

theorem malformed_stored :
    (Codec.codec.ParseFromArray (holding [8,2,18,1,107,26,1,118,0]).received).1 = false ∧
    ((holding [8,2,18,1,107,26,1,118,0]).parse Codec.codec empty).shared.dictionary.m_dict.lookup (text "k") =
      some (text "v") ∧
    ¬ Untouched ((holding [8,2,18,1,107,26,1,118,0]).parse Codec.codec empty) empty := by
  refine ⟨by decide,by decide,?_⟩
  rw [untouched_exact]
  decide

def Truthful (m response : Payload) (d : Dictionary F) : RequestType → Prop
  | .GET => (response.has_value = true ↔ m.key ∈ d.m_dict) ∧
      (∀ value, d.m_dict.lookup m.key = some value → response.value_ = some value) ∧
      (response.has_reason = true ↔ m.key ∉ d.m_dict)
  | .SET => response.has_reason = true ↔ ∃ after, d.set m.key m.value = .ok (after,false)
  | .STAT => True

def Kept (m response : Payload) : Prop := response.requesttype_ = m.requesttype_ ∧ response.key_ = m.key_

def Clean (m : Payload) (d : Dictionary F) : RequestType → Prop
  | .GET => (m.key ∈ d.m_dict → m.has_reason = false) ∧ (m.key ∉ d.m_dict → m.has_value = false)
  | .SET => d.full = false → m.has_reason = false
  | .STAT => True

theorem handled_kept (handled : handle type m s = .ok (response,next)) : Kept m response := by
  cases handle_exact.mp handled <;> exact ⟨rfl,rfl⟩

theorem get_truthful (disabled : s.dictionary.m_bloomFilterEnabled = false)
    (handled : handleGetRequest m s = .ok (response,next)) :
    Truthful m response s.dictionary .GET ↔ Clean m s.dictionary .GET := by
  rw [get_handled disabled,Except.ok.injEq] at handled
  cases found : s.dictionary.m_dict.lookup m.key with
  | none =>
    have absent : m.key ∉ s.dictionary.m_dict := AList.lookup_eq_none.mp found
    rw [found] at handled
    cases handled
    simp [Truthful,Clean,absent,found,Payload.set_reason,Payload.has_value,Payload.has_reason]
  | some value =>
    have held : m.key ∈ s.dictionary.m_dict := AList.lookup_isSome.mp (by rw [found]; rfl)
    rw [found] at handled
    cases handled
    simp [Truthful,Clean,held,found,Payload.set_value,Payload.has_value,Payload.has_reason]

theorem set_truthful (disabled : s.dictionary.m_bloomFilterEnabled = false)
    (handled : handleSetRequest m s = .ok (response,next)) :
    Truthful m response s.dictionary .SET ↔ Clean m s.dictionary .SET := by
  rw [set_handled disabled,Except.ok.injEq] at handled
  have stored := Dictionary.setLocked_disabled disabled m.key m.value
  cases room : s.dictionary.full with
  | true =>
    rw [room] at handled
    cases handled
    simp [Truthful,Clean,room,Dictionary.set_full room,Payload.set_reason,Payload.has_reason]
  | false =>
    rw [room] at handled
    cases handled
    simp [Truthful,Clean,room,Dictionary.set_open room stored]

theorem handled_disabled (disabled : s.dictionary.m_bloomFilterEnabled = false) (type : RequestType) (m : Payload) :
    ∃ response next, handle type m s = .ok (response,next) := by
  cases type with
  | GET => exact ⟨_,_,get_handled disabled⟩
  | SET => exact ⟨_,_,set_handled disabled⟩
  | STAT => exact ⟨_,_,rfl⟩

-- Every request is answered; whether by the truth depends on its other fields.
theorem truthful_exact (decoded : (pb.ParseFromArray flow.received).2 = m) (typed : m.requesttype_ = some type)
    (disabled : s.dictionary.m_bloomFilterEnabled = false) :
    ∃ next, (flow.parse pb s).flow = some next ∧ .respond (sendResponse pb next.m_payload) ∈ (flow.parse pb s).events ∧
      (Kept m next.m_payload ∧ Truthful m next.m_payload s.dictionary type ↔ Clean m s.dictionary type) := by
  subst decoded
  obtain ⟨response,after,handled⟩ := handled_disabled disabled type (pb.ParseFromArray flow.received).2
  rw [parse_handled typed handled]
  refine ⟨_,rfl,by simp,?_⟩
  have kept := handled_kept handled
  cases type with
  | GET => exact (and_iff_right kept).trans (get_truthful disabled handled)
  | SET => exact (and_iff_right kept).trans (set_truthful disabled handled)
  | STAT => exact ⟨fun _ => trivial,fun _ => ⟨kept,trivial⟩⟩

theorem truthful_exact_get :
    ∃ next, ((holding [8,1,18,1,107]).parse Codec.codec empty).flow = some next ∧
      .respond (sendResponse Codec.codec next.m_payload) ∈ ((holding [8,1,18,1,107]).parse Codec.codec empty).events ∧
      (Kept {requesttype_ := some .GET,key_ := some (text "k")} next.m_payload ∧
        Truthful {requesttype_ := some .GET,key_ := some (text "k")} next.m_payload empty.dictionary .GET ↔
        Clean {requesttype_ := some .GET,key_ := some (text "k")} empty.dictionary .GET) :=
  truthful_exact (by decide) rfl rfl

theorem absent_key_valued :
    (((holding [8,1,18,1,107,26,1,118]).parse Codec.codec empty).flow.map (·.m_payload)) =
      some {requesttype_ := some .GET,key_ := some (text "k"),value_ := some (text "v"),reason_ := some NOT_FOUND} ∧
    text "k" ∉ empty.dictionary.m_dict ∧
    ¬ Truthful {requesttype_ := some .GET,key_ := some (text "k"),value_ := some (text "v")}
      {requesttype_ := some .GET,key_ := some (text "k"),value_ := some (text "v"),reason_ := some NOT_FOUND}
      empty.dictionary .GET := by
  refine ⟨by decide,by decide,fun honest => ?_⟩
  have held := honest.1.mp rfl
  exact absurd held (by decide)

end RemoteDict.Requests
