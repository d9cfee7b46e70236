import RemoteDict.Capacity
import RemoteDict.Requests
import RemoteDict.Results

namespace RemoteDict.Outcomes
open Results TcpFlow

variable {F : Type} [MembershipFilter F] {s t : Shared F} {a b request : Payload}

-- The responses to the requests that sendData builds.
def Sent (msg : MessageT) (s : Shared F) (response : Payload) : Prop :=
  ∃ request type next, Client.request msg = .ok (some request) ∧ request.requesttype_ = some type ∧
    handle type request s = .ok (response,next)

-- A found value and NOT_FOUND, or a SET that is stored and one that is refused,
-- with what the last column is to tell them apart by. With the filter enabled a
-- value that is found goes into reason.
inductive Opposed (s : Shared F) (a b : Payload) : Str → Str → Prop where
  | get : a.requesttype_ = some .GET → b.requesttype_ = some .GET → s.dictionary.m_dict.lookup a.key = some v →
      a.value_ = some v ∨ a.value_ = none ∧ a.reason_ = some v → b.value_ = none → b.reason_ = some NOT_FOUND →
      Opposed s a b v NOT_FOUND
  | set : a.requesttype_ = some .SET → b.requesttype_ = some .SET → a.reason_ = none → b.reason_ = some (text "failed") →
      Opposed s a b a.value b.value

def line (timestamp : Nat) (type : RequestType) (key content : Str) : Str :=
  to_string timestamp ++ column (getReqType type) ++ column key ++ column content ++ [] ++ text "\n"

theorem line_exact (timestamp : Nat) (type : RequestType) (key left right : Str) :
    line timestamp type key left = line timestamp type key right ↔ left = right := by
  simp only [line,column,List.append_nil,List.append_assoc,List.append_cancel_left_eq,List.append_cancel_right_eq]

theorem request_get (built : Client.request msg = .ok (some request)) (typed : request.requesttype_ = some .GET) :
    request = {requesttype_ := some .GET,key_ := some msg.key} := by
  cases Client.request_exact.mp built with
  | get => rfl
  | stat | set => cases typed

theorem request_set (built : Client.request msg = .ok (some request)) (typed : request.requesttype_ = some .SET) :
    request = {requesttype_ := some .SET,key_ := some msg.key,value_ := some msg.value} := by
  cases Client.request_exact.mp built with
  | set => rfl
  | get | stat => cases typed

theorem sent_get (sent : Sent msg s a) (typed : a.requesttype_ = some .GET) : ∃ shown,
    a = {requesttype_ := some .GET,key_ := some msg.key,value_ := some shown} ∨
    a = {requesttype_ := some .GET,key_ := some msg.key,reason_ := some shown} := by
  obtain ⟨request,type,next,built,asked,handled⟩ := sent
  have kept := (Requests.handled_kept handled).1
  rw [typed,asked] at kept
  cases kept
  rw [request_get built asked] at handled
  cases handle_exact.mp handled with
  | found => exact ⟨_,.inl rfl⟩
  | missed => exact ⟨_,.inr rfl⟩

theorem sent_set (sent : Sent msg s a) (typed : a.requesttype_ = some .SET) : ∃ reason,
    a = {requesttype_ := some .SET,key_ := some msg.key,value_ := some msg.value,reason_ := reason} := by
  obtain ⟨request,type,next,built,asked,handled⟩ := sent
  have kept := (Requests.handled_kept handled).1
  rw [typed,asked] at kept
  cases kept
  rw [request_set built asked] at handled
  cases handle_exact.mp handled with
  | accepted => exact ⟨_,rfl⟩
  | refused => exact ⟨_,rfl⟩

theorem row_get (sent : Sent msg s a) (typed : a.requesttype_ = some .GET) (timestamp : Nat)
    (shown : a.value_ = some content ∨ a.value_ = none ∧ a.reason_ = some content) :
    row ⟨a,timestamp⟩ = some (line timestamp .GET msg.key content) := by
  obtain ⟨held,rfl | rfl⟩ := sent_get sent typed
  · rcases shown with found | ⟨absent,_⟩
    · cases found
      rfl
    · cases absent
  · rcases shown with found | ⟨_,found⟩
    · cases found
    · cases found
      rfl

theorem row_set (sent : Sent msg s a) (typed : a.requesttype_ = some .SET) (timestamp : Nat) :
    row ⟨a,timestamp⟩ = some (line timestamp .SET msg.key a.value) := by
  obtain ⟨reason,rfl⟩ := sent_set sent typed
  rfl

theorem sent_key (sent : Sent msg s a) (typed : a.requesttype_ = some .GET ∨ a.requesttype_ = some .SET) :
    a.key_ = some msg.key := by
  rcases typed with get | set
  · obtain ⟨held,rfl | rfl⟩ := sent_get sent get <;> rfl
  · obtain ⟨reason,rfl⟩ := sent_set sent set
    rfl

theorem row_exact (left : Sent msg s a) (right : Sent other t b) (same : a.key_ = b.key_) (opposed : Opposed s a b x y)
    (timestamp : Nat) : row ⟨a,timestamp⟩ ≠ row ⟨b,timestamp⟩ ↔ x ≠ y := by
  cases opposed with
  | get asked asks held found absent missing =>
    rw [sent_key left (.inl asked),sent_key right (.inl asks)] at same
    rw [row_get left asked timestamp found,row_get right asks timestamp (.inr ⟨absent,missing⟩),Option.some.inj same]
    exact not_congr (Option.some_inj.trans (line_exact _ _ _ _ _))
  | set asked asks accepted refused =>
    rw [sent_key left (.inr asked),sent_key right (.inr asks)] at same
    rw [row_set left asked timestamp,row_set right asks timestamp,Option.some.inj same]
    exact not_congr (Option.some_inj.trans (line_exact _ _ _ _ _))

def holding (key value : Str) : Shared (BloomFilter BloomFilter.small) :=
  ⟨{Dictionary.new with m_dict := (∅ : AList fun _ : Str => Str).insert key value},{}⟩

def asking : MessageT := ⟨some .GET,text "k1",[]⟩

def found (value : Str) : Payload := {requesttype_ := some .GET,key_ := some (text "k1"),value_ := some value}

def missing : Payload := {requesttype_ := some .GET,key_ := some (text "k1"),reason_ := some NOT_FOUND}

theorem found_sent (value : Str) : Sent asking (holding (text "k1") value) (found value) := ⟨_,_,_,rfl,rfl,rfl⟩

theorem missing_sent : Sent asking (holding (text "k2") []) missing := ⟨_,_,_,rfl,rfl,rfl⟩

theorem found_opposed (value : Str) : Opposed (holding (text "k1") value) (found value) missing value NOT_FOUND :=
  .get rfl rfl rfl (.inl rfl) rfl rfl

theorem row_exact_found : row ⟨found (text "v1"),7⟩ ≠ row ⟨missing,7⟩ ↔ text "v1" ≠ NOT_FOUND :=
  row_exact (found_sent _) missing_sent rfl (found_opposed _) 7

def storing : MessageT := ⟨some .SET,text "k1",text "v1"⟩

def answer (reason : Option Str) : Payload :=
  {requesttype_ := some .SET,key_ := some (text "k1"),value_ := some (text "v1"),reason_ := reason}

theorem refused_sent {full : Shared (BloomFilter BloomFilter.small)} (filled : Capacity.Filled MAX_DICT_SIZE full) :
    Sent storing full (answer (some (text "failed"))) := by
  have limit : full.dictionary.full = true := by simp [Dictionary.full,filled.size]
  refine ⟨answer none,.SET,full,by decide,rfl,?_⟩
  exact handle_exact.mpr (.refused (Dictionary.set_full limit))

theorem rows_same :
    (∃ (s t : Shared (BloomFilter BloomFilter.small)) (a b : Payload), Sent asking s a ∧ Sent asking t b ∧
      a.key_ = b.key_ ∧ Opposed s a b NOT_FOUND NOT_FOUND ∧ ∀ timestamp, row ⟨a,timestamp⟩ = row ⟨b,timestamp⟩) ∧
    ∃ (s t : Shared (BloomFilter BloomFilter.small)) (a b : Payload), Sent storing s a ∧ Sent storing t b ∧
      a.key_ = b.key_ ∧ Opposed s a b (text "v1") (text "v1") ∧ ∀ timestamp, row ⟨a,timestamp⟩ = row ⟨b,timestamp⟩ := by
  constructor
  · exact ⟨_,_,_,_,found_sent NOT_FOUND,missing_sent,rfl,found_opposed NOT_FOUND,fun _ => rfl⟩
  · obtain ⟨_,full,_,filled⟩ := Capacity.filled_run (F:=BloomFilter BloomFilter.small) MAX_DICT_SIZE (Nat.le_refl _)
    have accepted : Sent storing (holding (text "k2") []) (answer none) := ⟨answer none,.SET,_,by decide,rfl,rfl⟩
    exact ⟨_,full,_,_,accepted,refused_sent filled,rfl,.set rfl rfl rfl rfl,fun _ => rfl⟩

end RemoteDict.Outcomes
