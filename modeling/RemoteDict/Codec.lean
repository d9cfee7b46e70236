import RemoteDict.Foundation.Wire
import RemoteDict.Messagebody

namespace RemoteDict.Codec
open Foundation.Wire

-- The wire format of messagebody.proto, as an instance of the runtime that the
-- rest of the development leaves open. Length and varint limits are not
-- enforced and groups are refused.
def typeNumber : RequestType → Nat
  | .GET => 1
  | .SET => 2
  | .STAT => 3

-- An enum value that is not declared goes to the unknown fields.
def typeOf : Nat → Option RequestType
  | 1 => some .GET
  | 2 => some .SET
  | 3 => some .STAT
  | _ => none

def writeInt (value : Int32) : Value := .varint value.toInt64.toUInt64.toNat
def readInt (n : Nat) : Int32 := (UInt64.ofNat n).toInt64.toInt32

def field (number : Nat) (write : α → Value) (value : Option α) : List Field :=
  (value.map fun value => (number,write value)).toList

def statFields (stat : Stat) : List Field :=
  field 1 writeInt stat.numgetreq_ ++ field 2 writeInt stat.numsuccgetreq_ ++ field 3 writeInt stat.numfailgetreq_

def payloadFields (m : Payload) : List Field :=
  field 1 (fun type => .varint (typeNumber type)) m.requesttype_ ++ field 2 .delimited m.key_ ++
    field 3 .delimited m.value_ ++ field 4 (fun stat => .delimited (writeMessage (statFields stat))) m.stats_ ++
    field 5 .delimited m.reason_

def mergeStat (stat : Stat) : Field → Bool × Stat
  | (1,.varint n) => (true,{stat with numgetreq_ := some (readInt n)})
  | (2,.varint n) => (true,{stat with numsuccgetreq_ := some (readInt n)})
  | (3,.varint n) => (true,{stat with numfailgetreq_ := some (readInt n)})
  | _ => (true,stat)

def mergePayload (m : Payload) : Field → Bool × Payload
  | (1,.varint n) => (true,{m with requesttype_ := (typeOf n).or m.requesttype_})
  | (2,.delimited bytes) => (true,{m with key_ := some bytes})
  | (3,.delimited bytes) => (true,{m with value_ := some bytes})
  | (4,.delimited bytes) =>
    let stats := readMessage mergeStat (m.stats_.getD {}) bytes
    (stats.1,{m with stats_ := some stats.2})
  | (5,.delimited bytes) => (true,{m with reason_ := some bytes})
  | _ => (true,m)

def parse (bytes : List Byte) : Bool × Payload :=
  let read := readMessage mergePayload {} bytes
  (read.1 && read.2.has_requesttype,read.2)

def codec : Protobuf := ⟨fun m => writeMessage (payloadFields m),parse⟩

@[simp] theorem typeOf_number (type : RequestType) : typeOf (typeNumber type) = some type := by
  cases type <;> rfl

@[simp] theorem readInt_write (value : Int32) : readInt value.toInt64.toUInt64.toNat = value := by
  simp [readInt]

theorem field_readable (number : Nat) (named : 0 < number) (write : α → Value) (value : Option α)
    (proper : ∀ value, (write value).Proper) : Readable (field number write value) := by
  cases value with
  | none => intro other member; cases member
  | some value =>
    intro other member
    simp only [field,Option.map_some,Option.toList_some,List.mem_singleton] at member
    subst member
    exact ⟨named,proper value⟩

theorem readable_append (left : Readable first) (right : Readable second) : Readable (first ++ second) := by
  intro other member
  rcases List.mem_append.mp member with early | late
  · exact left other early
  · exact right other late

theorem stat_readable (stat : Stat) : Readable (statFields stat) := by
  have each : ∀ number value, 0 < number → Readable (field number writeInt value) :=
    fun number value named => field_readable number named _ _ fun _ => trivial
  exact readable_append (readable_append (each 1 _ (by decide)) (each 2 _ (by decide))) (each 3 _ (by decide))

theorem payload_readable (m : Payload) : Readable (payloadFields m) := by
  refine readable_append (readable_append (readable_append (readable_append ?_ ?_) ?_) ?_) ?_
  all_goals exact field_readable _ (by decide) _ _ fun _ => trivial

theorem merges_field (merge : Record → Field → Bool × Record) {write : α → Value} (record : Option α → Record)
    (value : Option α) (set : ∀ value, merge (record none) (number,write value) = (true,record (some value))) :
    Merges merge (record none) (field number write value) (record value) := by
  cases value with
  | none => exact .nil
  | some value => exact .cons (set value) .nil

theorem stat_merges (stat : Stat) : Merges mergeStat {} (statFields stat) stat := by
  obtain ⟨all,succ,fail⟩ := stat
  have first : Merges mergeStat {} (field 1 writeInt all) {numgetreq_ := all} :=
    merges_field mergeStat (fun value => {numgetreq_ := value}) all fun _ => by simp [mergeStat,writeInt]
  have second : Merges mergeStat {numgetreq_ := all} (field 2 writeInt succ) {numgetreq_ := all,numsuccgetreq_ := succ} :=
    merges_field mergeStat (fun value => {numgetreq_ := all,numsuccgetreq_ := value}) succ fun _ => by simp [mergeStat,writeInt]
  have third : Merges mergeStat {numgetreq_ := all,numsuccgetreq_ := succ} (field 3 writeInt fail) ⟨all,succ,fail⟩ :=
    merges_field mergeStat (fun value => ⟨all,succ,value⟩) fail fun _ => by simp [mergeStat,writeInt]
  exact (first.append _ second).append _ third

theorem stat_roundtrip (stat : Stat) : readMessage mergeStat {} (writeMessage (statFields stat)) = (true,stat) := by
  have read := readMessage_write mergeStat (stat_readable stat) (stat_merges stat) []
  rwa [List.append_nil] at read

theorem payload_merges (m : Payload) : Merges mergePayload {} (payloadFields m) m := by
  obtain ⟨type,key,value,stats,reason⟩ := m
  have first : Merges mergePayload {} (field 1 (fun type => .varint (typeNumber type)) type) {requesttype_ := type} :=
    merges_field mergePayload (fun type => {requesttype_ := type}) type fun _ => by simp [mergePayload]
  have second : Merges mergePayload {requesttype_ := type} (field 2 .delimited key) {requesttype_ := type,key_ := key} :=
    merges_field mergePayload (fun key => {requesttype_ := type,key_ := key}) key fun _ => rfl
  have third : Merges mergePayload {requesttype_ := type,key_ := key} (field 3 .delimited value)
      {requesttype_ := type,key_ := key,value_ := value} :=
    merges_field mergePayload (fun value => {requesttype_ := type,key_ := key,value_ := value}) value fun _ => rfl
  have fourth : Merges mergePayload {requesttype_ := type,key_ := key,value_ := value}
      (field 4 (fun stat => .delimited (writeMessage (statFields stat))) stats)
      {requesttype_ := type,key_ := key,value_ := value,stats_ := stats} :=
    merges_field mergePayload (fun stats => {requesttype_ := type,key_ := key,value_ := value,stats_ := stats}) stats
      fun _ => by simp [mergePayload,stat_roundtrip]
  have fifth : Merges mergePayload {requesttype_ := type,key_ := key,value_ := value,stats_ := stats}
      (field 5 .delimited reason) ⟨type,key,value,stats,reason⟩ :=
    merges_field mergePayload (fun reason => ⟨type,key,value,stats,reason⟩) reason fun _ => rfl
  exact (((first.append _ second).append _ third).append _ fourth).append _ fifth

theorem roundTrip : codec.RoundTrip := by
  intro m typed
  have read := readMessage_write mergePayload (payload_readable m) (payload_merges m) []
  rw [List.append_nil,readMessage_nil] at read
  change (_,_) = _
  simp only [codec,read,typed,Bool.and_self]

theorem zeroTag : codec.ZeroTag := by
  refine ⟨fun rest => ?_,fun bytes m rest accepted => ?_⟩
  · have read := readMessage_none mergePayload (by simp) (readField_zero rest) {}
    simp [codec,parse,read]
  · have parts : readMessage mergePayload {} bytes = (true,m) := by
      simp only [codec,parse,Prod.mk.injEq,Bool.and_eq_true] at accepted
      exact Prod.ext accepted.1.1 accepted.2
    simp [codec,parse,readMessage_zero mergePayload parts rest]

def present (m : Payload) : Nat :=
  m.requesttype_.toList.length + m.key_.toList.length + m.value_.toList.length +
    m.stats_.toList.length + m.reason_.toList.length

theorem present_fields (m : Payload) : (payloadFields m).length = present m := by
  obtain ⟨type,key,value,stats,reason⟩ := m
  cases type <;> cases key <;> cases value <;> cases stats <;> cases reason <;> rfl

theorem present_merge (m : Payload) (next : Field) : present (mergePayload m next).2 ≤ present m + 1 := by
  have single : ∀ type : Option RequestType, type.toList.length ≤ 1 := by
    intro type
    cases type <;> simp
  unfold mergePayload
  split
  · rename_i n
    have bound := single ((typeOf n).or m.requesttype_)
    simp only [present]
    omega
  all_goals
    simp only [present,Option.toList_some,List.length_singleton]
    omega

theorem present_merges (merged : Merges mergePayload m fields next) : present next ≤ present m + fields.length := by
  induction merged with
  | nil => simp
  | @cons m field _ _ _ first _ ih =>
    have one := present_merge m field
    rw [first] at one
    simp only [List.length_cons] at one ⊢
    omega

theorem cutDiffers : codec.CutDiffers := by
  intro m k _ cut accepted
  obtain ⟨kept,middle,fewer,merged,result⟩ := readMessage_cut mergePayload (payload_readable m) (payload_merges m) cut
  have equal : middle = m := by
    rw [← result]
    exact congrArg Prod.snd accepted
  have bound := present_merges merged
  rw [equal,← present_fields] at bound
  change _ ≤ 0 + _ at bound
  omega

end RemoteDict.Codec
