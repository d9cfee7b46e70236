import RemoteDict.Foundation.Lockstep
import RemoteDict.TcpFlow
import RemoteDict.BloomFilter

namespace RemoteDict.Transparency
open Foundation Lockstep MembershipFilter

inductive Call where
  | set (key val : Str)
  | get (key : Str)
  deriving DecidableEq, Repr

-- What a caller sees of a call; get's out parameter is empty on entry.
inductive Returned where
  | set (ret : Bool)
  | get (ret : Bool) (val : Str)
  deriving DecidableEq, Repr

variable {F : Type} [MembershipFilter F]

def invoke (d : Dictionary F) : Call → Except Fault (Dictionary F × Returned)
  | .set key val => (d.set key val).map fun result => (result.1,.set result.2)
  | .get key => (d.get key []).map fun result => (d,.get result.1 result.2)

def enabled (F : Type) [MembershipFilter F] : Dictionary F := Dictionary.new.enableBloomFilter true
def disabled (F : Type) [MembershipFilter F] : Dictionary F := Dictionary.new.enableBloomFilter false

def Reports (d : Dictionary F) (key : Str) : Prop :=
  ∃ filter, d.m_bloomFilter = some filter ∧ contains filter key = true

def Unreported (d : Dictionary F) : Call → Prop
  | .set _ _ => True
  | .get key => ¬ Reports d key

def respond (m : Payload) (stats : Stats) (d : Dictionary F) : Except Fault (Payload × Stats) :=
  (TcpFlow.handleGetRequest m ⟨d,stats⟩).map fun result => (result.1,result.2.stats)

-- The two settings are told apart neither by the returns of the calls nor by
-- the response and the counters of a GET handler in place of a get.
def Transparent (F : Type) [MembershipFilter F] (calls : List Call) : Prop :=
  answers invoke (enabled F) calls = answers invoke (disabled F) calls ∧
  ∀ before m after stats, calls = before ++ .get m.key :: after →
    (history invoke (enabled F) before).bind (respond m stats) =
      (history invoke (disabled F) before).bind (respond m stats)

-- The enabled dictionary holds what the disabled one holds, and every key it
-- holds went into its filter.
structure Twins (on off : Dictionary F) : Prop where
  filtered : on.m_bloomFilterEnabled = true
  plain : off.m_bloomFilterEnabled = false
  same : on.m_dict = off.m_dict
  built : ∃ keys, on.m_bloomFilter = some (filterOf keys) ∧ ∀ key ∈ on.m_dict, key ∈ keys

theorem twins_start : Twins (enabled F) (disabled F) :=
  ⟨rfl,rfl,rfl,[],rfl,fun _ held => absurd held (AList.notMem_empty _)⟩

theorem twins_set {on off : Dictionary F} (twins : Twins on off) (key val : Str) :
    ∃ on' off' ret, on.set key val = .ok (on',ret) ∧ off.set key val = .ok (off',ret) ∧ Twins on' off' := by
  obtain ⟨hon,hoff,same,keys,built,held⟩ := twins
  have full : on.full = off.full := by rw [Dictionary.full,Dictionary.size,same]; rfl
  cases limit : off.full with
  | true => exact ⟨on,off,false,Dictionary.set_full (full.trans limit),Dictionary.set_full limit,hon,hoff,same,keys,built,held⟩
  | false =>
    have left := Dictionary.setLocked_enabled hon built key val
    have right := Dictionary.setLocked_disabled hoff key val
    refine ⟨_,_,true,Dictionary.set_open (full.trans limit) left,Dictionary.set_open limit right,hon,hoff,?_,keys ++ [key],?_,?_⟩
    · exact congrArg (AList.insert key val) same
    · exact congrArg some (filterOf_append keys key).symm
    · intro other present
      rcases (AList.mem_insert _).mp present with rfl | old
      · simp
      · simp [held other old]

theorem twins_get {on off : Dictionary F} (sound : NoFalseNegatives F) (twins : Twins on off) (key : Str) :
    ∃ fst snd, on.get key [] = .ok fst ∧ off.get key [] = .ok snd ∧ (fst = snd ↔ ¬ Reports on key) := by
  obtain ⟨hon,hoff,same,keys,built,held⟩ := twins
  refine ⟨_,_,on.get_enabled hon built,off.get_disabled hoff,?_⟩
  rw [← same]
  have answer : Reports on key ↔ contains (filterOf keys : F) key = true := by simp [Reports,built]
  rw [answer]
  cases reported : contains (filterOf keys : F) key with
  | false =>
    have absent : on.m_dict.lookup key = none := by
      refine AList.lookup_eq_none.mpr fun present => ?_
      rw [sound keys key (held key present)] at reported
      cases reported
    simp [absent]
  | true =>
    cases on.m_dict.lookup key with
    | none => simp [NOT_FOUND,text]
    | some value => simp

theorem twins_invoke (sound : NoFalseNegatives F) (on off : Dictionary F) (call : Call) (twins : Twins on off) :
    ∃ on' off' a b, invoke on call = .ok (on',a) ∧ invoke off call = .ok (off',b) ∧ Twins on' off' ∧
      (a = b ↔ Unreported on call) := by
  cases call with
  | set key val =>
    obtain ⟨on',off',ret,left,right,next⟩ := twins_set twins key val
    refine ⟨on',off',.set ret,.set ret,?_,?_,next,by simp [Unreported]⟩
    · rw [invoke,left]; rfl
    · rw [invoke,right]; rfl
  | get key =>
    obtain ⟨fst,snd,left,right,exact⟩ := twins_get sound twins key
    refine ⟨on,off,.get fst.1 fst.2,.get snd.1 snd.2,?_,?_,twins,?_⟩
    · rw [invoke,left]; rfl
    · rw [invoke,right]; rfl
    · rw [Unreported,← exact,Returned.get.injEq,Prod.ext_iff]

-- What the handler makes of get's answer. Different answers make a different
-- reason, a different value or another counter.
def answered (m : Payload) (stats : Stats) : Bool × Str → Payload × Stats
  | (true,value) => (m.set_value value,stats.incrGetReq.incrGetReqSucc)
  | (false,value) => (m.set_reason value,stats.incrGetReq.incrGetReqFail)

theorem respond_ok {d : Dictionary F} (answer : d.get m.key [] = .ok result) (stats : Stats) :
    respond m stats d = .ok (answered m stats result) := by
  obtain ⟨found,value⟩ := result
  cases found <;> simp only [respond,TcpFlow.handleGetRequest,answer] <;> rfl

theorem answered_exact : answered m stats first = answered m stats second ↔ first = second := by
  obtain ⟨found,value⟩ := first
  obtain ⟨other,text⟩ := second
  cases found <;> cases other <;>
    simp [answered,Payload.set_value,Payload.set_reason,Stats.incrGetReq,Stats.incrGetReqSucc,Stats.incrGetReqFail]

theorem twins_respond {on off : Dictionary F} (sound : NoFalseNegatives F) (twins : Twins on off) (m : Payload) (stats : Stats) :
    respond m stats on = respond m stats off ↔ ¬ Reports on m.key := by
  obtain ⟨fst,snd,left,right,exact⟩ := twins_get sound twins m.key
  rw [respond_ok left,respond_ok right,Except.ok.injEq,answered_exact,exact]

theorem transparent_exact (sound : NoFalseNegatives F) (calls : List Call) :
    Transparent F calls ↔ Throughout invoke Unreported (enabled F) calls := by
  obtain ⟨as,bs,left,right,exact⟩ := answers_exact (twins_invoke sound) (twins_start (F:=F)) calls
  rw [Transparent,left,right,Except.ok.injEq,exact]
  refine ⟨fun same => same.1,fun clear => ⟨clear,?_⟩⟩
  intro before m after stats split
  obtain ⟨on,off,first,second,twins⟩ := history_related
    (fun s t call related => by
      obtain ⟨s',t',a,b,hs,ht,next,_⟩ := twins_invoke sound s t call related
      exact ⟨s',t',a,b,hs,ht,next⟩)
    (twins_start (F:=F)) before
  rw [first,second]
  exact (twins_respond sound twins m stats).mpr (clear before _ after on split first)

theorem transparent_exact_small : Transparent (BloomFilter BloomFilter.small) [.set (text "k1") (text "v1"),.get (text "k2")] ↔
    Throughout invoke Unreported (enabled (BloomFilter BloomFilter.small)) [.set (text "k1") (text "v1"),.get (text "k2")] :=
  transparent_exact (BloomFilter.noFalseNegatives _) _

theorem stored_key_told_apart :
    answers invoke (enabled (BloomFilter BloomFilter.small)) [.set (text "k1") (text "v1"),.get (text "k1")] =
      .ok [.set true,.get false (text "v1")] ∧
    answers invoke (disabled (BloomFilter BloomFilter.small)) [.set (text "k1") (text "v1"),.get (text "k1")] =
      .ok [.set true,.get true (text "v1")] ∧
    ¬ Transparent (BloomFilter BloomFilter.small) [.set (text "k1") (text "v1"),.get (text "k1")] := by
  have on : answers invoke (enabled (BloomFilter BloomFilter.small)) [.set (text "k1") (text "v1"),.get (text "k1")] =
      .ok [.set true,.get false (text "v1")] := by decide
  have off : answers invoke (disabled (BloomFilter BloomFilter.small)) [.set (text "k1") (text "v1"),.get (text "k1")] =
      .ok [.set true,.get true (text "v1")] := by decide
  refine ⟨on,off,fun same => ?_⟩
  have equal := same.1
  rw [on,off] at equal
  simp at equal

end RemoteDict.Transparency
