import RemoteDict.Network

namespace RemoteDict.Freshness
open Foundation Foundation.Precedence TcpFlow KeyValue Network
open Foundation.Block (ByteOrder)
open Linearization (Act Point Linear Single)
open ServiceWorker (Address)

section
variable {entries later : Entries} {events : List (Call × Reply)} {key value : Str}

theorem run_answers (ran : dictionary.run entries events = some later) (member : (call,reply) ∈ events) :
    ∃ here there, Answers here call reply there := by
  obtain ⟨early,late,rfl⟩ := List.append_of_mem member
  rw [dictionary.run_append] at ran
  obtain ⟨here,_,rest⟩ := Option.bind_eq_some_iff.mp ran
  obtain ⟨there,stepped,_⟩ := dictionary.run_cons.mp rest
  exact ⟨here,there,dictionary_step.mp stepped⟩

theorem run_kept (ran : dictionary.run entries events = some later) (apart : ∀ other, (.set key other,.stored) ∉ events) :
    later key = entries key := by
  induction events generalizing entries with
  | nil =>
    cases ran
    rfl
  | cons event events ih =>
    obtain ⟨middle,stepped,rest⟩ := dictionary.run_cons.mp ran
    have same := ih rest fun other member => apart other (.tail _ member)
    obtain ⟨call,reply⟩ := event
    cases dictionary_step.mp stepped with
    | found | missing | refused | counts => exact same
    | @stored other value =>
      have differ : key ≠ other := by
        rintro rfl
        exact apart value (.head _)
      rw [same,put,Function.update_of_ne differ]

theorem run_stored (ran : dictionary.run entries events = some later) (stored : (.set key value,.stored) ∈ events) :
    ∃ last early late, later key = some last ∧ events = early ++ (.set key last,.stored) :: late ∧
      ∀ other, (.set key other,.stored) ∉ late := by
  induction events generalizing entries value with
  | nil => cases stored
  | cons event events ih =>
    obtain ⟨middle,stepped,rest⟩ := dictionary.run_cons.mp ran
    by_cases more : ∃ other, (.set key other,.stored) ∈ events
    · obtain ⟨other,member⟩ := more
      obtain ⟨last,early,late,held,rfl,fresh⟩ := ih rest member
      exact ⟨last,event :: early,late,held,rfl,fresh⟩
    · have fresh : ∀ other, (.set key other,.stored) ∉ events := fun other member => more ⟨other,member⟩
      rcases List.mem_cons.mp stored with rfl | there
      · cases dictionary_step.mp stepped
        exact ⟨value,[],events,(run_kept rest fresh).trans (Function.update_self ..),rfl,fresh⟩
      · exact absurd there (fresh value)

end

section
variable {Request : Type u} {Response : Type v} {ι : Type w} [DecidableEq ι]
  {Means : Request → Call → Reply → Response → Prop} {log : List (Point ι Request Response Call Reply)}

omit [DecidableEq ι] in
theorem log_stored {log : List (Point ι Request Response Call Reply)}
    (ran : dictionary.run entries (log.filterMap Point.effect) = some later)
    (stored : (.set key value,.stored) ∈ log.filterMap Point.effect) :
    ∃ c last early late, later key = some last ∧ log = early ++ .took c (.set key last) .stored :: late ∧
      ∀ d other, .took d (.set key other) .stored ∉ late := by
  obtain ⟨last,prior,since,held,split,fresh⟩ := run_stored ran stored
  obtain ⟨early,rest,rfl,rfl,tail⟩ := List.filterMap_eq_append_iff.mp split
  obtain ⟨silent,point,late,rfl,_,shown,rfl⟩ := List.filterMap_eq_cons_iff.mp tail
  cases point with
  | act => cases shown
  | took c =>
    cases shown
    refine ⟨c,last,early ++ silent,late,held,(List.append_assoc ..).symm,?_⟩
    intro d other member
    exact fresh other (List.mem_filterMap.mpr ⟨_,member,rfl⟩)

theorem get_stored (held : entries key = some value) (answers : Answers entries (.get key) reply later) : reply = .found value := by
  cases answers with
  | found other =>
    rw [held] at other
    cases other
    rfl
  | missing nothing =>
    rw [held] at nothing
    cases nothing

-- A GET that begins after a SET has been acknowledged answers with the value of a
-- SET that had begun by then and had not come to its end before the first began.
theorem linear_recent (linear : Linear dictionary Means log) (single : Single (log.filterMap Point.visible))
    (before : [.act (.returned a done),.act (.invoked b ask)].Sublist log) (given : .act (.invoked a request) ∈ log)
    (answered : .act (.returned b answer) ∈ log)
    (acknowledged : ∀ call reply, Means request call reply done → call = .set key value ∧ reply ≠ .refused)
    (asks : ∀ call reply, Means ask call reply answer → call = .get key) :
    ∃ c newer last, [.act (.invoked c newer),.act (.returned b answer)].Sublist log ∧
      (∀ response, ¬[.act (.returned c response),.act (.invoked a request)].Sublist log) ∧
      (∃ response, Means newer (.set key last) .stored response) ∧ Means ask (.get key) (.found last) answer := by
  have once := linear.nodup single
  obtain ⟨_,_,reply,tookA⟩ := linear.returned single (before_left before)
  obtain rfl := tookA.only _ given
  obtain ⟨endsA,meansA⟩ := tookA.answered done (before_left before)
  obtain ⟨rfl,accepted⟩ := acknowledged _ _ meansA
  obtain ⟨_,_,replyB,tookB⟩ := linear.returned single answered
  obtain rfl := tookB.only _ (before_right before)
  obtain ⟨endsB,meansB⟩ := tookB.answered answer answered
  obtain rfl := asks _ _ meansB
  -- The log up to where the GET takes effect has the SET in it.
  have order := before_trans once (before_trans once endsA before) tookB.asked
  obtain ⟨early,rest,rfl⟩ := List.append_of_mem (before_right order)
  have inside := (before_split once).mp order
  obtain ⟨s,ran⟩ := linear.sequential
  rw [List.filterMap_append,dictionary.run_append] at ran
  obtain ⟨entries,first,after⟩ := Option.bind_eq_some_iff.mp ran
  obtain ⟨next,stepped,_⟩ := dictionary.run_cons.mp after
  have effect : (.set key value,reply) ∈ early.filterMap Point.effect := List.mem_filterMap.mpr ⟨_,inside,rfl⟩
  obtain rfl : reply = .stored := by
    obtain ⟨_,_,answers⟩ := run_answers first effect
    cases answers with
    | stored => rfl
    | refused => exact absurd rfl accepted
  obtain ⟨c,last,front,late,held,rfl,fresh⟩ := log_stored first effect
  obtain rfl := get_stored held (dictionary_step.mp stepped)
  have there : .took c (.set key last) .stored ∈ front ++ .took c (.set key last) .stored :: late :=
    List.mem_append_right _ (.head _)
  obtain ⟨newer,tookC⟩ := linear.took single (List.mem_append_left _ there)
  have orderC := (before_split once).mpr there
  refine ⟨c,newer,last,before_trans once (before_trans once tookC.asked orderC) endsB,?_,tookC.means,meansB⟩
  intro response turned
  have ends := (tookC.answered response (before_left turned)).1
  have crossed := before_trans once (before_trans once ends turned) tookA.asked
  rcases List.mem_append.mp inside with prior | since
  · have turn := before_append prior (List.mem_cons_self (a:=.took c (.set key last) .stored) (l:=late))
    exact before_asymm once crossed (turn.trans (List.sublist_append_left _ _))
  · rcases List.mem_cons.mp since with same | since
    · rw [same] at crossed
      exact before_irrefl once crossed
    · exact fresh a value since

end

variable {F : Type} [MembershipFilter F] {ι : Type} [DecidableEq ι] {getAddrStr : Address → Str} {order : ByteOrder}
  {pb : Protobuf} {enable : Bool} {s next : Network.State ι F} {key value : Str}

def writing (key value : Str) : MessageT := ⟨some .SET,key,value⟩
def reading (key : Str) : MessageT := ⟨some .GET,key,[]⟩

-- What the server makes of an acknowledged SET it refuses, and of a GET with the value.
def refusal (key value : Str) : Payload :=
  ({requesttype_ := some .SET,key_ := some key,value_ := some value} : Payload).set_reason (text "failed")

def found (enable : Bool) (key value : Str) : Payload :=
  let m : Payload := {requesttype_ := some .GET,key_ := some key}
  if enable then m.set_reason value else m.set_value value

theorem obtains_writing (short : pb.ByteSizeLong (refusal key value) ≤ MAX) (whole : response.whole = true)
    (recorded : response.payload.reason_ = none)
    (obtains : Obtains pb enable (writing key value) call reply response) : call = .set key value ∧ reply ≠ .refused := by
  cases obtains with
  | obtains asked typed written sent same =>
    cases Client.request_exact.mp asked with
    | get other | stat other => cases other
    | set =>
      cases typed
      refine ⟨rfl,?_⟩
      rintro rfl
      cases written
      rw [same whole short] at recorded
      cases recorded

theorem obtains_reading (obtains : Obtains pb enable (reading key) call reply response) : call = .get key := by
  cases obtains with
  | obtains asked typed written sent same =>
    cases Client.request_exact.mp asked with
    | set other | stat other => cases other
    | get =>
      cases typed
      rfl

theorem obtains_set (obtains : Obtains pb enable msg (.set key value) reply response) : msg = writing key value := by
  generalize asks : (.set key value : Call) = call at obtains
  cases obtains with
  | obtains asked typed written sent same =>
    cases Client.request_exact.mp asked with
    | get | stat =>
      cases typed
      cases asks
    | set type =>
      cases typed
      cases asks
      cases msg
      cases type
      rfl

theorem obtains_found (obtains : Obtains pb enable (reading key) (.get key) (.found value) response) :
    response.answer = sendResponse pb (found enable key value) ∧
    (response.whole = true → pb.ByteSizeLong (found enable key value) ≤ MAX → response.payload = found enable key value) := by
  generalize (.get key : Call) = call at obtains
  cases obtains with
  | obtains asked typed written sent same =>
    cases Client.request_exact.mp asked with
    | set other | stat other => cases other
    | get =>
      cases written
      exact ⟨sent,same⟩

def Named (s : Network.State ι F) (history : List (Act Nat MessageT Received)) : Prop :=
  (∀ n msg, .invoked n msg ∈ history → n < s.opened) ∧ Single history

theorem step_named (named : Named s history) (stepped : Network.step getAddrStr order pb s move = some next) :
    Named next (history ++ observe pb s move) := by
  have nothing : ∀ act ∈ ([] : List (Act Nat MessageT Received)), act.asks = false := fun _ member => absurd member List.not_mem_nil
  have quiet (same : next.opened = s.opened) (answers : ∀ act ∈ observe pb s move, act.asks = false) :
      Named next (history ++ observe pb s move) := by
    refine ⟨fun n msg member => ?_,named.2.answers answers⟩
    rw [same]
    rcases List.mem_append.mp member with old | new
    · exact named.1 n msg old
    · cases answers _ new
  cases move with
  | connect i fd address msg =>
    obtain ⟨_,_,_,_,_,rfl⟩ := connect_exact.mp stepped
    refine ⟨fun n other member => ?_,named.2.begins (fun other there => ?_) msg⟩
    · rcases List.mem_append.mp member with old | new
      · exact Nat.lt_succ_of_lt (named.1 n other old)
      · cases List.mem_singleton.mp new
        exact Nat.lt_succ_self _
    · exact Nat.lt_irrefl _ (named.1 s.opened other there)
  | deliver i address chunks =>
    obtain ⟨_,_,_,_,_,rfl⟩ := deliver_exact.mp stepped
    exact quiet rfl nothing
  | advance i =>
    obtain ⟨_,_,⟨_,rfl⟩ | ⟨_,_,_,_,rfl⟩⟩ := advance_exact.mp stepped
    · exact quiet rfl nothing
    · exact quiet rfl nothing
  | collect i address count =>
    obtain ⟨c,_,held,_,_,_,_,rfl⟩ := collect_exact.mp stepped
    refine quiet rfl fun act member => ?_
    rw [observe,held] at member
    cases List.mem_singleton.mp member
    rfl
  | hangup i address result =>
    obtain ⟨_,_,_,_,_,_,rfl⟩ := hangup_exact.mp stepped
    exact quiet rfl nothing

theorem run_named (path : (network ι F getAddrStr order pb enable).run (network ι F getAddrStr order pb enable).start moves = some last) :
    Single ((network ι F getAddrStr order pb enable).journal (observe pb) (network ι F getAddrStr order pb enable).start moves) := by
  have kept : ∀ (s : Network.State ι F) history move next, Named s history →
      (network ι F getAddrStr order pb enable).step s move = some next → Named next (history ++ observe pb s move) :=
    fun _ _ _ _ named stepped => step_named named stepped
  have start : Named (network ι F getAddrStr order pb enable).start [] :=
    ⟨fun _ _ member => absurd member List.not_mem_nil,fun _ => Nat.zero_le _⟩
  exact (Machine.journal_agrees kept [] start path).2

-- An acknowledged SET is seen by every GET of the key that a client begins
-- afterwards, on whatever worker: it is answered with the value of that SET or of
-- another one that was not over when that SET began.
theorem reads_recent (round : pb.RoundTrip) (zero : pb.ZeroTag) (sound : NoFalseNegatives F) (injective : getAddrStr.Injective)
    (path : (network ι F getAddrStr order pb enable).run (network ι F getAddrStr order pb enable).start moves = some last)
    (history : (network ι F getAddrStr order pb enable).journal (observe pb) (network ι F getAddrStr order pb enable).start moves =
      acts)
    (before : [.returned a done,.invoked b (reading key)].Sublist acts) (given : .invoked a (writing key value) ∈ acts)
    (answered : .returned b answer ∈ acts) (whole : done.whole = true) (acknowledged : done.payload.reason_ = none)
    (short : pb.ByteSizeLong (refusal key value) ≤ MAX) :
    ∃ c newest, [.invoked c (writing key newest),.returned b answer].Sublist acts ∧
      (∀ response, ¬[.returned c response,.invoked a (writing key value)].Sublist acts) ∧
      answer.answer = sendResponse pb (found enable key newest) ∧
      (answer.whole = true → pb.ByteSizeLong (found enable key newest) ≤ MAX → answer.payload = found enable key newest) := by
  have linear := run_linear round zero sound injective path
  have single := run_named path
  rw [← Linearization.journal_visible note_visible] at history single
  subst history
  obtain ⟨c,newer,newest,order,late,⟨_,means⟩,answers⟩ := linear_recent linear single (Linearization.act_before.mp before)
    (Linearization.act_mem.mp given) (Linearization.act_mem.mp answered)
    (fun _ _ => obtains_writing short whole acknowledged) (fun _ _ => obtains_reading)
  obtain rfl := obtains_set means
  exact ⟨c,newest,Linearization.act_before.mpr order,fun response turned => late response (Linearization.act_before.mp turned),
    obtains_found answers⟩

-- A SET up to its answer at one worker, and then a GET at the other.
def following : List (Network.Move Bool) :=
  [.connect true 7 0x1000 (writing (text "k") (text "v")),.deliver true 0x1000 [Connections.storing],.advance true,.advance true,
    .advance true,.collect true 0x1000 9,.connect false 8 0x2000 (reading (text "k")),.deliver false 0x2000 [Connections.looking],
    .advance false,.advance false,.advance false,.advance false,.collect false 0x2000 9]

def acknowledged : Payload := {requesttype_ := some .SET,key_ := some (text "k"),value_ := some (text "v")}

def asWhole (response : Payload) : Received := ⟨sendResponse Codec.codec response,true,response⟩

def followed : List (Act Nat MessageT Received) :=
  [.invoked 0 (writing (text "k") (text "v")),.returned 0 (asWhole acknowledged),.invoked 1 (reading (text "k")),
    .returned 1 (asWhole (found false (text "k") (text "v")))]

theorem reads_recent_following : ∃ c newest,
    [.invoked c (writing (text "k") newest),.returned 1 (asWhole (found false (text "k") (text "v")))].Sublist followed ∧
    (∀ response, ¬[.returned c response,.invoked 0 (writing (text "k") (text "v"))].Sublist followed) ∧
    (asWhole (found false (text "k") (text "v"))).answer = sendResponse Codec.codec (found false (text "k") newest) ∧
    ((asWhole (found false (text "k") (text "v"))).whole = true → Codec.codec.ByteSizeLong (found false (text "k") newest) ≤ MAX →
      (asWhole (found false (text "k") (text "v"))).payload = found false (text "k") newest) := by
  have path : town.run town.start following = some _ := rfl
  have before : [.returned 0 (asWhole acknowledged),.invoked 1 (reading (text "k"))].Sublist followed := by decide
  exact reads_recent Codec.roundTrip Codec.zeroTag (BloomFilter.noFalseNegatives _) ServiceWorker.pointer_injective path rfl
    before (.head _) (by decide) rfl rfl (by decide)

end RemoteDict.Freshness
