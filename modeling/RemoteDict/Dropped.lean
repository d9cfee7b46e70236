import RemoteDict.Framing

namespace RemoteDict.Dropped
open Foundation.Block TcpFlow Framing

variable {F : Type} [MembershipFilter F] {order : ByteOrder} {pb : Protobuf} {payload : List Byte} {count : Nat}
  {flow next : TcpFlow} {together : Bool} {later : List (Callback F)}

-- The peer ends its side after the frame: read returns 0 after the last chunk of
-- the same callback, or in some later one.
def ended (together : Bool) (later : List (Callback F)) : List (Shared F × List (List Byte)) → List (Callback F)
  | [] => later
  | [c] => ⟨c.1,c.2.map .got ++ if together then [.got []] else []⟩ :: later
  | c :: callbacks => callback c :: ended together later callbacks

def Performed (payload : List Byte) (trace : List (List Event)) (callbacks : Nat) : Prop :=
  ∃ before after, (trace.drop (callbacks - 1)).flatten = before ++ .parse payload :: after ∧ ∀ addr, .delete addr ∉ before

def Seen (together : Bool) (callbacks : List (Shared F × List (List Byte))) : Prop :=
  together = true ∧ ∀ c ∈ callbacks.getLast?, c.2.length < NUM_READ_TRY

def Keeps (pb : Protobuf) (bytes : List Byte) (s : Shared F) : Prop :=
  ∃ type result, (pb.ParseFromArray bytes).2.requesttype_ = some type ∧
    handle type (pb.ParseFromArray bytes).2 s = .ok result

-- Callbacks before the last that end with as many bytes as the payload has parse
-- a buffer whose end is still zero.
def Survives (pb : Protobuf) (payload : List Byte) : Nat → List (Shared F × List (List Byte)) → Prop
  | _,[] => True
  | count,c :: callbacks =>
    (callbacks ≠ [] → payload.length ≤ count + c.2.flatten.length →
      Keeps pb (filled (payload.take (count + c.2.flatten.length - 4)) payload.length) c.1) ∧
    Survives pb payload (count + c.2.flatten.length) callbacks

theorem readLoop_append {chunks : List (List Byte)} (nonempty : ∀ chunk ∈ chunks, chunk ≠ [])
    (looped : readLoop order n flow (chunks.map .got) = .ok (next,false)) (tries : chunks.length ≤ n)
    (rest : List ReadResult) :
    readLoop order n flow (chunks.map .got ++ rest) = readLoop order (n - chunks.length) next rest := by
  induction chunks generalizing flow n with
  | nil =>
    cases n <;> cases looped <;> rfl
  | cons chunk chunks ih =>
    obtain ⟨n,rfl⟩ : ∃ more, n = more+1 := ⟨n-1,by simp at tries; omega⟩
    rw [List.map_cons,readLoop_got (nonempty chunk (.head _))] at looped
    rw [List.map_cons,List.cons_append,readLoop_got (nonempty chunk (.head _))]
    cases received : receive order flow chunk with
    | error fault =>
      rw [received] at looped
      cases looped
    | ok middle =>
      rw [received] at looped
      dsimp only at looped ⊢
      rw [ih (fun c member => nonempty c (.tail _ member)) looped (by simpa using tries),List.length_cons,Nat.add_sub_add_right]

theorem parse_keeps (pb : Protobuf) (flow : TcpFlow) (s : Shared F) :
    (flow.parse pb s).flow.isSome ↔ Keeps pb flow.received s := by
  cases typed : (pb.ParseFromArray flow.received).2.requesttype_ with
  | none =>
    rw [parse_untyped typed]
    simp [Keeps,typed]
  | some type =>
    cases ran : handle type (pb.ParseFromArray flow.received).2 s with
    | error fault =>
      rw [parse_faulted typed ran]
      simp [Keeps,typed,ran]
    | ok result =>
      rw [parse_handled typed ran]
      exact iff_of_true rfl ⟨type,result,typed,ran⟩

theorem parse_first (pb : Protobuf) (flow : TcpFlow) (s : Shared F) :
    ∃ rest, (flow.parse pb s).events = .parse flow.received :: rest := by
  cases typed : (pb.ParseFromArray flow.received).2.requesttype_ with
  | none => exact ⟨_,by rw [parse_untyped typed]⟩
  | some type =>
    cases ran : handle type (pb.ParseFromArray flow.received).2 s with
    | error fault => exact ⟨_,by rw [parse_faulted typed ran]⟩
    | ok result => exact ⟨_,by rw [parse_handled typed ran]⟩

theorem performed_cons (events : List Event) (trace : List (List Event)) (more : 0 < callbacks) :
    Performed payload (events :: trace) (callbacks + 1) ↔ Performed payload trace callbacks := by
  obtain ⟨n,rfl⟩ : ∃ n, callbacks = n+1 := ⟨callbacks-1,by omega⟩
  rfl

theorem performed_none (short : trace.length ≤ callbacks - 1) : ¬Performed payload trace callbacks := by
  rintro ⟨before,after,split,_⟩
  rw [List.drop_of_length_le short] at split
  simp at split

theorem last_exact {c : Shared F × List (List Byte)}
    (looped : readLoop order NUM_READ_TRY {flow with m_clientFd := fd} (c.2.map .got) = .ok (next,false))
    (whole : Assembled payload (payload.length + 4) next) (nonempty : ∀ chunk ∈ c.2, chunk ≠ [])
    (tries : c.2.length ≤ NUM_READ_TRY) :
    Performed payload (serve order pb fd flow (ended together later [c])) 1 ↔ ¬Seen together [c] := by
  have reads := readLoop_append nonempty looped tries (if together then [.got []] else [])
  have reached : next.m_payloadLen ≤ next.m_lenTillnow := by
    rw [whole.length,whole.till]
    omega
  by_cases seen : together = true ∧ c.2.length < NUM_READ_TRY
  · refine iff_of_false ?_ (fun unseen => unseen ⟨seen.1,by simpa using seen.2⟩)
    obtain ⟨n,rest⟩ : ∃ n, NUM_READ_TRY - c.2.length = n + 1 := ⟨NUM_READ_TRY - c.2.length - 1,by omega⟩
    rw [if_pos seen.1,rest] at reads
    have deleted : data order pb flow fd EV_READ (c.2.map .got ++ if together then [.got []] else []) c.1 =
        ⟨none,c.1,[.delete next.m_selfAddr]⟩ := by
      rw [if_pos seen.1]
      exact data_deleted reads c.1
    simp only [ended,serve,deleted]
    rintro ⟨before,after,split,kept⟩
    cases before with
    | nil => cases split
    | cons event before =>
      obtain ⟨rfl,_⟩ := List.cons_eq_cons.mp split
      exact kept _ (.head _)
  · have looked : readLoop order (NUM_READ_TRY - c.2.length) next (if together then [.got []] else []) = .ok (next,false) := by
      cases together with
      | false => cases NUM_READ_TRY - c.2.length <;> rfl
      | true =>
        have exhausted : NUM_READ_TRY - c.2.length = 0 := by
          have full : ¬c.2.length < NUM_READ_TRY := fun less => seen ⟨rfl,less⟩
          omega
        rw [exhausted]
        rfl
    rw [looked] at reads
    refine iff_of_true ?_ fun both => seen ⟨both.1,both.2 c rfl⟩
    obtain ⟨rest,first⟩ := parse_first pb next c.1
    rw [assembled_received whole] at first
    have parsed : data order pb flow fd EV_READ (c.2.map .got ++ if together then [.got []] else []) c.1 = next.parse pb c.1 :=
      (data_kept reads c.1).trans (if_pos reached)
    simp only [ended,serve,parsed]
    split <;> exact ⟨[],_,by simp only [first]; rfl,fun _ => List.not_mem_nil⟩

theorem cons_exact {c : Shared F × List (List Byte)} {callbacks : List (Shared F × List (List Byte))}
    (looped : readLoop order NUM_READ_TRY {flow with m_clientFd := fd} (c.2.map .got) = .ok (next,false))
    (along : Assembled payload (count + c.2.flatten.length) next)
    (arrived : (frame order payload).drop count = ((c :: callbacks).flatMap (·.2)).flatten) (bounded : count ≤ payload.length + 4)
    (nonempty : ∀ chunk ∈ c.2, chunk ≠ []) (tries : c.2.length ≤ NUM_READ_TRY)
    (tail : callbacks ≠ [] → ∀ next, Assembled payload (count + c.2.flatten.length) next →
      (Performed payload (serve order pb fd next (ended together later callbacks)) callbacks.length ↔
        Survives pb payload (count + c.2.flatten.length) callbacks ∧ ¬Seen together callbacks)) :
    Performed payload (serve order pb fd flow (ended together later (c :: callbacks))) (callbacks.length + 1) ↔
      Survives pb payload count (c :: callbacks) ∧ ¬Seen together (c :: callbacks) := by
  cases callbacks with
  | nil =>
    have whole : count + c.2.flatten.length = payload.length + 4 := by
      simpa using received_count [c] arrived bounded
    rw [whole] at along
    rw [List.length_nil,Nat.zero_add,last_exact looped along nonempty tries]
    exact (and_iff_right ⟨fun some => absurd rfl some,trivial⟩).symm
  | cons d callbacks =>
    have step : Step order pb F payload fd flow c.2 (count + c.2.flatten.length) := step_of_loop looped along
    have seen : Seen together (c :: d :: callbacks) ↔ Seen together (d :: callbacks) := by
      simp only [Seen,List.getLast?_cons_cons]
    have more : 0 < (d :: callbacks).length := Nat.succ_pos _
    obtain ⟨left,stays,outcome⟩ := step c.1
    have received : left.received = filled (payload.take (count + c.2.flatten.length - 4)) payload.length := by
      refine received_filled stays.block ?_ stays.length
      rw [List.length_take]
      have most := stays.bounded
      omega
    rw [seen,Survives]
    simp only [ne_eq,reduceCtorEq,not_false_eq_true,forall_const]
    by_cases early : payload.length ≤ count + c.2.flatten.length
    · rw [if_pos early] at outcome
      simp only [early,forall_const]
      rw [← received,← parse_keeps pb left c.1]
      cases gone : (left.parse pb c.1).flow with
      | none =>
        have trace : serve order pb fd flow (ended together later (c :: d :: callbacks)) = [(left.parse pb c.1).events] := by
          simp only [ended,serve,callback,outcome,gone]
        rw [trace]
        refine iff_of_false (performed_none ?_) (by simp)
        simp
      | some kept =>
        obtain ⟨m,rfl⟩ := parse_flow gone
        have trace : serve order pb fd flow (ended together later (c :: d :: callbacks)) = (left.parse pb c.1).events ::
            serve order pb fd {left with m_payload := m} (ended together later (d :: callbacks)) := by
          simp only [ended,serve,callback,outcome,gone]
        rw [trace,performed_cons _ _ more,tail (List.cons_ne_nil _ _) _ (stays.parsed m)]
        simp
    · rw [if_neg early] at outcome
      have trace : serve order pb fd flow (ended together later (c :: d :: callbacks)) =
          [] :: serve order pb fd left (ended together later (d :: callbacks)) := by
        simp only [ended,serve,callback,outcome]
      rw [trace,performed_cons _ _ more,tail (List.cons_ne_nil _ _) _ stays]
      simp only [early,false_imp_iff,true_and]

theorem assembled_exact {callbacks : List (Shared F × List (List Byte))} (fits : payload.length + 4 < 2^32)
    (some : callbacks ≠ []) (assembled : Assembled payload count flow)
    (arrived : (frame order payload).drop count = (callbacks.flatMap (·.2)).flatten)
    (reading : ∀ c ∈ callbacks, c.2.length ≤ NUM_READ_TRY) (sized : ∀ c ∈ callbacks, ∀ chunk ∈ c.2, chunk ≠ []) (fd : Int) :
    Performed payload (serve order pb fd flow (ended together later callbacks)) callbacks.length ↔
      Survives pb payload count callbacks ∧ ¬Seen together callbacks := by
  induction callbacks generalizing flow count with
  | nil => exact absurd rfl some
  | cons c callbacks ih =>
    have here : (frame order payload).drop count = c.2.flatten ++ (callbacks.flatMap (·.2)).flatten := by
      simpa using arrived
    have remaining : (frame order payload).drop (count + c.2.flatten.length) = (callbacks.flatMap (·.2)).flatten := by
      rw [← List.drop_drop,here,List.drop_left]
    obtain ⟨next,looped,along⟩ := loop_assembled assembled fits here (sized c (.head _)) (reading c (.head _)) fd
    refine cons_exact looped along arrived assembled.bounded (sized c (.head _)) (reading c (.head _)) ?_
    intro more next along
    exact ih more along remaining (fun d member => reading d (.tail _ member)) (fun d member => sized d (.tail _ member))

-- A frame whose first read brings more than the header, read in any way until
-- the end of the stream, whatever the callbacks after that find.
theorem performed_exact (fits : payload.length + 4 < 2^32) (split : Segmentation F (frame order payload))
    (long : 4 < firstRead split.callbacks) (together : Bool) (later : List (Callback F)) (fd : Int) (addr : Str) :
    Performed payload (serve order pb fd (new addr) (ended together later split.callbacks)) split.callbacks.length ↔
      Survives pb payload 0 split.callbacks ∧ ¬Seen together split.callbacks := by
  obtain ⟨callbacks,reading,sized,joined⟩ := split
  dsimp only at long ⊢
  cases callbacks with
  | nil => simp [firstRead] at long
  | cons c callbacks =>
    obtain ⟨s,chunks⟩ := c
    obtain ⟨some,tries⟩ := reading _ (.head _)
    obtain ⟨chunk,chunks,rfl⟩ := List.exists_cons_of_ne_nil some
    have nonempty : ∀ other ∈ chunk :: chunks, other ≠ [] := fun other member => (sized _ (.head _) other member).1
    have arrived : frame order payload = chunk ++ (chunks.flatten ++ (callbacks.flatMap (·.2)).flatten) := by
      rw [← joined]; simp
    have remaining : (frame order payload).drop (0 + (chunk :: chunks).flatten.length) = (callbacks.flatMap (·.2)).flatten := by
      rw [Nat.zero_add,List.flatten_cons,List.length_append,arrived,← List.drop_drop,List.drop_left,List.drop_left]
    obtain ⟨next,looped,along⟩ := loop_fresh (fresh_new addr) fits long arrived
      (fun other member => nonempty other (.tail _ member)) tries fd
    rw [← List.length_append,← List.flatten_cons,← Nat.zero_add (List.length _)] at along
    refine cons_exact (c:=(s,chunk :: chunks)) looped along joined.symm (Nat.zero_le _) nonempty tries ?_
    intro more next along
    exact assembled_exact fits more along remaining (fun d member => (reading d (.tail _ member)).2)
      (fun d member other present => (sized d (.tail _ member) other present).1) fd

def atOnce : Segmentation (BloomFilter BloomFilter.small) (frame .little [8,1,18,2,107,49]) where
  callbacks := whole.callbacks
  reading := whole.reading
  sized := whole.sized
  joined := by decide

theorem performed_exact_later :
    Performed [8,1,18,2,107,49] (serve .little Codec.codec 7 (new (text "0x1"))
      (ended false [⟨idle,[.got []]⟩] atOnce.callbacks)) atOnce.callbacks.length ↔
      Survives Codec.codec [8,1,18,2,107,49] 0 atOnce.callbacks ∧ ¬Seen false atOnce.callbacks :=
  performed_exact (by decide) atOnce (by decide) false [⟨idle,[.got []]⟩] 7 (text "0x1")

theorem atOnce_dropped :
    serve .little Codec.codec 7 (new (text "0x1")) (ended true [] atOnce.callbacks) = [[.delete (text "0x1")]] ∧
    ¬Performed [8,1,18,2,107,49] (serve .little Codec.codec 7 (new (text "0x1")) (ended true [] atOnce.callbacks))
      atOnce.callbacks.length := by
  have deleted : serve .little Codec.codec 7 (new (text "0x1")) (ended true [] atOnce.callbacks) =
      [[.delete (text "0x1")]] := by decide
  refine ⟨deleted,?_⟩
  rw [deleted]
  rintro ⟨before,after,split,_⟩
  have member : Event.parse [8,1,18,2,107,49] ∈ before ++ .parse [8,1,18,2,107,49] :: after := by simp
  rw [← split] at member
  revert member
  decide

end RemoteDict.Dropped
