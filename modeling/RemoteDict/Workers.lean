import RemoteDict.Server

namespace RemoteDict.Workers
open Foundation Handoff Server TcpFlow
open Foundation.Block (Byte)

variable {F : Type} [MembershipFilter F] {T : Nat} {host : Host} {s next last : State F T}

-- A worker that writes its response is through with the handler.
def placeOf : Serving → Handlers.Local
  | .handling _ here => here
  | .idle | .writing _ _ => .idle

def threadsOf (s : State F T) (i : Fin T) : Handlers.Local := placeOf (s.workers i).serving

-- The server as the handlers see it.
def handlersOf (s : State F T) : Handlers.State (Fin T) F := ⟨s.shared,threadsOf s,none⟩

def after : Handlers.Local → Handlers.Local
  | .done _ => .idle
  | here => here

theorem send_place (w : Worker) (fd : Nat) (left : List Byte) : placeOf (w.send fd left).serving = .idle := by
  unfold Worker.send
  dsimp only
  split <;> rfl

theorem resume_place (pb : Protobuf) (w : Worker) (fd : Nat) (here : Handlers.Local) :
    placeOf (w.resume pb fd here).serving = after here := by
  cases here with
  | done m => exact send_place _ fd _
  | idle | ready | counted | looked | tested | readAll | readSucc => rfl

omit [MembershipFilter F] in
theorem put_threads (s : State F T) (i : Fin T) (changed : Worker × List Nat) :
    threadsOf (put s i changed) = Function.update (threadsOf s) i (placeOf changed.1.serving) := by
  funext j
  by_cases same : j = i
  · subst same
    simp only [threadsOf,put,Function.update_self]
  · simp only [threadsOf,put,Function.update_of_ne same]

omit [MembershipFilter F] in
theorem put_rests {m : State F T} {i : Fin T} {changed : Worker × List Nat} (same : placeOf changed.1.serving = threadsOf m i) :
    threadsOf (put m i changed) = threadsOf m := by
  rw [put_threads,same,Function.update_eq_self]

-- What a move is to the handlers: nothing, a request that arrives, or their own
-- next step, which also leaves them when it is the last one.
inductive Follows (s next : State F T) : Server.Move T → Prop where
  | rests : threadsOf next = threadsOf s → (move ≠ .setFlag ∧ move ≠ .buildFilter → next.shared = s.shared) → Follows s next move
  | receives : threadsOf s i = .idle → threadsOf next = Function.update (threadsOf s) i (.ready type m) →
      next.shared = s.shared → Follows s next (.data i fd reads)
  | advances : Handlers.advance (threadsOf s i) s.shared = some (.ok (there,next.shared)) →
      threadsOf next = Function.update (threadsOf s) i (after there) → Follows s next (.advance i)

theorem settle_serving (w : Worker) (channel : Channel) (effect : Effect) :
    (w.settle channel effect).1.serving = w.serving := by
  cases effect with
  | processed fd =>
    simp only [Worker.settle,Worker.processEvent]
    split <;> rfl
  | _ => rfl

theorem act_follows (acted : act host s move = some next) : Follows s next move := by
  cases move with
  | run i =>
    obtain ⟨_,rfl⟩ := act_run.mp acted
    exact .rests (put_rests rfl) fun _ => rfl
  | listen =>
    obtain ⟨_,rfl⟩ := act_listen.mp acted
    exact .rests rfl fun _ => rfl
  | accept =>
    obtain ⟨_,_,rfl⟩ := act_accept.mp acted
    exact .rests rfl fun _ => rfl
  | nonblock =>
    obtain ⟨_,_,rfl⟩ := act_nonblock.mp acted
    exact .rests rfl fun _ => rfl
  | nonblockFails =>
    obtain ⟨_,_,rfl⟩ := act_nonblockFails.mp acted
    exact .rests rfl fun _ => rfl
  | dispatch =>
    obtain ⟨fd,_,rfl⟩ := act_dispatch.mp acted
    unfold loadbalanceFd
    split <;> exact .rests rfl fun _ => rfl
  | channel i move =>
    obtain ⟨_,⟨_,rfl⟩ | ⟨_,later,effect,_,rfl⟩⟩ := act_channel.mp acted
    · exact .rests rfl fun _ => rfl
    · have same := settle_serving (s.workers i) later effect
      exact .rests (put_rests (m:={s with listener := afterMove s i move}) (congrArg placeOf same)) fun _ => rfl
  | data i fd reads =>
    obtain ⟨looping,_,session,_,rfl⟩ := act_data.mp acted
    have rests : threadsOf s i = .idle := congrArg placeOf looping.2
    cases ran : (s.workers i).data host session reads with
    | none => exact .rests rfl fun _ => rfl
    | some changed =>
      unfold Worker.data at ran
      split at ran
      · cases ran
      · cases ran
        exact .rests (put_rests rfl) fun _ => rfl
      · cases ran
        exact .rests (put_rests rfl) fun _ => rfl
      · cases ran
        exact .receives rests (put_threads ..) rfl
  | advance i =>
    obtain ⟨fd,here,result,busy,moved,rfl⟩ := act_advance.mp acted
    have place : threadsOf s i = here := congrArg placeOf busy
    cases result with
    | error fault => exact .rests rfl fun _ => rfl
    | ok answer =>
      have moved : Handlers.advance (threadsOf s i) s.shared = some (.ok (answer.1,answer.2)) := place ▸ moved
      refine .advances moved ?_
      rw [proceed,put_threads,resume_place]
      rfl
  | write i result =>
    obtain ⟨fd,left,rest,busy,_,rfl⟩ := act_write.mp acted
    have place : threadsOf s i = .idle := congrArg placeOf busy
    exact .rests (put_rests ((send_place ..).trans place.symm)) fun _ => rfl
  | exit i =>
    obtain ⟨_,_,_,_,rfl⟩ := act_exit.mp acted
    exact .rests (put_rests rfl) fun _ => rfl
  | listenerReads =>
    obtain ⟨_,_,rfl⟩ := act_listenerReads.mp acted
    exact .rests rfl fun _ => rfl
  | listenerExits =>
    obtain ⟨_,_,rfl⟩ := act_listenerExits.mp acted
    exact .rests rfl fun _ => rfl
  | setFlag =>
    obtain ⟨_,rfl⟩ := act_setFlag.mp acted
    exact .rests rfl fun others => absurd rfl others.1
  | buildFilter =>
    obtain ⟨_,rfl⟩ := act_buildFilter.mp acted
    exact .rests rfl fun others => absurd rfl others.2
  | halt =>
    rcases act_halt.mp acted with ⟨_,rfl⟩ | ⟨i,_,rfl⟩
    · exact .rests rfl fun _ => rfl
    · exact .rests (put_rests (m:={s with main := .halting i}) rfl) fun _ => rfl
  | tell =>
    rcases act_tell.mp acted with ⟨_,⟨_,rfl⟩ | ⟨_,rfl⟩⟩ | ⟨i,_,⟨_,rfl⟩ | ⟨_,_,_,rfl⟩⟩
    · exact .rests rfl fun _ => rfl
    · exact .rests rfl fun _ => rfl
    · exact .rests rfl fun _ => rfl
    · exact .rests (put_rests (m:={s with main := .awaiting i}) rfl) fun _ => rfl
  | tellFails => rcases act_tellFails.mp acted with ⟨_,rfl⟩ | ⟨i,_,rfl⟩ <;> exact .rests rfl fun _ => rfl
  | awake => rcases act_awake.mp acted with ⟨_,_,rfl⟩ | ⟨i,_,_,rfl⟩ <;> exact .rests rfl fun _ => rfl
  | clear =>
    obtain ⟨n,_,_,rfl⟩ := act_clear.mp acted
    unfold clear
    split <;> exact .rests rfl fun _ => rfl

-- The end of start is over.
def Started (main : Main T) : Prop := main ≠ .listening ∧ main ≠ .flagged

-- The main thread moves by itself only.
theorem act_main (acted : act host s move = some next) (others : move ≠ .setFlag ∧ move ≠ .buildFilter) :
    next.main = s.main ∨ Started s.main ∧ Started next.main := by
  cases move with
  | run i =>
    obtain ⟨_,rfl⟩ := act_run.mp acted
    exact .inl rfl
  | listen =>
    obtain ⟨_,rfl⟩ := act_listen.mp acted
    exact .inl rfl
  | accept =>
    obtain ⟨_,_,rfl⟩ := act_accept.mp acted
    exact .inl rfl
  | nonblock =>
    obtain ⟨_,_,rfl⟩ := act_nonblock.mp acted
    exact .inl rfl
  | nonblockFails =>
    obtain ⟨_,_,rfl⟩ := act_nonblockFails.mp acted
    exact .inl rfl
  | dispatch =>
    obtain ⟨fd,_,rfl⟩ := act_dispatch.mp acted
    unfold loadbalanceFd
    split <;> exact .inl rfl
  | channel i move => obtain ⟨_,⟨_,rfl⟩ | ⟨_,_,_,_,rfl⟩⟩ := act_channel.mp acted <;> exact .inl rfl
  | data i fd reads | advance i | write i result =>
    rcases act_callback rfl acted with rfl | ⟨_,_,_,rfl⟩ <;> exact .inl rfl
  | exit i =>
    obtain ⟨_,_,_,_,rfl⟩ := act_exit.mp acted
    exact .inl rfl
  | listenerReads =>
    obtain ⟨_,_,rfl⟩ := act_listenerReads.mp acted
    exact .inl rfl
  | listenerExits =>
    obtain ⟨_,_,rfl⟩ := act_listenerExits.mp acted
    exact .inl rfl
  | setFlag => exact absurd rfl others.1
  | buildFilter => exact absurd rfl others.2
  | halt =>
    rcases act_halt.mp acted with ⟨standing,rfl⟩ | ⟨i,standing,rfl⟩
    · exact .inr (by simp [Started,standing])
    · exact .inr (by simp [Started,standing,put])
  | tell =>
    rcases act_tell.mp acted with ⟨standing,⟨_,rfl⟩ | ⟨_,rfl⟩⟩ | ⟨i,standing,⟨_,rfl⟩ | ⟨_,_,_,rfl⟩⟩
    · exact .inl rfl
    · exact .inr (by simp [Started,standing])
    · exact .inl rfl
    · exact .inr (by simp [Started,standing,put])
  | tellFails =>
    rcases act_tellFails.mp acted with ⟨standing,rfl⟩ | ⟨i,standing,rfl⟩ <;> exact .inr (by simp [Started,standing])
  | awake =>
    rcases act_awake.mp acted with ⟨standing,_,rfl⟩ | ⟨i,standing,_,rfl⟩ <;> exact .inr (by simp [Started,standing])
  | clear =>
    obtain ⟨n,standing,_,rfl⟩ := act_clear.mp acted
    unfold clear
    split
    · exact .inl rfl
    · exact .inr (by simp [Started,standing])

-- What start has made by then of what the workers share.
inductive Made (host : Host) : Main T → Shared F → Prop where
  | listening : Made host .listening ⟨.new,{}⟩
  | flagged : host.m_bloomFilterEnable = true → Made host .flagged ⟨{Dictionary.new with m_bloomFilterEnabled := true},{}⟩
  | started : Started main → Made host main ⟨Dictionary.new.enableBloomFilter host.m_bloomFilterEnable,{}⟩

theorem Made.moves {main later : Main T} {shared : Shared F} (made : Made host main shared) (before : Started main)
    (after : Started later) : Made host later shared := by
  cases made with
  | listening => exact absurd rfl before.1
  | flagged => exact absurd rfl before.2
  | started => exact .started after

theorem made_running (chosen : host.m_bloomFilterEnable = enable) :
    Made host (.running : Main T) (⟨Dictionary.new.enableBloomFilter enable,{}⟩ : Shared F) := by
  subst chosen
  exact .started ⟨nofun,nofun⟩

theorem Made.handlers {main : Main T} {shared : Shared F} (made : Made host main shared) (started : Started main) (ι : Type)
    [DecidableEq ι] : shared = (Handlers.workers ι F host.m_bloomFilterEnable).start.shared := by
  cases made with
  | listening => exact absurd rfl started.1
  | flagged => exact absurd rfl started.2
  | started => rfl

theorem act_made (made : Made host s.main s.shared) (acted : act host s move = some next) (quiet : ∀ i, move ≠ .advance i) :
    Made host next.main next.shared := by
  by_cases others : move ≠ .setFlag ∧ move ≠ .buildFilter
  · have same : next.shared = s.shared := by
      cases act_follows acted with
      | rests _ same => exact same others
      | receives _ _ same => exact same
      | advances => exact absurd rfl (quiet _)
    rw [same]
    rcases act_main acted others with main | ⟨before,later⟩
    · rw [main]
      exact made
    · exact made.moves before later
  · cases move with
    | setFlag =>
      obtain ⟨standing,rfl⟩ := act_setFlag.mp acted
      rw [standing] at made
      generalize s.shared = shared at made ⊢
      cases made with
      | started started => exact absurd rfl started.1
      | listening =>
        cases chosen : host.m_bloomFilterEnable with
        | true => exact .flagged chosen
        | false => exact made_running chosen
    | buildFilter =>
      obtain ⟨standing,rfl⟩ := act_buildFilter.mp acted
      rw [standing] at made
      generalize s.shared = shared at made ⊢
      cases made with
      | started started => exact absurd rfl started.2
      | flagged chosen => exact made_running chosen
    | _ => exact absurd (by simp) others

theorem run_made {moves : List (Server.Move T)} (made : Made host s.main s.shared) (path : (server F T host).run s moves = some next)
    (quiet : ∀ i, .advance i ∉ moves) : Made host next.main next.shared := by
  induction moves generalizing s with
  | nil =>
    cases path
    exact made
  | cons move moves ih =>
    obtain ⟨middle,first,rest⟩ := (server F T host).run_cons.mp path
    have stepped := act_made made (server_step.mp first).2 fun i same => quiet i (same ▸ .head _)
    exact ih stepped rest fun i member => quiet i (.tail _ member)

-- Where no request has been handled before start has ended, what the workers share
-- is what they start with.
theorem run_handlers (ι : Type) [DecidableEq ι] (path : (server F T host).run (server F T host).start moves = some s)
    (quiet : ∀ i, .advance i ∉ moves) (started : Started s.main) :
    s.shared = (Handlers.workers ι F host.m_bloomFilterEnable).start.shared :=
  (run_made (s:=(server F T host).start) .listening path quiet).handlers started ι

section
variable {ι : Type} [DecidableEq ι] {shared later : Shared F} {threads : ι → Handlers.Local} {i : ι} {enable : Bool}

theorem receive_reached (reached : (Handlers.workers ι F enable).Reached ⟨shared,threads,none⟩) (idle : threads i = .idle)
    (type : RequestType) (m : Payload) :
    (Handlers.workers ι F enable).Reached ⟨shared,Function.update threads i (.ready type m),none⟩ := by
  have stepped : (Handlers.workers ι F enable).step ⟨shared,threads,none⟩ (.receive i type m) = some _ :=
    Handlers.step_receive.mpr ⟨rfl,idle,rfl⟩
  exact .step reached stepped

theorem advance_reached (reached : (Handlers.workers ι F enable).Reached ⟨shared,threads,none⟩)
    (moved : Handlers.advance (threads i) shared = some (.ok (there,later))) :
    (Handlers.workers ι F enable).Reached ⟨later,Function.update threads i (after there),none⟩ := by
  have stepped : (Handlers.workers ι F enable).step ⟨shared,threads,none⟩ (.advance i) = some _ :=
    Handlers.step_moved (s:=⟨shared,threads,none⟩) rfl rfl moved
  have first : (Handlers.workers ι F enable).Reached ⟨later,Function.update threads i there,none⟩ := .step reached stepped
  cases there with
  | done m =>
    have leaves : (Handlers.workers ι F enable).step ⟨later,Function.update threads i (.done m),none⟩ (.advance i) = some _ :=
      Handlers.step_moved (s:=⟨later,Function.update threads i (.done m),none⟩) rfl (Function.update_self ..) rfl
    have last : (Handlers.workers ι F enable).Reached _ := .step first leaves
    rwa [Function.update_idem] at last
  | idle | ready | counted | looked | tested | readAll | readSucc => exact first

end

-- The threads are where a run of the handlers' machine has brought them. Up to the
-- end of start they have only received.
def Followed (host : Host) (s : State F T) : Prop :=
  Made host s.main s.shared ∧ (Handlers.workers (Fin T) F host.m_bloomFilterEnable).Reached
    ⟨(Handlers.workers (Fin T) F host.m_bloomFilterEnable).start.shared,threadsOf s,none⟩ ∨
  Started s.main ∧ (Handlers.workers (Fin T) F host.m_bloomFilterEnable).Reached (handlersOf s)

theorem started_followed (started : Started s.main)
    (reached : (Handlers.workers (Fin T) F host.m_bloomFilterEnable).Reached (handlersOf s)) (acted : act host s move = some next) :
    Started next.main ∧ (Handlers.workers (Fin T) F host.m_bloomFilterEnable).Reached (handlersOf next) := by
  have others : move ≠ .setFlag ∧ move ≠ .buildFilter := by
    constructor
    · rintro rfl
      exact started.1 (act_setFlag.mp acted).1
    · rintro rfl
      exact started.2 (act_buildFilter.mp acted).1
  constructor
  · rcases act_main acted others with main | ⟨_,later⟩
    · rw [main]
      exact started
    · exact later
  · rw [handlersOf]
    cases act_follows acted with
    | rests threads shared =>
      rw [threads,shared others]
      exact reached
    | receives idle threads shared =>
      rw [threads,shared]
      exact receive_reached reached idle _ _
    | advances moved threads =>
      rw [threads]
      exact advance_reached reached moved

theorem act_followed (followed : Followed host s) (acted : act host s move = some next)
    (late : ∀ i, move = .advance i → Started s.main) : Followed host next := by
  rcases followed with ⟨made,reached⟩ | ⟨started,reached⟩
  · by_cases started : Started s.main
    · rw [← made.handlers started] at reached
      exact .inr (started_followed started reached acted)
    · refine .inl ⟨act_made made acted fun i same => started (late i same),?_⟩
      cases act_follows acted with
      | rests threads =>
        rw [threads]
        exact reached
      | receives idle threads =>
        rw [threads]
        exact receive_reached reached idle _ _
      | advances => exact absurd (late _ rfl) started
  · exact .inr (started_followed started reached acted)

-- From the end of start on the server's workers are the handlers' machine: whatever
-- the connections and the shutdown do, a run in which no handler has moved before
-- brings them where a run of that machine does.
theorem run_follows (path : (server F T host).run (server F T host).start moves = some last)
    (late : ∀ t i, (server F T host).Takes (server F T host).start moves t (.advance i) → Started t.main)
    (started : Started last.main) : (Handlers.workers (Fin T) F host.m_bloomFilterEnable).Reached (handlersOf last) := by
  have kept : ∀ (s : State F T) move next, Followed host s → (∀ i, move = .advance i → Started s.main) →
      (server F T host).step s move = some next → Followed host next :=
    fun _ _ _ followed late stepped => act_followed followed (server_step.mp stepped).2 late
  have start : Followed host (server F T host).start := .inl ⟨.listening,.start⟩
  have along := (server F T host).throughout kept start ((server F T host).run_exact.mp path)
    fun t move taken i same => late t i (same ▸ taken)
  rcases along last ⟨moves,[],(List.append_nil _).symm,path⟩ with ⟨made,reached⟩ | ⟨_,reached⟩
  · rwa [← made.handlers started] at reached
  · exact reached

end RemoteDict.Workers
