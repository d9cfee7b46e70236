import RemoteDict.Server

namespace RemoteDict.Shutdown
open Foundation Handoff Server

variable {F : Type} {T : Nat} {s next : State F T} {w : Worker}

-- How far shutdown is with the listener and with worker i: 'e' may have been
-- written, and stop() has returned.
def Past : Main T → Prop
  | .listening | .flagged | .running | .haltingListener | .awaitingListener => False
  | _ => True

def Told : Main T → Fin T → Prop
  | .awaiting j,i => i ≤ j
  | .halting j,i => i < j
  | .next n,i => i.val < n
  | .returned,_ => True
  | _,_ => False

def Passed : Main T → Fin T → Prop
  | .awaiting j,i | .halting j,i => i < j
  | .next n,i => i.val < n
  | .returned,_ => True
  | _,_ => False

theorem told_past {main : Main T} (told : Told main i) : Past main := by
  cases main <;> first | exact told.elim | trivial

-- What holds of one worker. While every stop() succeeded, the listener is gone
-- before the first worker is told to end, so that 'e' is the last byte it reads
-- and its queue is empty by then.
structure Settled (listener : Accepting T) (main : Main T) (stopped : Bool) (i : Fin T) (w : Worker) : Prop where
  sound : w.channel.Sound
  adding : w.channel.adding ≠ none → listener = .adding i
  told : .e ∈ w.channel.ctx.sockets ∨ w.leaving = true → Told main i ∧ w.m_processExiting = true
  emptied : w.leaving = true → w.m_tcpSessions = []
  flows : ∀ session ∈ w.m_tcpSessions, Overrun.Sound session.flow
  busy : w.serving.Busy
  left : w.channel.ctx.place = .left → w.leaving = true
  halting : main = .halting i → w.m_processExiting = true
  last : stopped = true → w.channel.ctx.sockets.Pairwise fun earlier _ => earlier ≠ .e
  drained : stopped = true → w.leaving = true → w.channel.ctx.m_queue = []
  passed : stopped = true → Passed main i → w.channel.ctx.place = .left

structure Valid (s : State F T) : Prop where
  listener : s.stopped = true → Past s.main → s.listener = .left
  workers : ∀ i, Settled s.listener s.main s.stopped i (s.workers i)

theorem new_settled {listener : Accepting T} : Settled listener .listening stopped i .new where
  sound := Channel.new_sound
  adding held := absurd rfl held
  told := by simp [Worker.new,Channel.new,Context.new]
  emptied _ := rfl
  flows := fun _ member => absurd member List.not_mem_nil
  busy := trivial
  left := by simp [Worker.new,Channel.new,Context.new]
  halting := by simp
  last _ := List.Pairwise.nil
  drained _ _ := rfl
  passed _ passed := passed.elim

-- A worker that a step leaves alone, while the listener and the main thread move.
theorem Settled.frame {listener later : Accepting T} {main following : Main T}
    (settled : Settled listener main stopped i w) (adding : listener = .adding i → later = .adding i)
    (told : Told main i → Told following i) (halting : following = .halting i → w.m_processExiting = true)
    (still : ended = true → stopped = true)
    (passed : ended = true → Passed following i → w.channel.ctx.place = .left) :
    Settled later following ended i w where
  sound := settled.sound
  adding held := adding (settled.adding held)
  told waiting := (settled.told waiting).imp_left told
  emptied := settled.emptied
  flows := settled.flows
  busy := settled.busy
  left := settled.left
  halting := halting
  last ended := settled.last (still ended)
  drained ended := settled.drained (still ended)
  passed := passed

theorem Valid.gone (valid : Valid s) (stopped : s.stopped = true) (told : Told s.main i) : s.listener = .left :=
  valid.listener stopped (told_past told)

theorem Valid.untold (valid : Valid s) (adding : s.listener = .adding i) (stopped : s.stopped = true) :
    ¬(.e ∈ (s.workers i).channel.ctx.sockets ∨ (s.workers i).leaving = true) := by
  intro waiting
  have gone := valid.gone stopped ((valid.workers i).told waiting).1
  rw [adding] at gone
  cases gone

theorem Settled.unpassed {listener : Accepting T} {main : Main T} (settled : Settled listener main stopped i w)
    (runs : w.channel.ctx.place ≠ .left) (ended : stopped = true) : ¬Passed main i :=
  fun passed => runs (settled.passed ended passed)

theorem last_append {sockets : List Signal} (ordered : sockets.Pairwise fun earlier _ => earlier ≠ .e)
    (fresh : .e ∉ sockets) (signal : Signal) : (sockets ++ [signal]).Pairwise fun earlier _ => earlier ≠ .e := by
  refine List.pairwise_append.mpr ⟨ordered,List.pairwise_singleton _ _,fun earlier member _ _ same => ?_⟩
  subst same
  exact fresh member

theorem channel_settled (valid : Valid s) (runs : Runs s i move)
    (stepped : (s.workers i).channel.step capacity move = some (later,effect)) :
    Settled (afterMove s i move) s.main s.stopped i ((s.workers i).settle later effect).1 := by
  have settled := valid.workers i
  have still := Channel.step_sound settled.sound stepped
  cases move with
  | call fd =>
    obtain ⟨_,_,rfl,rfl⟩ := Channel.step_call.mp stepped
    exact {settled with sound := still,adding := fun _ => rfl}
  | write =>
    obtain ⟨fd,ctx,locked,written,rfl,rfl⟩ := Channel.step_write.mp stepped
    obtain ⟨_,rfl⟩ := Context.write_exact.mp written
    refine {settled with sound := still,adding := fun _ => runs,told := ?_,last := fun stopped => ?_}
    · rintro (ending | leaving)
      · exact settled.told (.inl (by simpa [Worker.settle] using ending))
      · exact settled.told (.inr leaving)
    · exact last_append (settled.last stopped) (fun ending => valid.untold runs stopped (.inl ending)) .c
  | writeFails =>
    obtain ⟨fd,locked,rfl,rfl⟩ := Channel.step_writeFails.mp stepped
    exact {settled with sound := still,adding := fun _ => runs}
  | push =>
    obtain ⟨fd,wrote,rfl,rfl⟩ := Channel.step_push.mp stepped
    exact {settled with
      sound := still,adding := fun held => absurd rfl held
      drained := fun stopped leaving => absurd (.inr leaving) (valid.untold runs stopped)}
  | refuse =>
    obtain ⟨fd,refusing,rfl,rfl⟩ := Channel.step_refuse.mp stepped
    exact {settled with sound := still,adding := fun held => absurd rfl held}
  | read =>
    obtain ⟨signal,ctx,got,rfl,rfl⟩ := Channel.step_read.mp stepped
    obtain ⟨idle,rest,bytes,rfl⟩ := Context.read_exact.mp got
    have runs : (s.workers i).channel.ctx.place ≠ .left := by simp [idle]
    have ordered : s.stopped = true → (signal :: rest).Pairwise fun earlier _ => earlier ≠ .e := by
      intro stopped
      rw [← bytes]
      exact settled.last stopped
    cases signal with
    | c =>
      refine {settled with
        sound := still,told := ?_,left := Place.noConfusion
        last := fun stopped => (List.pairwise_cons.mp (ordered stopped)).2
        passed := fun stopped passed => absurd passed (settled.unpassed runs stopped)}
      rintro (ending | leaving)
      · refine settled.told (.inl ?_)
        rw [bytes]
        exact List.mem_cons_of_mem _ ending
      · exact settled.told (.inr leaving)
    | e =>
      have told := settled.told (.inl (by rw [bytes]; exact List.mem_cons_self))
      refine ⟨still,settled.adding,fun _ => told,fun _ => rfl,
        fun _ member => absurd member List.not_mem_nil,settled.busy,fun _ => rfl,settled.halting,
        fun stopped => (List.pairwise_cons.mp (ordered stopped)).2,fun stopped _ => ?_,
        fun stopped passed => absurd passed (settled.unpassed runs stopped)⟩
      -- What is queued would have its 'c' after this byte.
      by_contra queued
      rcases settled.sound.attended queued with (byte | woken) | draining
      · rw [bytes] at byte
        rcases List.mem_cons.mp byte with same | later
        · cases same
        · exact (List.pairwise_cons.mp (ordered stopped)).1 _ later rfl
      · rw [idle] at woken
        cases woken
      · rw [idle] at draining
        cases draining
  | spurious =>
    cases stepped
    exact settled
  | lock =>
    obtain ⟨ctx,_,locked,rfl,rfl⟩ := Channel.step_lock.mp stepped
    obtain ⟨woken,rfl⟩ := Context.lock_exact.mp locked
    have runs : (s.workers i).channel.ctx.place ≠ .left := by simp [woken]
    exact {settled with
      sound := still,left := Place.noConfusion,passed := fun stopped passed => absurd passed (settled.unpassed runs stopped)}
  | process =>
    obtain ⟨fd,ctx,popped,rfl,rfl⟩ := Channel.step_process.mp stepped
    obtain ⟨draining,rest,queue,rfl⟩ := Context.pop_front_exact.mp popped
    have shorter : s.stopped = true → (s.workers i).leaving = true → rest = [] := by
      intro stopped leaving
      have empty := settled.drained stopped leaving
      rw [queue] at empty
      cases empty
    simp only [Worker.settle,Worker.processEvent]
    split
    · exact {settled with sound := still,drained := shorter}
    · rename_i working
      exact {settled with
        sound := still,drained := shorter
        flows := fun session member => (List.mem_append.mp member).elim (settled.flows session) fun new => by
          rw [List.mem_singleton.mp new]
          exact Overrun.new_sound []
        emptied := fun leaving => absurd (settled.told (.inr leaving)).2 working}
  | unlock =>
    obtain ⟨ctx,unlocked,rfl,rfl⟩ := Channel.step_unlock.mp stepped
    obtain ⟨draining,_,rfl⟩ := Context.unlock_exact.mp unlocked
    have runs : (s.workers i).channel.ctx.place ≠ .left := by simp [draining]
    exact {settled with
      sound := still,left := Place.noConfusion,passed := fun stopped passed => absurd passed (settled.unpassed runs stopped)}

theorem put_valid {middle : State F T} (listener : middle.stopped = true → Past middle.main → middle.listener = .left)
    (here : Settled middle.listener middle.main middle.stopped i changed.1)
    (others : ∀ j, j ≠ i → Settled middle.listener middle.main middle.stopped j (middle.workers j)) :
    Valid (put middle i changed) := by
  refine ⟨listener,fun j => ?_⟩
  by_cases same : j = i
  · subst same
    simpa only [put,Function.update_self] using here
  · simpa only [put,Function.update_of_ne same] using others j same

theorem Valid.listening (valid : Valid s) (running : s.listener ≠ .left) (free : ∀ i, s.listener ≠ .adding i)
    (main : next.main = s.main) (stopped : next.stopped = s.stopped) (workers : next.workers = s.workers) : Valid next := by
  constructor
  · rw [main,stopped]
    intro still past
    exact absurd (valid.listener still past) running
  · intro i
    rw [main,stopped,workers]
    have settled := valid.workers i
    exact settled.frame (fun adding => absurd adding (free i)) id settled.halting id settled.passed

theorem channel_valid (valid : Valid s) (runs : Runs s i move)
    (stepped : (s.workers i).channel.step capacity move = some (later,effect)) :
    Valid (put {s with listener := afterMove s i move} i ((s.workers i).settle later effect)) := by
  refine put_valid ?_ (channel_settled valid runs stepped) fun j other => ?_
  · intro stopped past
    have gone := valid.listener stopped past
    cases move with
    | call fd =>
      rw [show s.listener = .calling i fd from runs] at gone
      cases gone
    | push | refuse =>
      rw [show s.listener = .adding i from runs] at gone
      cases gone
    | _ => exact gone
  · have settled := valid.workers j
    refine settled.frame (fun adding => ?_) id settled.halting id settled.passed
    cases move with
    | call fd =>
      rw [show s.listener = .calling i fd from runs] at adding
      cases adding
    | push | refuse =>
      rw [show s.listener = .adding i from runs] at adding
      cases adding
      exact absurd rfl other
    | _ => exact adding

theorem halt_valid {i : Fin T} (valid : Valid s) (standing : s.main = .next i) :
    Valid (put {s with main := .halting i} i ({s.workers i with m_processExiting := true},[])) := by
  have told : ∀ j, Told s.main j → Told (.halting i) j := by
    intro j told
    rw [standing] at told
    exact told
  have passed : ∀ j, Passed (.halting i) j → Passed s.main j := by
    intro j passed
    rw [standing]
    exact passed
  refine put_valid (fun stopped _ => valid.listener stopped (by rw [standing]; trivial)) ?_ fun j other => ?_
  · have settled := valid.workers i
    exact {settled with
      told := fun waiting => ⟨told i (settled.told waiting).1,rfl⟩
      halting := fun _ => rfl
      passed := fun stopped reached => settled.passed stopped (passed i reached)}
  · have settled := valid.workers j
    refine settled.frame id (told j) (fun same => ?_) id fun stopped reached => settled.passed stopped (passed j reached)
    cases same
    exact absurd rfl other

theorem tell_valid (valid : Valid s) (standing : s.main = .halting i)
    (written : (s.workers i).channel.ctx.write capacity .e = some ctx) :
    Valid (put {s with main := .awaiting i} i
      ({s.workers i with channel := {(s.workers i).channel with ctx := ctx}},[])) := by
  refine put_valid (fun stopped _ => valid.listener stopped (by rw [standing]; trivial)) ?_ fun j other => ?_
  · have settled := valid.workers i
    have fresh : .e ∉ (s.workers i).channel.ctx.sockets := by
      intro ending
      have told := (settled.told (.inl ending)).1
      rw [standing] at told
      exact Nat.lt_irrefl _ told
    have attended := Context.write_attended settled.sound.attended written
    have announced := fun fd wrote => Context.write_still (settled.sound.announced fd wrote) written
    obtain ⟨_,rfl⟩ := Context.write_exact.mp written
    refine {settled with
      sound := ⟨attended,announced,settled.sound.exclusive⟩
      told := fun _ => ⟨Nat.le_refl _,settled.halting standing⟩
      halting := nofun
      last := fun stopped => ?_
      passed := fun _ reached => absurd reached (Nat.lt_irrefl _)}
    exact last_append (settled.last stopped) fresh .e
  · have settled := valid.workers j
    refine settled.frame id (fun told => ?_) nofun id fun stopped reached => settled.passed stopped ?_
    · rw [standing] at told
      exact Nat.le_of_lt told
    · rw [standing]
      exact reached

theorem over_valid (valid : Valid s) (standing : s.main = .halting i ∨ s.main = .awaiting i)
    (gone : ended = true → s.stopped = true ∧ (s.workers i).channel.ctx.place = .left) :
    Valid {s with main := .next (i + 1),stopped := ended} := by
  have past : Past s.main := by rcases standing with same | same <;> rw [same] <;> trivial
  refine ⟨fun stopped _ => valid.listener (gone stopped).1 past,fun j => ?_⟩
  have settled := valid.workers j
  refine settled.frame id (fun told => ?_) nofun (fun ended => (gone ended).1) fun ended reached => ?_
  · rcases standing with same | same
    · rw [same] at told
      exact Nat.lt_succ_of_lt told
    · rw [same] at told
      exact Nat.lt_succ_of_le told
  · rcases Nat.lt_succ_iff_lt_or_eq.mp reached with before | same
    · refine settled.passed (gone ended).1 ?_
      rcases standing with same | same <;> (rw [same]; exact before)
    · obtain rfl : j = i := Fin.ext same
      exact (gone ended).2

theorem clear_valid (valid : Valid s) (standing : s.main = .next n) (finished : T ≤ n) : Valid (clear s) := by
  have past : Past s.main := by rw [standing]; trivial
  unfold clear
  split
  · exact ⟨valid.listener,valid.workers⟩
  · rename_i unused
    refine ⟨fun stopped _ => valid.listener stopped past,fun i => ?_⟩
    have settled := valid.workers i
    have reached : Passed s.main i := by
      rw [standing]
      exact Nat.lt_of_lt_of_le i.isLt finished
    exact {settled with
      sound := ⟨fun queued => absurd rfl queued,settled.sound.announced,settled.sound.exclusive⟩
      told := fun waiting => ⟨trivial,(settled.told waiting).2⟩
      emptied := fun _ => rfl
      flows := fun _ member => absurd member List.not_mem_nil
      halting := nofun
      drained := fun _ _ => rfl
      passed := fun stopped _ => settled.passed stopped reached}

theorem Settled.called {after : Worker} (settled : Settled listener main stopped i w) (called : Called w after) :
    Settled listener main stopped i after where
  sound := called.channel ▸ settled.sound
  adding held := settled.adding (called.channel ▸ held)
  told waiting := called.exiting ▸ settled.told (called.leaving ▸ called.channel ▸ waiting)
  emptied leaving := called.emptied (settled.emptied (called.leaving ▸ leaving))
  flows := called.sound settled.flows
  busy := called.busy settled.busy
  left gone := called.leaving ▸ settled.left (called.channel ▸ gone)
  halting standing := called.exiting ▸ settled.halting standing
  last ended := called.channel ▸ settled.last ended
  drained ended leaving := called.channel ▸ settled.drained ended (called.leaving ▸ leaving)
  passed ended reached := called.channel ▸ settled.passed ended reached

theorem Valid.starting (valid : Valid s) (standing : s.main = .listening ∨ s.main = .flagged)
    (following : main = .flagged ∨ main = .running) : Valid {s with main := main,shared := shared} := by
  have before : ∀ i, ¬Told s.main i := by rcases standing with same | same <;> (rw [same]; exact fun _ => id)
  refine ⟨fun _ past => ?_,fun i => ?_⟩
  · rcases following with rfl | rfl <;> exact past.elim
  · refine (valid.workers i).frame id (fun told => absurd told (before i)) (fun halting => ?_) id fun _ passed => ?_
    · rcases following with rfl | rfl <;> cases halting
    · rcases following with rfl | rfl <;> exact passed.elim

theorem fail_valid (valid : Valid s) : Valid (fail s) := ⟨valid.listener,valid.workers⟩

-- Once stop() succeeded for every thread, no worker holds anything.
theorem Valid.finished (valid : Valid s) (stopped : s.stopped = true) (past : Past s.main) (all : ∀ i, Passed s.main i) :
    s.listener = .left ∧ ∀ i, (s.workers i).channel.ctx.place = .left ∧ (s.workers i).channel.adding = none ∧
      (s.workers i).channel.ctx.m_queue = [] ∧ (s.workers i).m_tcpSessions = [] := by
  have gone := valid.listener stopped past
  refine ⟨gone,fun i => ?_⟩
  have settled := valid.workers i
  have left := settled.passed stopped (all i)
  have leaving := settled.left left
  refine ⟨left,?_,settled.drained stopped leaving,settled.emptied leaving⟩
  by_contra held
  have adding := settled.adding held
  rw [gone] at adding
  cases adding

variable [MembershipFilter F] {host : Host}

theorem act_valid (valid : Valid s) (acted : act host s move = some next) : Valid next := by
  cases move with
  | run i =>
    obtain ⟨_,rfl⟩ := act_run.mp acted
    have settled := valid.workers i
    exact put_valid valid.listener {settled with sound := settled.sound} fun j _ => valid.workers j
  | listen =>
    obtain ⟨starting,rfl⟩ := act_listen.mp acted
    exact valid.listening (by simp [starting]) (by simp [starting]) rfl rfl rfl
  | accept =>
    obtain ⟨idle,_,rfl⟩ := act_accept.mp acted
    exact valid.listening (by simp [idle]) (by simp [idle]) rfl rfl rfl
  | nonblock =>
    obtain ⟨fd,accepted,rfl⟩ := act_nonblock.mp acted
    exact valid.listening (by simp [accepted]) (by simp [accepted]) rfl rfl rfl
  | nonblockFails =>
    obtain ⟨fd,accepted,rfl⟩ := act_nonblockFails.mp acted
    exact valid.listening (by simp [accepted]) (by simp [accepted]) rfl rfl rfl
  | dispatch =>
    obtain ⟨fd,dispatching,rfl⟩ := act_dispatch.mp acted
    refine valid.listening (by simp [dispatching]) (by simp [dispatching]) ?_ ?_ ?_
    all_goals unfold loadbalanceFd; split <;> rfl
  | channel i move =>
    obtain ⟨runs,⟨_,rfl⟩ | ⟨_,later,effect,stepped,rfl⟩⟩ := act_channel.mp acted
    · exact fail_valid valid
    · exact channel_valid valid runs stepped
  | data i fd reads | advance i | write i result =>
    obtain rfl | ⟨shared,changed,called,rfl⟩ := act_callback rfl acted
    · exact fail_valid valid
    · exact put_valid valid.listener ((valid.workers i).called called) fun j _ => valid.workers j
  | exit i =>
    obtain ⟨leaving,_,ctx,left,rfl⟩ := act_exit.mp acted
    have settled := valid.workers i
    have attended := Context.leave_attended settled.sound.attended left
    have announced := fun fd wrote => Context.leave_woken (settled.sound.announced fd wrote) left
    obtain ⟨_,rfl⟩ := Context.leave_exact.mp left
    refine put_valid valid.listener ?_ fun j _ => valid.workers j
    exact {settled with
      sound := ⟨attended,announced,fun _ => nofun⟩
      left := fun _ => leaving
      passed := fun _ _ => rfl}
  | listenerReads =>
    obtain ⟨_,_,rfl⟩ := act_listenerReads.mp acted
    exact ⟨valid.listener,valid.workers⟩
  | listenerExits =>
    obtain ⟨idle,_,rfl⟩ := act_listenerExits.mp acted
    exact valid.listening (by simp [idle]) (by simp [idle]) rfl rfl rfl
  | setFlag =>
    obtain ⟨standing,rfl⟩ := act_setFlag.mp acted
    exact valid.starting (.inl standing) (by split <;> simp)
  | buildFilter =>
    obtain ⟨standing,rfl⟩ := act_buildFilter.mp acted
    exact valid.starting (.inr standing) (.inr rfl)
  | halt =>
    rcases act_halt.mp acted with ⟨standing,rfl⟩ | ⟨i,standing,rfl⟩
    · refine ⟨fun _ past => past.elim,fun i => ?_⟩
      have settled := valid.workers i
      refine settled.frame id (fun told => ?_) nofun id fun _ passed => passed.elim
      rw [standing] at told
      exact told
    · exact halt_valid valid standing
  | tell =>
    rcases act_tell.mp acted with ⟨standing,⟨_,rfl⟩ | ⟨_,rfl⟩⟩ | ⟨i,standing,⟨_,rfl⟩ | ⟨_,ctx,written,rfl⟩⟩
    · exact fail_valid valid
    · refine ⟨fun _ past => past.elim,fun i => ?_⟩
      have settled := valid.workers i
      refine settled.frame id (fun told => ?_) nofun id fun _ passed => passed.elim
      rw [standing] at told
      exact told
    · exact fail_valid valid
    · exact tell_valid valid standing written
  | tellFails =>
    rcases act_tellFails.mp acted with ⟨standing,rfl⟩ | ⟨i,standing,rfl⟩
    · refine ⟨nofun,fun i => ?_⟩
      have settled := valid.workers i
      refine settled.frame id (fun told => ?_) nofun nofun nofun
      rw [standing] at told
      exact told.elim
    · exact over_valid valid (.inl standing) nofun
  | awake =>
    rcases act_awake.mp acted with ⟨standing,gone,rfl⟩ | ⟨i,standing,gone,rfl⟩
    · refine ⟨fun _ _ => gone,fun i => ?_⟩
      have settled := valid.workers i
      refine settled.frame id (fun told => ?_) nofun id fun _ passed => absurd passed (Nat.not_lt_zero _)
      rw [standing] at told
      exact told.elim
    · exact over_valid valid (.inr standing) fun ended => ⟨ended,gone⟩
  | clear =>
    obtain ⟨n,standing,finished,rfl⟩ := act_clear.mp acted
    exact clear_valid valid standing finished

theorem start_valid : Valid (server F T host).start := ⟨fun _ past => past.elim,fun _ => new_settled⟩

end RemoteDict.Shutdown
