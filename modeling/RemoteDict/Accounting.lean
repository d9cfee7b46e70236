import RemoteDict.Foundation.Ledger
import RemoteDict.Shutdown

namespace RemoteDict.Accounting
open Foundation Handoff Server Shutdown TcpFlow

variable {F : Type} {T : Nat} {host : Host} {s next : State F T} {w : Worker}

-- The places of a descriptor: the accepting or dispatching call, the queue or a
-- flow of a worker, the list of the closed ones.
def inCall : Accepting T → List Nat
  | .accepted fd | .nonblocking fd | .calling _ fd => [fd]
  | .starting | .idle | .adding _ | .left => []

def inAdding : Option Adding → List Nat
  | some (.locked fd) | some (.wrote fd) | some (.refusing fd) => [fd]
  | none => []

def inChannel (ch : Channel) : List Nat := inAdding ch.adding ++ ch.ctx.m_queue

def owned (w : Worker) : List Nat := inChannel w.channel ++ w.m_tcpSessions.map Session.fd

def held (s : State F T) (fd : Nat) : Nat :=
  (inCall s.listener).count fd + ∑ i, (owned (s.workers i)).count fd + s.closed.count fd

def Accounted (s : State F T) : Prop := s.fault = false ∧ ∀ fd, held s fd = if fd < s.accepted then 1 else 0

def takes : Handoff.Move → List Nat
  | .call fd => [fd]
  | _ => []

def gives : Effect → List Nat
  | .closed fd | .processed fd => [fd]
  | _ => []

theorem step_inChannel {ch later : Channel} (stepped : ch.step capacity move = some (later,effect)) (x : Nat) :
    (inChannel later).count x + (gives effect).count x = (inChannel ch).count x + (takes move).count x := by
  cases move with
  | call fd =>
    obtain ⟨free,_,rfl,rfl⟩ := Channel.step_call.mp stepped
    simp [inChannel,inAdding,gives,takes,free,List.count_cons]
  | write =>
    obtain ⟨fd,ctx,locked,written,rfl,rfl⟩ := Channel.step_write.mp stepped
    obtain ⟨_,rfl⟩ := Context.write_exact.mp written
    simp [inChannel,inAdding,gives,takes,locked]
  | writeFails =>
    obtain ⟨fd,locked,rfl,rfl⟩ := Channel.step_writeFails.mp stepped
    simp [inChannel,inAdding,gives,takes,locked]
  | push =>
    obtain ⟨fd,wrote,rfl,rfl⟩ := Channel.step_push.mp stepped
    simp [inChannel,inAdding,gives,takes,wrote,Context.push_back,List.count_cons]
  | refuse =>
    obtain ⟨fd,refusing,rfl,rfl⟩ := Channel.step_refuse.mp stepped
    simp [inChannel,inAdding,gives,takes,refusing,List.count_cons]
  | read =>
    obtain ⟨signal,ctx,got,rfl,rfl⟩ := Channel.step_read.mp stepped
    obtain ⟨_,rest,_,rfl⟩ := Context.read_exact.mp got
    cases signal <;> simp [inChannel,gives,takes]
  | spurious =>
    cases stepped
    simp [gives,takes]
  | lock =>
    obtain ⟨ctx,_,locked,rfl,rfl⟩ := Channel.step_lock.mp stepped
    obtain ⟨_,rfl⟩ := Context.lock_exact.mp locked
    simp [inChannel,gives,takes]
  | process =>
    obtain ⟨fd,ctx,popped,rfl,rfl⟩ := Channel.step_process.mp stepped
    obtain ⟨_,rest,queue,rfl⟩ := Context.pop_front_exact.mp popped
    simp [inChannel,gives,takes,queue,List.count_cons]
    omega
  | unlock =>
    obtain ⟨ctx,unlocked,rfl,rfl⟩ := Channel.step_unlock.mp stepped
    obtain ⟨_,_,rfl⟩ := Context.unlock_exact.mp unlocked
    simp [inChannel,gives,takes]

-- A flow without data is not closed with the others.
def unseen (w : Worker) : List Nat := (w.m_tcpSessions.filter (·.flow.m_clientFd = -1)).map Session.fd

def Seen (w : Worker) : Prop := ∀ session ∈ w.m_tcpSessions, session.flow.m_clientFd ≠ -1

theorem unseen_exact : unseen w = [] ↔ Seen w := by
  simp [unseen,Seen]

theorem sessions_closes (sessions : List Session) (x : Nat) : (sessions.flatMap Session.closes).count x +
    ((sessions.filter (·.flow.m_clientFd = -1)).map Session.fd).count x = (sessions.map Session.fd).count x := by
  induction sessions with
  | nil => rfl
  | cons session sessions ih =>
    rcases session.own with unseen | seen
    · simp [Session.closes,unseen,List.count_cons] at ih ⊢
      omega
    · have known : ¬session.flow.m_clientFd = -1 := by omega
      have same : session.flow.m_clientFd.toNat = session.fd := by omega
      simp [Session.closes,known,same,List.count_cons] at ih ⊢
      omega

def dropped (w : Worker) : Effect → List Nat
  | .processed fd => if w.m_processExiting then [fd] else []
  | .ended => unseen w
  | _ => []

theorem settle_balance {later : Channel} (stepped : w.channel.step capacity move = some (later,effect)) (x : Nat) :
    (owned (w.settle later effect).1).count x + (w.settle later effect).2.count x + (dropped w effect).count x =
      (owned w).count x + (takes move).count x := by
  have moved := step_inChannel stepped x
  cases effect with
  | silent | pushed fd =>
    simp only [owned,Worker.settle,dropped,gives,List.count_append,List.count_nil] at moved ⊢
    omega
  | closed fd =>
    simp only [owned,Worker.settle,dropped,gives,List.count_append,List.count_nil] at moved ⊢
    omega
  | processed fd =>
    simp only [owned,Worker.settle,Worker.processEvent,dropped,gives,List.count_append,List.count_nil] at moved ⊢
    split
    · dsimp only
      omega
    · simp only [Session.new,List.map_append,List.map_cons,List.map_nil,List.count_append,List.count_nil]
      omega
  | ended =>
    have closing := sessions_closes w.m_tcpSessions x
    simp only [owned,Worker.settle,Worker.cleanState,dropped,unseen,gives,List.map_nil,List.append_nil,
      List.count_append,List.count_nil] at moved ⊢
    omega

theorem change_owned (w : Worker) (fd : Nat) (after : Session → Session)
    (same : ∀ session, session.fd = fd → (after session).fd = fd) (serving : Serving) : owned {w.change fd after with serving := serving} = owned w := by
  have named : (w.change fd after).m_tcpSessions.map Session.fd = w.m_tcpSessions.map Session.fd := by
    rw [Worker.change,List.map_map]
    refine List.map_congr_left fun session _ => ?_
    dsimp only [Function.comp]
    split
    · rename_i here
      rw [same session here,here]
    · rfl
  exact congrArg (inChannel w.channel ++ ·) named

theorem delete_balance (flow : fd ∈ w.m_tcpSessions.map Session.fd) (x : Nat) :
    (owned (w.deleteTcpFlow fd).1).count x + (w.deleteTcpFlow fd).2.count x = (owned w).count x := by
  have gone : (w.m_tcpSessions.eraseP (·.fd == fd)).map Session.fd = (w.m_tcpSessions.map Session.fd).erase fd := by
    rw [List.erase_eq_eraseP',List.eraseP_map]
    rfl
  have there := List.count_pos_iff.mpr flow
  simp only [Worker.deleteTcpFlow,owned,List.count_append,gone,List.count_erase,List.count_cons,List.count_nil]
  by_cases same : fd = x
  · subst same
    simp
    omega
  · simp [same]

theorem data_balance (member : session ∈ w.m_tcpSessions) (ran : w.data host session reads = some changed) (x : Nat) :
    (owned changed.1).count x + changed.2.count x = (owned w).count x := by
  unfold Worker.data at ran
  split at ran
  · cases ran
  · cases ran
    exact delete_balance (List.mem_map_of_mem member) x
  · rename_i flow _
    cases ran
    exact congrArg (List.count x) (change_owned w session.fd (fun _ => .kept session.fd flow) (fun _ _ => rfl) w.serving)
  · rename_i flow _ _ _
    cases ran
    exact congrArg (List.count x) (change_owned w session.fd (fun _ => .kept session.fd flow) (fun _ _ => rfl) _)

theorem resume_owned (pb : Protobuf) (w : Worker) (fd : Nat) (here : Handlers.Local) : owned (w.resume pb fd here) = owned w := by
  cases here with
  | done m => exact change_owned w fd (·.respond m) (fun _ same => same) _
  | _ => rfl

theorem put_balance (middle : State F T) (i : Fin T) (changed : Worker × List Nat) (x : Nat) :
    held (put middle i changed) x + (owned (middle.workers i)).count x =
      held middle x + (owned changed.1).count x + changed.2.count x := by
  have sum := Ledger.sum_update (fun w => (owned w).count x) middle.workers i changed.1
  simp only [held,put,List.count_append] at sum ⊢
  omega

-- Where the server keeps track of every descriptor: it leaves out non-blocking
-- mode that cannot be set, a wake-up of a thread that is not up yet, bytes that
-- are not those announced, a handler that needs the filter before it is built, a
-- worker that is stopped with entries in its queue or with a flow that got no
-- data, and the end of a shutdown that went wrong.
def Meets (host : Host) (s : State F T) : Move T → Prop
  | .nonblockFails => False
  | .dispatch => 0 < T ∧ s.main ≠ .returned
  | .channel i .write => (s.workers i).ready = true
  | .channel i .process => (s.workers i).m_processExiting = false
  | .channel i .read => (s.workers i).channel.ctx.sockets.head? = some .e → Seen (s.workers i)
  | .data i fd reads => Fitting host s i fd reads
  | .advance i => ∀ fd here, (s.workers i).serving = .handling fd here → Handlers.looksUp here = true →
      s.shared.dictionary.Built
  | .tell => (s.main = .haltingListener → s.listener ≠ .starting) ∧ ∀ i, s.main = .halting i → (s.workers i).ready = true
  | .clear => s.stopped = false → ¬InUse s ∧ ∀ i, (s.workers i).channel.ctx.m_queue = [] ∧ Seen (s.workers i)
  | _ => True

theorem balance_exact (lost : List Nat) (accounted : Accounted s) (fault : next.fault = false) (accepted : next.accepted = s.accepted)
    (balance : ∀ x, held next x + lost.count x = held s x) : Accounted next ↔ lost = [] := by
  constructor
  · intro again
    refine List.eq_nil_iff_forall_not_mem.mpr fun x member => ?_
    have there := List.count_pos_iff.mpr member
    have before := accounted.2 x
    have after := again.2 x
    have step := balance x
    rw [accepted] at after
    omega
  · rintro rfl
    refine ⟨fault,fun x => ?_⟩
    rw [accepted,← accounted.2 x,← balance x]
    rfl

theorem fail_exact (unmet : ¬Meets host s move) : Accounted (fail s) ↔ Meets host s move :=
  ⟨fun again => Bool.noConfusion again.1,fun met => absurd met unmet⟩

theorem kept_exact (accounted : Accounted s) (fault : next.fault = false) (accepted : next.accepted = s.accepted)
    (balance : ∀ x, held next x = held s x) (met : Meets host s move) : Accounted next ↔ Meets host s move :=
  ⟨fun _ => met,fun _ => (balance_exact [] accounted fault accepted balance).mpr rfl⟩

theorem put_kept (accounted : Accounted s) (main : Main T) (same : owned w = owned (s.workers i)) (met : Meets host s move) :
    Accounted (put {s with main := main} i (w,[])) ↔ Meets host s move := by
  refine kept_exact accounted accounted.1 rfl (fun x => ?_) met
  have placed := put_balance {s with main := main} i (w,[]) x
  simp only [held,same,List.count_nil] at placed ⊢
  omega

theorem channel_exact (accounted : Accounted s) (runs : Runs s i move)
    (stepped : (s.workers i).channel.step capacity move = some (later,effect)) :
    Accounted (put {s with listener := afterMove s i move} i ((s.workers i).settle later effect)) ↔
      dropped (s.workers i) effect = [] := by
  refine balance_exact _ accounted accounted.1 rfl fun x => ?_
  have handed : (inCall (afterMove s i move)).count x + (takes move).count x = (inCall s.listener).count x := by
    cases move with
    | call fd =>
      rw [show s.listener = .calling i fd from runs]
      simp [afterMove,takes,inCall]
    | push | refuse =>
      rw [show s.listener = .adding i from runs]
      rfl
    | _ => rfl
  have here := settle_balance stepped x
  have placed := put_balance {s with listener := afterMove s i move} i ((s.workers i).settle later effect) x
  simp only [held] at placed ⊢
  omega

theorem dropped_exact (written : ¬(s.workers i).refuses move)
    (stepped : (s.workers i).channel.step capacity move = some (later,effect)) :
    dropped (s.workers i) effect = [] ↔ Meets host s (.channel i move) := by
  cases move with
  | call fd => obtain ⟨_,_,_,rfl⟩ := Channel.step_call.mp stepped; simp [dropped,Meets]
  | write =>
    obtain ⟨_,_,_,_,_,rfl⟩ := Channel.step_write.mp stepped
    simpa [dropped,Meets,Worker.refuses] using written
  | writeFails => obtain ⟨_,_,_,rfl⟩ := Channel.step_writeFails.mp stepped; simp [dropped,Meets]
  | push => obtain ⟨_,_,_,rfl⟩ := Channel.step_push.mp stepped; simp [dropped,Meets]
  | refuse => obtain ⟨_,_,_,rfl⟩ := Channel.step_refuse.mp stepped; simp [dropped,Meets]
  | read =>
    obtain ⟨signal,ctx,got,_,rfl⟩ := Channel.step_read.mp stepped
    obtain ⟨_,rest,bytes,_⟩ := Context.read_exact.mp got
    cases signal with
    | c => simp [dropped,Meets,bytes]
    | e => simp [dropped,Meets,bytes,unseen_exact]
  | spurious => cases stepped; simp [dropped,Meets]
  | lock => obtain ⟨_,_,_,_,rfl⟩ := Channel.step_lock.mp stepped; simp [dropped,Meets]
  | process => obtain ⟨_,_,_,_,rfl⟩ := Channel.step_process.mp stepped; simp [dropped,Meets]
  | unlock => obtain ⟨_,_,_,rfl⟩ := Channel.step_unlock.mp stepped; simp [dropped,Meets]

def discarded (s : State F T) : List Nat :=
  (List.finRange T).flatMap fun i => (s.workers i).channel.ctx.m_queue ++ unseen (s.workers i)

theorem discarded_exact : discarded s = [] ↔ ∀ i, (s.workers i).channel.ctx.m_queue = [] ∧ Seen (s.workers i) := by
  simp [discarded,unseen_exact]

theorem count_everywhere (part : Fin T → List Nat) (x : Nat) :
    ((List.finRange T).flatMap part).count x = ∑ i, (part i).count x := by
  rw [List.count_flatMap,Fin.sum_univ_def]
  rfl

theorem clear_balance (unused : ¬InUse s) (x : Nat) :
    held (clear s) x + (discarded s).count x = held s x := by
  have parts : ∀ i, (owned (destroy (s.workers i))).count x + ((s.workers i).m_tcpSessions.flatMap Session.closes).count x +
      ((s.workers i).channel.ctx.m_queue ++ unseen (s.workers i)).count x = (owned (s.workers i)).count x := by
    intro i
    have closing := sessions_closes (s.workers i).m_tcpSessions x
    simp only [owned,inChannel,destroy,unseen,List.count_append,List.map_nil,List.count_nil] at closing ⊢
    omega
  have total := Finset.sum_congr (rfl : (Finset.univ : Finset (Fin T)) = Finset.univ) fun i _ => parts i
  simp only [Finset.sum_add_distrib] at total
  simp only [clear,if_neg unused,held,discarded,List.count_append,count_everywhere]
  simp only [List.count_append] at total
  omega

theorem over_empty (valid : Valid s) (stopped : s.stopped = true) (past : Past s.main) (all : ∀ i, Passed s.main i) :
    ¬InUse s ∧ ∀ i, owned (s.workers i) = [] := by
  obtain ⟨gone,idle⟩ := valid.finished stopped past all
  constructor
  · rintro (⟨i,using_⟩ | dispatching)
    · exact using_ (idle i).1
    · rw [gone] at dispatching
      cases dispatching
  · intro i
    obtain ⟨_,free,queue,sessions⟩ := idle i
    simp [owned,inChannel,inAdding,free,queue,sessions]

theorem clear_exact (valid : Valid s) (accounted : Accounted s) (standing : s.main = .next n) (finished : T ≤ n) :
    Accounted (clear s) ↔ Meets host s .clear := by
  have quiet : s.stopped = true → ¬InUse s ∧ ∀ i, (s.workers i).channel.ctx.m_queue = [] ∧ Seen (s.workers i) := by
    intro stopped
    have past : Past s.main := by rw [standing]; trivial
    have all : ∀ i, Passed s.main i := by
      intro i
      rw [standing]
      exact Nat.lt_of_lt_of_le i.isLt finished
    obtain ⟨unused,empty⟩ := over_empty valid stopped past all
    refine ⟨unused,fun i => ?_⟩
    have nothing := empty i
    simp only [owned,inChannel,List.append_eq_nil_iff,List.map_eq_nil_iff] at nothing
    obtain ⟨⟨_,queue⟩,sessions⟩ := nothing
    refine ⟨queue,fun session member => ?_⟩
    rw [sessions] at member
    cases member
  have meets : Meets host s .clear ↔ ¬InUse s ∧ ∀ i, (s.workers i).channel.ctx.m_queue = [] ∧ Seen (s.workers i) := by
    constructor
    · intro met
      cases ended : s.stopped with
      | true => exact quiet ended
      | false => exact met ended
    · exact fun idle _ => idle
  rw [meets]
  by_cases used : InUse s
  · rw [← meets,clear,if_pos used]
    exact fail_exact fun met => (meets.mp met).1 used
  · have fault : (clear s).fault = false := by
      simp only [clear,if_neg used]
      exact accounted.1
    have accepted : (clear s).accepted = s.accepted := by simp only [clear,if_neg used]
    rw [balance_exact _ accounted fault accepted (clear_balance used),discarded_exact]
    exact (and_iff_right used).symm

def Closed (s : State F T) : Prop :=
  s.main = .returned → s.stopped = true → ∀ fd < s.accepted, s.closed.count fd = 1

theorem accounted_closed (valid : Valid s) (accounted : Accounted s) : Closed s := by
  intro returned stopped fd known
  have past : Past s.main := by rw [returned]; trivial
  have all : ∀ i, Passed s.main i := by
    intro i
    rw [returned]
    trivial
  have gone := valid.listener stopped past
  obtain ⟨_,empty⟩ := over_empty valid stopped past all
  have place := accounted.2 fd
  simpa [held,gone,inCall,empty,known] using place

variable [MembershipFilter F]

theorem act_exact (valid : Valid s) (accounted : Accounted s) (acted : act host s move = some next) :
    Accounted next ↔ Meets host s move := by
  cases move with
  | run i =>
    obtain ⟨_,rfl⟩ := act_run.mp acted
    exact put_kept accounted s.main rfl trivial
  | listen =>
    obtain ⟨starting,rfl⟩ := act_listen.mp acted
    refine kept_exact accounted accounted.1 rfl (fun x => ?_) trivial
    simp [held,inCall,starting]
  | accept =>
    obtain ⟨idle,_,rfl⟩ := act_accept.mp acted
    refine ⟨fun _ => trivial,fun _ => ⟨accounted.1,fun x => ?_⟩⟩
    have before := accounted.2 x
    simp only [held,idle,inCall,List.count_nil,List.count_cons,beq_iff_eq] at before ⊢
    split_ifs at before ⊢ <;> omega
  | nonblock =>
    obtain ⟨fd,accepted,rfl⟩ := act_nonblock.mp acted
    refine kept_exact accounted accounted.1 rfl (fun x => ?_) trivial
    simp [held,inCall,accepted]
  | nonblockFails =>
    obtain ⟨fd,accepted,rfl⟩ := act_nonblockFails.mp acted
    have leaked : Accounted {s with listener := .idle} ↔ [fd] = [] := by
      refine balance_exact [fd] accounted accounted.1 rfl fun x => ?_
      simp only [held,inCall,accepted,List.count_nil]
      omega
    exact leaked.trans ⟨nofun,False.elim⟩
  | dispatch =>
    obtain ⟨fd,dispatching,rfl⟩ := act_dispatch.mp acted
    by_cases workers : 0 < T ∧ s.main ≠ .returned
    · have sent : loadbalanceFd s fd = {s with
          m_index := (s.m_index + 1) % 2^32 % T
          listener := .calling ⟨(s.m_index + 1) % 2^32 % T,Nat.mod_lt _ workers.1⟩ fd} := dif_pos workers
      rw [sent]
      refine kept_exact accounted accounted.1 rfl (fun x => ?_) workers
      simp [held,inCall,dispatching]
    · rw [loadbalanceFd,dif_neg workers]
      exact fail_exact workers
  | channel i move =>
    obtain ⟨runs,⟨⟨same,down⟩,rfl⟩ | ⟨written,later,effect,stepped,rfl⟩⟩ := act_channel.mp acted
    · subst same
      exact fail_exact (by simp [Meets,down])
    · rw [channel_exact accounted runs stepped]
      exact dropped_exact written stepped
  | data i fd reads =>
    obtain ⟨_,sized,session,found,rfl⟩ := act_data.mp acted
    have member := List.mem_of_find?_eq_some found
    have meets : Meets host s (.data i fd reads) ↔ Overrun.Fits host.order session.flow (Overrun.taken NUM_READ_TRY reads) := by
      simp [Meets,Fitting,found]
    have fits : (s.workers i).data host session reads = none ↔ _ := Worker.data_fits ((valid.workers i).flows session member) sized
    cases ran : (s.workers i).data host session reads with
    | none => exact fail_exact fun met => fits.mp ran (meets.mp met)
    | some changed =>
      refine kept_exact accounted accounted.1 rfl (fun x => ?_) (meets.mpr ?_)
      · have here := data_balance member ran x
        have placed := put_balance s i changed x
        simp only [Option.elim_some]
        omega
      · by_contra past
        rw [fits.mpr past] at ran
        cases ran
  | advance i =>
    obtain ⟨fd,here,result,busy,moved,rfl⟩ := act_advance.mp acted
    have meets : Meets host s (.advance i) ↔ (Handlers.looksUp here = true → s.shared.dictionary.Built) := by
      simp only [Meets,busy,Serving.handling.injEq]
      exact ⟨fun met => met fd here ⟨rfl,rfl⟩,fun met _ _ same => same.2 ▸ met⟩
    have runs := Handlers.advance_ok moved
    cases result with
    | error fault =>
      refine fail_exact fun met => ?_
      obtain ⟨_,_,same⟩ := runs.mpr (meets.mp met)
      cases same
    | ok reached =>
      refine kept_exact accounted accounted.1 rfl (fun x => ?_) (meets.mpr (runs.mp ⟨_,_,rfl⟩))
      have placed := put_balance {s with shared := reached.2} i ((s.workers i).resume host.pb fd reached.1,[]) x
      simp only [held,resume_owned,List.count_nil] at placed ⊢
      exact Nat.add_right_cancel placed
  | write i result =>
    obtain ⟨fd,left,rest,_,_,rfl⟩ := act_write.mp acted
    exact put_kept accounted s.main rfl trivial
  | exit i =>
    obtain ⟨_,_,ctx,left,rfl⟩ := act_exit.mp acted
    obtain ⟨_,rfl⟩ := Context.leave_exact.mp left
    exact put_kept accounted s.main rfl trivial
  | listenerReads =>
    obtain ⟨_,_,rfl⟩ := act_listenerReads.mp acted
    exact kept_exact accounted accounted.1 rfl (fun _ => rfl) trivial
  | listenerExits =>
    obtain ⟨idle,_,rfl⟩ := act_listenerExits.mp acted
    refine kept_exact accounted accounted.1 rfl (fun x => ?_) trivial
    simp [held,inCall,idle]
  | setFlag =>
    obtain ⟨_,rfl⟩ := act_setFlag.mp acted
    exact kept_exact accounted accounted.1 rfl (fun _ => rfl) trivial
  | buildFilter =>
    obtain ⟨_,rfl⟩ := act_buildFilter.mp acted
    exact kept_exact accounted accounted.1 rfl (fun _ => rfl) trivial
  | halt =>
    rcases act_halt.mp acted with ⟨_,rfl⟩ | ⟨i,_,rfl⟩
    · exact kept_exact accounted accounted.1 rfl (fun _ => rfl) trivial
    · exact put_kept accounted (.halting i) rfl trivial
  | tell =>
    rcases act_tell.mp acted with ⟨standing,⟨starting,rfl⟩ | ⟨up,rfl⟩⟩ | ⟨i,standing,⟨down,rfl⟩ | ⟨up,ctx,written,rfl⟩⟩
    · exact fail_exact fun met => met.1 standing starting
    · exact kept_exact accounted accounted.1 rfl (fun _ => rfl) ⟨fun _ => up,fun i halting => by simp [standing] at halting⟩
    · exact fail_exact fun met => by simp [met.2 i standing] at down
    · obtain ⟨_,rfl⟩ := Context.write_exact.mp written
      refine put_kept accounted (.awaiting i) rfl ⟨fun halting => by simp [standing] at halting,fun j halting => ?_⟩
      rw [standing] at halting
      cases halting
      exact up
  | tellFails =>
    rcases act_tellFails.mp acted with ⟨_,rfl⟩ | ⟨i,_,rfl⟩
    all_goals exact kept_exact accounted accounted.1 rfl (fun _ => rfl) trivial
  | awake =>
    rcases act_awake.mp acted with ⟨_,_,rfl⟩ | ⟨i,_,_,rfl⟩
    all_goals exact kept_exact accounted accounted.1 rfl (fun _ => rfl) trivial
  | clear =>
    obtain ⟨n,standing,finished,rfl⟩ := act_clear.mp acted
    exact clear_exact valid accounted standing finished

theorem accounting_exact (path : (server F T host).run (server F T host).start events = some last) :
    (∀ t, (server F T host).Visits (server F T host).start events t → Accounted t ∧ Closed t) ↔
    ∀ t move, (server F T host).Takes (server F T host).start events t move → Meets host t move := by
  have start : Accounted (server F T host).start := by
    refine ⟨rfl,fun x => ?_⟩
    simp [server,held,inCall,owned,inChannel,inAdding,Worker.new,Channel.new,Context.new]
  have kept : ∀ (s : State F T) move next, Valid s → Accounted s ∧ Closed s → (server F T host).step s move = some next → Valid next :=
    fun _ _ _ valid _ stepped => act_valid valid (server_step.mp stepped).2
  refine (server F T host).throughout_exact kept ?_ start_valid ⟨start,accounted_closed start_valid start⟩
    ((server F T host).run_exact.mp path)
  intro s move next valid good stepped
  have acted := (server_step.mp stepped).2
  rw [← act_exact valid good.1 acted]
  exact ⟨And.left,fun again => ⟨again,accounted_closed (act_valid valid acted) again⟩⟩

-- A client connects and says nothing, before a shutdown whose every stop() succeeds.
def connect : List (Move 1) :=
  [.run 0,.listen,.setFlag,.buildFilter,.accept,.nonblock,.dispatch] ++
    ([.call 0,.write,.push,.read,.lock,.process,.unlock] : List Handoff.Move).map (.channel 0)

def shut : List (Move 1) :=
  [.halt,.tell,.listenerReads,.listenerExits,.awake,.halt,.tell,.channel 0 .read,.exit 0,.awake,.clear]

def silent : List (Move 1) := connect ++ shut

def served : List (Move 1) := connect ++
  [.data 0 0 [.got [5,0,0,0,8,1,18,1,107]],.advance 0,.advance 0,.advance 0,.write 0 (.failed .EAGAIN),.write 0 (.wrote 17),
    .data 0 0 [.got []]] ++ shut

theorem accounting_exact_served :
    (∀ t, (solo true 1).Visits (solo true 1).start served t → Accounted t ∧ Closed t) ↔
    ∀ t move, (solo true 1).Takes (solo true 1).start served t move → Meets ⟨.little,Codec.codec,true,1⟩ t move :=
  accounting_exact (show (solo true 1).run (solo true 1).start served = some _ from rfl)

theorem silent_leaked : ∃ last, (solo true 1).run (solo true 1).start silent = some last ∧
    last.main = .returned ∧ last.stopped = true ∧ last.fault = false ∧ 0 < last.accepted ∧ held last 0 = 0 :=
  ⟨_,rfl,rfl,rfl,rfl,by decide,by decide⟩

end RemoteDict.Accounting
