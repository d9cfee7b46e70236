import RemoteDict.Foundation.Potential
import RemoteDict.Accounting

namespace RemoteDict.Progress
open Foundation Handoff Server Shutdown TcpFlow
open Foundation.Block (Byte)
open Accounting (inCall inChannel)

variable {F : Type} {T : Nat} {host : Host} {s next last : State F T} {w : Worker}

-- What the server does by itself. The rest is up to the clients, who connect, send
-- and take what is written to them, to the system that wakes a thread for nothing,
-- and to a stop() that cannot write.
def own : Server.Move T → Bool
  | .accept | .data _ _ _ | .write _ _ | .channel _ .spurious | .tellFails => false
  | .run _ | .listen | .nonblock | .nonblockFails | .dispatch | .channel _ _ | .advance _ | .exit _ | .listenerReads |
    .listenerExits | .setFlag | .buildFilter | .halt | .tell | .awake | .clear => true

-- The part of the listener and of the workers.
def works : Server.Move T → Bool
  | .accept | .data _ _ _ | .write _ _ | .channel _ .spurious | .setFlag | .buildFilter | .halt | .tell | .tellFails | .awake |
    .clear => false
  | .run _ | .listen | .nonblock | .nonblockFails | .dispatch | .channel _ _ | .advance _ | .exit _ | .listenerReads |
    .listenerExits => true

def accepts : Server.Move T → Bool
  | .accept => true
  | _ => false

def callbacks : Server.Move T → Bool
  | .data _ _ _ => true
  | _ => false

-- How many moves are due at most, one place of the state at a time. A byte in
-- the socketpair is read, and leads to a lock and an unlock.
def placeDue : Place → Nat
  | .left => 0
  | .idle => 1
  | .draining => 2
  | .woken => 3

def addingDue : Option Adding → Nat
  | none => 0
  | some (.wrote _) | some (.refusing _) => 1
  | some (.locked _) => 5

def channelDue (ch : Channel) : Nat :=
  placeDue ch.ctx.place + 3 * ch.ctx.sockets.length + ch.ctx.m_queue.length + addingDue ch.adding

def servingDue : Serving → Nat
  | .handling _ here => Handlers.steps here
  | .idle | .writing _ _ => 0

def workerDue (w : Worker) : Nat := (!w.ready).toNat + channelDue w.channel + servingDue w.serving

def listenerDue : Accepting T → Nat
  | .left => 0
  | .idle => 1
  | .starting | .adding _ => 2
  | .calling _ _ => 8
  | .nonblocking _ => 9
  | .accepted _ => 10

def mainDue : Main T → Nat
  | .listening => 6 * T + 7
  | .flagged => 6 * T + 6
  | .running => 6 * T + 5
  | .haltingListener => 6 * T + 4
  | .awaitingListener => 6 * T + 2
  | .next n => 6 * (T - n) + 1
  | .halting i => 6 * (T - i)
  | .awaiting i => 6 * (T - i) - 4
  | .returned => 0

def due (s : State F T) : Nat :=
  (!s.fault).toNat + listenerDue s.listener + s.listenerTold.toNat + mainDue s.main +
    Potential.total workerDue s.workers

theorem due_put (m : State F T) (i : Fin T) (changed : Worker × List Nat) (before : workerDue (m.workers i) = n)
    (after : workerDue changed.1 = k) : due (put m i changed) + n = due m + k := by
  have total := Potential.total_update workerDue m.workers i changed.1
  subst before after
  simp only [due,put]
  omega

theorem due_kept (m : State F T) (i : Fin T) (changed : Worker × List Nat) (same : workerDue changed.1 = workerDue (m.workers i)) :
    due (put m i changed) = due m := Nat.add_right_cancel (due_put m i changed rfl same)

theorem due_fail (clear : s.fault = false) : due (fail s) + 1 = due s := by
  simp only [due,fail,clear,Bool.not_true,Bool.not_false,Bool.toNat_true,Bool.toNat_false]
  omega

theorem settle_due (w : Worker) (channel : Channel) (effect : Effect) :
    workerDue (w.settle channel effect).1 = (!w.ready).toNat + channelDue channel + servingDue w.serving := by
  cases effect with
  | processed fd =>
    simp only [Worker.settle,Worker.processEvent]
    split <;> rfl
  | _ => rfl

theorem channel_due {ch later : Channel} (stepped : ch.step capacity move = some (later,effect)) (runs : Runs s i move) :
    channelDue later + listenerDue (afterMove s i move) + (own (.channel i move)).toNat ≤
      channelDue ch + listenerDue s.listener := by
  cases move with
  | call fd =>
    obtain ⟨free,_,rfl,_⟩ := Channel.step_call.mp stepped
    rw [show s.listener = .calling i fd from runs]
    simp only [channelDue,free,addingDue,afterMove,listenerDue,own,Bool.toNat_true]
    omega
  | write =>
    obtain ⟨fd,ctx,locked,written,rfl,_⟩ := Channel.step_write.mp stepped
    obtain ⟨_,rfl⟩ := Context.write_exact.mp written
    simp only [channelDue,locked,addingDue,afterMove,own,List.length_append,List.length_singleton,Bool.toNat_true]
    omega
  | writeFails =>
    obtain ⟨fd,locked,rfl,_⟩ := Channel.step_writeFails.mp stepped
    simp only [channelDue,locked,addingDue,afterMove,own,Bool.toNat_true]
    omega
  | push =>
    obtain ⟨fd,wrote,rfl,_⟩ := Channel.step_push.mp stepped
    rw [show s.listener = .adding i from runs]
    simp only [channelDue,wrote,addingDue,afterMove,listenerDue,own,Context.push_back,List.length_append,List.length_singleton,
      Bool.toNat_true]
    omega
  | refuse =>
    obtain ⟨fd,refusing,rfl,_⟩ := Channel.step_refuse.mp stepped
    rw [show s.listener = .adding i from runs]
    simp only [channelDue,refusing,addingDue,afterMove,listenerDue,own,Bool.toNat_true]
    omega
  | read =>
    obtain ⟨signal,ctx,got,rfl,_⟩ := Channel.step_read.mp stepped
    obtain ⟨idle,rest,bytes,rfl⟩ := Context.read_exact.mp got
    have place : placeDue (if signal = .c then .woken else .idle) ≤ 3 := by cases signal <;> decide
    simp only [channelDue,idle,bytes,afterMove,own,List.length_cons,Bool.toNat_true,placeDue.eq_2]
    omega
  | spurious =>
    cases stepped
    exact Nat.le_refl _
  | lock =>
    obtain ⟨ctx,_,locked,rfl,_⟩ := Channel.step_lock.mp stepped
    obtain ⟨woken,rfl⟩ := Context.lock_exact.mp locked
    simp only [channelDue,woken,placeDue,afterMove,own,Bool.toNat_true]
    omega
  | process =>
    obtain ⟨fd,ctx,popped,rfl,_⟩ := Channel.step_process.mp stepped
    obtain ⟨_,rest,queue,rfl⟩ := Context.pop_front_exact.mp popped
    simp only [channelDue,queue,afterMove,own,List.length_cons,Bool.toNat_true]
    omega
  | unlock =>
    obtain ⟨ctx,unlocked,rfl,_⟩ := Channel.step_unlock.mp stepped
    obtain ⟨draining,_,rfl⟩ := Context.unlock_exact.mp unlocked
    simp only [channelDue,draining,placeDue,afterMove,own,Bool.toNat_true]
    omega

theorem clear_due (clear' : s.fault = false) (standing : s.main = .next n) : due (clear s) + 1 ≤ due s := by
  unfold clear
  split
  · exact (due_fail clear').le
  · have fewer : Potential.total workerDue (fun i => destroy (s.workers i)) ≤ Potential.total workerDue s.workers := by
      refine Potential.total_le _ fun i => ?_
      simp only [workerDue,destroy,channelDue,List.length_nil]
      omega
    simp only [due,standing,mainDue]
    omega

theorem change_due (w : Worker) (fd : Nat) (after : Session → Session) (serving : Serving) :
    workerDue {w.change fd after with serving := serving} + servingDue w.serving = workerDue w + servingDue serving := by
  simp only [workerDue,Worker.change]
  omega

theorem data_due {session : Session} (resting : w.serving = .idle) (ran : w.data host session reads = some changed) :
    workerDue changed.1 ≤ workerDue w + 4 := by
  unfold Worker.data at ran
  split at ran
  · cases ran
  · cases ran
    exact Nat.le_add_right _ _
  · cases ran
    exact Nat.le_add_right _ _
  · rename_i flow type m _
    cases ran
    have changed := change_due w session.fd (fun _ => .kept session.fd flow) (.handling session.fd (.ready type m))
    simp only [resting,servingDue,Handlers.steps] at changed
    dsimp only
    omega

theorem send_due (w : Worker) (fd : Nat) (left : List Byte) : workerDue (w.send fd left) + servingDue w.serving = workerDue w := by
  have nothing : servingDue (w.send fd left).serving = 0 := by
    unfold Worker.send
    dsimp only
    split <;> rfl
  rw [workerDue,nothing]
  simp only [Worker.send,workerDue]
  omega

theorem resume_due (pb : Protobuf) (w : Worker) (fd : Nat) (here : Handlers.Local) :
    workerDue (w.resume pb fd here) + servingDue w.serving ≤ workerDue w + Handlers.steps here := by
  cases here with
  | done m =>
    have sent := send_due (w.change fd (·.respond m)) fd (sendResponse pb m)
    have same : workerDue (w.change fd (·.respond m)) = workerDue w := rfl
    rw [same] at sent
    exact Nat.le_add_right_of_le sent.le
  | _ =>
    simp only [Worker.resume,workerDue,servingDue,Handlers.steps]
    omega

section
variable [MembershipFilter F]

-- One move: it is paid for. A connection brings at most nine more, and a request
-- at most four.
theorem act_due (clear : s.fault = false) (acted : act host s move = some next) :
    due next + (own move).toNat ≤ due s + (9 * (accepts move).toNat + 4 * (callbacks move).toNat) := by
  cases move with
  | run i =>
    obtain ⟨down,rfl⟩ := act_run.mp acted
    have total := due_put s i ({s.workers i with ready := true},[]) rfl rfl
    simp only [workerDue,down,Bool.not_true,Bool.not_false,Bool.toNat_true,Bool.toNat_false] at total
    simp only [own,Bool.toNat_true]
    omega
  | listen =>
    obtain ⟨starting,rfl⟩ := act_listen.mp acted
    simp only [due,starting,listenerDue,own,Bool.toNat_true]
    omega
  | accept =>
    obtain ⟨idle,_,rfl⟩ := act_accept.mp acted
    simp only [due,idle,listenerDue,own,accepts,Bool.toNat_true,Bool.toNat_false]
    omega
  | nonblock =>
    obtain ⟨fd,accepted,rfl⟩ := act_nonblock.mp acted
    simp only [due,accepted,listenerDue,own,Bool.toNat_true]
    omega
  | nonblockFails =>
    obtain ⟨fd,accepted,rfl⟩ := act_nonblockFails.mp acted
    simp only [due,accepted,listenerDue,own,Bool.toNat_true]
    omega
  | dispatch =>
    obtain ⟨fd,dispatching,rfl⟩ := act_dispatch.mp acted
    unfold loadbalanceFd
    split
    · simp only [due,dispatching,listenerDue,own,Bool.toNat_true]
      omega
    · exact (due_fail clear).le
  | channel i move =>
    obtain ⟨runs,⟨refused,rfl⟩ | ⟨_,later,effect,stepped,rfl⟩⟩ := act_channel.mp acted
    · obtain ⟨rfl,_⟩ := refused
      exact (due_fail clear).le
    · have moved := channel_due stepped runs
      have total := due_put {s with listener := afterMove s i move} i ((s.workers i).settle later effect)
        (show workerDue (s.workers i) = _ from rfl) (settle_due _ _ _)
      simp only [workerDue] at total
      have turned : due {s with listener := afterMove s i move} + listenerDue s.listener =
          due s + listenerDue (afterMove s i move) := by
        simp only [due]
        omega
      simp only [accepts,Bool.toNat_false]
      omega
  | data i fd reads =>
    obtain ⟨looping,_,session,_,rfl⟩ := act_data.mp acted
    cases ran : (s.workers i).data host session reads with
    | none =>
      have failed := due_fail clear
      simp only [Option.elim_none,own,Bool.toNat_false]
      omega
    | some changed =>
      have brought := data_due looping.2 ran
      have total := due_put s i changed rfl rfl
      simp only [Option.elim_some,own,callbacks,Bool.toNat_true,Bool.toNat_false]
      omega
  | advance i =>
    obtain ⟨fd,here,result,busy,moved,rfl⟩ := act_advance.mp acted
    cases result with
    | error fault => exact (due_fail clear).le
    | ok reached =>
      have fewer := Handlers.steps_advance moved
      have resumed := resume_due host.pb (s.workers i) fd reached.1
      rw [busy,servingDue] at resumed
      have total : due (proceed host s i fd (.ok reached)) + workerDue (s.workers i) =
          due s + workerDue ((s.workers i).resume host.pb fd reached.1) := due_put {s with shared := reached.2} i _ rfl rfl
      simp only [own,Bool.toNat_true]
      omega
  | write i result =>
    obtain ⟨fd,left,rest,busy,_,rfl⟩ := act_write.mp acted
    have sent := send_due (s.workers i) fd rest
    rw [busy,servingDue] at sent
    rw [due_kept _ _ _ sent]
    exact Nat.le_refl _
  | exit i =>
    obtain ⟨_,_,ctx,left,rfl⟩ := act_exit.mp acted
    obtain ⟨idle,rfl⟩ := Context.leave_exact.mp left
    have total := due_put s i ({s.workers i with channel := {(s.workers i).channel with ctx :=
      {(s.workers i).channel.ctx with place := .left}}},[]) rfl rfl
    simp only [workerDue,channelDue,idle,placeDue] at total
    simp only [own,Bool.toNat_true]
    omega
  | listenerReads =>
    obtain ⟨_,told,rfl⟩ := act_listenerReads.mp acted
    simp only [due,told,own,Bool.toNat_true,Bool.toNat_false]
    omega
  | listenerExits =>
    obtain ⟨idle,_,rfl⟩ := act_listenerExits.mp acted
    simp only [due,idle,listenerDue,own,Bool.toNat_true]
    omega
  | setFlag =>
    obtain ⟨standing,rfl⟩ := act_setFlag.mp acted
    have less : mainDue (if host.m_bloomFilterEnable then .flagged else .running : Main T) + 1 ≤ mainDue s.main := by
      rw [standing]
      split <;> simp [mainDue]
    simp only [due,own,Bool.toNat_true]
    omega
  | buildFilter =>
    obtain ⟨standing,rfl⟩ := act_buildFilter.mp acted
    simp only [due,standing,mainDue,own,Bool.toNat_true]
    omega
  | halt =>
    rcases act_halt.mp acted with ⟨standing,rfl⟩ | ⟨i,standing,rfl⟩
    · simp only [due,standing,mainDue,own,Bool.toNat_true]
      omega
    · have turned : due {s with main := .halting i} + 1 = due s := by
        simp only [due,standing,mainDue]
        omega
      rw [due_kept _ _ _ rfl]
      exact turned.le
  | tell =>
    rcases act_tell.mp acted with ⟨standing,⟨_,rfl⟩ | ⟨_,rfl⟩⟩ | ⟨i,standing,⟨_,rfl⟩ | ⟨_,ctx,written,rfl⟩⟩
    · exact (due_fail clear).le
    · have most := Bool.toNat_le s.listenerTold
      simp only [due,standing,mainDue,own,Bool.toNat_true]
      omega
    · exact (due_fail clear).le
    · obtain ⟨_,rfl⟩ := Context.write_exact.mp written
      have total := due_put {s with main := .awaiting i} i ({s.workers i with channel := {(s.workers i).channel with ctx :=
        {(s.workers i).channel.ctx with sockets := (s.workers i).channel.ctx.sockets ++ [.e]}}},[]) rfl rfl
      have turned : due {s with main := .awaiting i} + 4 = due s := by
        have more := i.isLt
        simp only [due,standing,mainDue]
        omega
      simp only [workerDue,channelDue,List.length_append,List.length_singleton] at total
      simp only [own,Bool.toNat_true]
      omega
  | tellFails =>
    rcases act_tellFails.mp acted with ⟨standing,rfl⟩ | ⟨i,standing,rfl⟩
    · simp only [due,standing,mainDue,own,Bool.toNat_false]
      omega
    · have more := i.isLt
      simp only [due,standing,mainDue,own,Bool.toNat_false]
      omega
  | awake =>
    rcases act_awake.mp acted with ⟨standing,_,rfl⟩ | ⟨i,standing,_,rfl⟩
    · simp only [due,standing,mainDue,own,Bool.toNat_true]
      omega
    · have more := i.isLt
      simp only [due,standing,mainDue,own,Bool.toNat_true]
      omega
  | clear =>
    obtain ⟨n,standing,_,rfl⟩ := act_clear.mp acted
    exact clear_due clear standing

theorem server_paid : (server F T host).Paid (fun s n => due s = n) (fun move => 1 * (own move).toNat)
    (fun move => 9 * (accepts move).toNat + 4 * (callbacks move).toNat) := by
  rintro s n move next rfl stepped
  obtain ⟨clear,acted⟩ := server_step.mp stepped
  refine ⟨due next,rfl,?_⟩
  simp only [Nat.one_mul]
  exact act_due clear acted

theorem start_due : due (server F T host).start = 8 * T + 10 := by
  have each : Potential.total workerDue (server F T host).start.workers = T * 2 :=
    (Potential.total_same workerDue Worker.new).trans (by rw [Fintype.card_fin]; rfl)
  rw [due,each]
  simp only [server,mainDue,listenerDue,Bool.not_false,Bool.toNat_true,Bool.toNat_false]
  omega

end

-- A worker that has been told to leave.
def Ending (w : Worker) : Prop := .e ∈ w.channel.ctx.sockets ∨ w.leaving = true

-- Who waits is waited for: the call that holds a worker's mutex is the listener's,
-- and the thread whose end is awaited has been told to.
structure Live (s : State F T) : Prop where
  adding : ∀ i, s.listener = .adding i → (s.workers i).channel.adding ≠ none
  listener : s.main = .awaitingListener → s.listener ≠ .left → s.listenerTold = true ∨ s.listenerLeaving = true
  worker : ∀ i, s.main = .awaiting i → Ending (s.workers i)

theorem channel_ending (told : Ending w) {later : Channel} (stepped : w.channel.step capacity move = some (later,effect)) :
    Ending (w.settle later effect).1 := by
  cases move with
  | call fd =>
    obtain ⟨_,_,rfl,rfl⟩ := Channel.step_call.mp stepped
    exact told
  | write =>
    obtain ⟨fd,ctx,_,written,rfl,rfl⟩ := Channel.step_write.mp stepped
    obtain ⟨_,rfl⟩ := Context.write_exact.mp written
    exact told.imp_left (List.mem_append_left _)
  | writeFails =>
    obtain ⟨fd,_,rfl,rfl⟩ := Channel.step_writeFails.mp stepped
    exact told
  | push =>
    obtain ⟨fd,_,rfl,rfl⟩ := Channel.step_push.mp stepped
    exact told
  | refuse =>
    obtain ⟨fd,_,rfl,rfl⟩ := Channel.step_refuse.mp stepped
    exact told
  | read =>
    obtain ⟨signal,ctx,got,rfl,rfl⟩ := Channel.step_read.mp stepped
    obtain ⟨_,rest,bytes,rfl⟩ := Context.read_exact.mp got
    cases signal with
    | c =>
      rw [Ending,bytes] at told
      have later : .e ∈ rest ∨ w.leaving = true := told.imp_left (List.mem_of_ne_of_mem (by decide))
      exact later
    | e => exact .inr rfl
  | spurious =>
    cases stepped
    exact told
  | lock =>
    obtain ⟨ctx,_,locked,rfl,rfl⟩ := Channel.step_lock.mp stepped
    obtain ⟨_,rfl⟩ := Context.lock_exact.mp locked
    exact told
  | process =>
    obtain ⟨fd,ctx,popped,rfl,rfl⟩ := Channel.step_process.mp stepped
    obtain ⟨_,rest,_,rfl⟩ := Context.pop_front_exact.mp popped
    simp only [Worker.settle,Worker.processEvent]
    split <;> exact told
  | unlock =>
    obtain ⟨ctx,unlocked,rfl,rfl⟩ := Channel.step_unlock.mp stepped
    obtain ⟨_,_,rfl⟩ := Context.unlock_exact.mp unlocked
    exact told

theorem put_live {m : State F T} {changed : Worker × List Nat}
    (listener : m.main = .awaitingListener → m.listener ≠ .left → m.listenerTold = true ∨ m.listenerLeaving = true)
    (adding : m.listener = .adding i → changed.1.channel.adding ≠ none) (worker : m.main = .awaiting i → Ending changed.1)
    (others : ∀ j, j ≠ i → (m.listener = .adding j → (m.workers j).channel.adding ≠ none) ∧
      (m.main = .awaiting j → Ending (m.workers j))) : Live (put m i changed) := by
  refine ⟨fun j => ?_,listener,fun j => ?_⟩
  all_goals
    by_cases same : j = i
    · subst same
      simp only [put,Function.update_self]
      assumption
    · simp only [put,Function.update_of_ne same]
      first | exact (others j same).1 | exact (others j same).2

theorem Live.listening (live : Live s) (free : ∀ i, next.listener ≠ .adding i) (main : next.main = s.main)
    (workers : next.workers = s.workers) (running : s.listener ≠ .left) (told : next.listenerTold = s.listenerTold)
    (leaving : next.listenerLeaving = s.listenerLeaving) : Live next := by
  constructor
  · exact fun i added => absurd added (free i)
  · rw [main,told,leaving]
    exact fun awaiting _ => live.listener awaiting running
  · rw [main,workers]
    exact live.worker

theorem settle_channel (w : Worker) (channel : Channel) (effect : Effect) : (w.settle channel effect).1.channel = channel := by
  cases effect with
  | processed fd =>
    simp only [Worker.settle,Worker.processEvent]
    split <;> rfl
  | _ => rfl

theorem adding_kept {ch later : Channel} (stepped : ch.step capacity move = some (later,effect))
    (live : s.listener = .adding i → ch.adding ≠ none) (added : afterMove s i move = .adding i) : later.adding ≠ none := by
  cases move with
  | call fd =>
    obtain ⟨_,_,rfl,_⟩ := Channel.step_call.mp stepped
    exact Option.some_ne_none _
  | write =>
    obtain ⟨fd,ctx,_,_,rfl,_⟩ := Channel.step_write.mp stepped
    exact Option.some_ne_none _
  | writeFails =>
    obtain ⟨fd,_,rfl,_⟩ := Channel.step_writeFails.mp stepped
    exact Option.some_ne_none _
  | push | refuse => cases added
  | read =>
    obtain ⟨signal,ctx,_,rfl,_⟩ := Channel.step_read.mp stepped
    exact live added
  | spurious =>
    cases stepped
    exact live added
  | lock =>
    obtain ⟨ctx,_,_,rfl,_⟩ := Channel.step_lock.mp stepped
    exact live added
  | process =>
    obtain ⟨fd,ctx,_,rfl,_⟩ := Channel.step_process.mp stepped
    exact live added
  | unlock =>
    obtain ⟨ctx,_,rfl,_⟩ := Channel.step_unlock.mp stepped
    exact live added

theorem afterMove_left (runs : Runs s i move) (gone : s.listener = .left) : afterMove s i move = .left := by
  cases move with
  | call fd => exact absurd (gone.symm.trans (show s.listener = .calling i fd from runs)) nofun
  | push | refuse => exact absurd (gone.symm.trans (show s.listener = .adding i from runs)) nofun
  | _ => exact gone

theorem afterMove_other (runs : Runs s i move) (other : j ≠ i) (added : afterMove s i move = .adding j) :
    s.listener = .adding j := by
  cases move with
  | call fd =>
    cases added
    exact absurd rfl other
  | push | refuse => cases added
  | _ => exact added

theorem channel_live (live : Live s) (runs : Runs s i move)
    (stepped : (s.workers i).channel.step capacity move = some (later,effect)) :
    Live (put {s with listener := afterMove s i move} i ((s.workers i).settle later effect)) := by
  refine put_live (fun awaiting here => ?_) (fun added => ?_) (fun awaited => ?_) fun j other => ⟨fun added => ?_,live.worker j⟩
  · exact live.listener awaiting fun gone => here (afterMove_left runs gone)
  · rw [settle_channel]
    exact adding_kept stepped (live.adding i) added
  · exact channel_ending (live.worker i awaited) stepped
  · exact live.adding j (afterMove_other runs other added)

-- start has returned and the threads have come up, and every stop() so far has
-- succeeded.
structure Up (s : State F T) : Prop where
  clear : s.fault = false
  stopped : s.stopped = true
  started : s.main ≠ .listening ∧ s.main ≠ .flagged
  built : s.shared.dictionary.Built
  listener : s.listener ≠ .starting
  workers : ∀ i, (s.workers i).ready = true

theorem put_up {m : State F T} {changed : Worker × List Nat} (up : Up m) (ready : changed.1.ready = (m.workers i).ready) :
    Up (put m i changed) := by
  refine ⟨up.clear,up.stopped,up.started,up.built,up.listener,fun j => ?_⟩
  by_cases same : j = i
  · subst same
    simpa only [put,Function.update_self,ready] using up.workers j
  · simpa only [put,Function.update_of_ne same] using up.workers j

theorem afterMove_up (up : s.listener ≠ .starting) : afterMove s i move ≠ .starting := by
  cases move with
  | call | push | refuse => exact nofun
  | _ => exact up

theorem clear_up (valid : Valid s) (up : Up s) (standing : s.main = .next n) (finished : T ≤ n) : Up (Server.clear s) := by
  have past : Past s.main := by rw [standing]; trivial
  have passed : ∀ i, Passed s.main i := by
    intro i
    rw [standing]
    exact Nat.lt_of_lt_of_le i.isLt finished
  obtain ⟨gone,all⟩ := valid.finished up.stopped past passed
  have unused : ¬InUse s := by
    rintro (⟨i,running⟩ | dispatching)
    · exact running (all i).1
    · rw [gone] at dispatching
      cases dispatching
  rw [Server.clear,if_neg unused]
  exact ⟨up.clear,up.stopped,by simp,up.built,up.listener,up.workers⟩

theorem Valid.free (valid : Valid s) (gone : s.listener = .left) (i : Fin T) : (s.workers i).channel.adding = none := by
  by_contra held
  have adding := (valid.workers i).adding held
  rw [gone] at adding
  cases adding

variable [MembershipFilter F]

theorem act_live (live : Live s) (acted : act host s move = some next) : Live next := by
  cases move with
  | run i =>
    obtain ⟨_,rfl⟩ := act_run.mp acted
    exact put_live live.listener (live.adding i) (live.worker i) fun j _ => ⟨live.adding j,live.worker j⟩
  | listen =>
    obtain ⟨starting,rfl⟩ := act_listen.mp acted
    exact live.listening nofun rfl rfl (by simp [starting]) rfl rfl
  | accept =>
    obtain ⟨idle,_,rfl⟩ := act_accept.mp acted
    exact live.listening nofun rfl rfl (by simp [idle]) rfl rfl
  | nonblock =>
    obtain ⟨fd,accepted,rfl⟩ := act_nonblock.mp acted
    exact live.listening nofun rfl rfl (by simp [accepted]) rfl rfl
  | nonblockFails =>
    obtain ⟨fd,accepted,rfl⟩ := act_nonblockFails.mp acted
    exact live.listening nofun rfl rfl (by simp [accepted]) rfl rfl
  | dispatch =>
    obtain ⟨fd,dispatching,rfl⟩ := act_dispatch.mp acted
    unfold loadbalanceFd
    split
    · exact live.listening nofun rfl rfl (by simp [dispatching]) rfl rfl
    · exact ⟨live.adding,live.listener,live.worker⟩
  | channel i move =>
    obtain ⟨runs,⟨_,rfl⟩ | ⟨_,later,effect,stepped,rfl⟩⟩ := act_channel.mp acted
    · exact ⟨live.adding,live.listener,live.worker⟩
    · exact channel_live live runs stepped
  | data i fd reads | advance i | write i result =>
    obtain rfl | ⟨shared,changed,called,rfl⟩ := act_callback rfl acted
    · exact ⟨live.adding,live.listener,live.worker⟩
    · refine put_live live.listener ?_ ?_ fun j _ => ⟨live.adding j,live.worker j⟩
      · rw [called.channel]
        exact live.adding i
      · rw [Ending,called.channel,called.leaving]
        exact live.worker i
  | exit i =>
    obtain ⟨leaving,_,ctx,left,rfl⟩ := act_exit.mp acted
    obtain ⟨_,rfl⟩ := Context.leave_exact.mp left
    exact put_live live.listener (live.adding i) (fun _ => .inr leaving) fun j _ => ⟨live.adding j,live.worker j⟩
  | listenerReads =>
    obtain ⟨_,_,rfl⟩ := act_listenerReads.mp acted
    exact ⟨live.adding,fun _ _ => .inr rfl,live.worker⟩
  | listenerExits =>
    obtain ⟨_,_,rfl⟩ := act_listenerExits.mp acted
    exact ⟨nofun,fun _ gone => absurd rfl gone,live.worker⟩
  | setFlag =>
    obtain ⟨_,rfl⟩ := act_setFlag.mp acted
    refine ⟨live.adding,fun awaiting => ?_,fun i awaiting => ?_⟩ <;> (split at awaiting <;> cases awaiting)
  | buildFilter =>
    obtain ⟨_,rfl⟩ := act_buildFilter.mp acted
    exact ⟨live.adding,nofun,nofun⟩
  | halt =>
    rcases act_halt.mp acted with ⟨_,rfl⟩ | ⟨i,_,rfl⟩
    · exact ⟨live.adding,nofun,nofun⟩
    · exact put_live nofun (live.adding i) nofun fun j _ => ⟨live.adding j,nofun⟩
  | tell =>
    rcases act_tell.mp acted with ⟨_,⟨_,rfl⟩ | ⟨_,rfl⟩⟩ | ⟨i,_,⟨_,rfl⟩ | ⟨_,ctx,written,rfl⟩⟩
    · exact ⟨live.adding,live.listener,live.worker⟩
    · exact ⟨live.adding,fun _ _ => .inl rfl,nofun⟩
    · exact ⟨live.adding,live.listener,live.worker⟩
    · obtain ⟨_,rfl⟩ := Context.write_exact.mp written
      refine put_live nofun (live.adding i) (fun _ => .inl ?_) fun j other => ⟨live.adding j,fun same => ?_⟩
      · exact List.mem_append_right _ (List.mem_singleton.mpr rfl)
      · cases same
        exact absurd rfl other
  | tellFails =>
    rcases act_tellFails.mp acted with ⟨_,rfl⟩ | ⟨i,_,rfl⟩ <;> exact ⟨live.adding,nofun,nofun⟩
  | awake =>
    rcases act_awake.mp acted with ⟨_,_,rfl⟩ | ⟨i,_,_,rfl⟩ <;> exact ⟨live.adding,nofun,nofun⟩
  | clear =>
    obtain ⟨n,standing,_,rfl⟩ := act_clear.mp acted
    unfold clear
    split
    · exact ⟨live.adding,live.listener,live.worker⟩
    · exact ⟨live.adding,nofun,nofun⟩

theorem start_live : Live (server F T host).start := ⟨nofun,nofun,nofun⟩

-- What is asked of the clients and of the socketpairs: chunks as they were
-- announced, and no stop() that cannot write.
def Agrees (host : Host) (s : State F T) : Server.Move T → Prop
  | .data i fd reads => Fitting host s i fd reads
  | .tellFails => False
  | _ => True

instance (host : Host) (s : State F T) (move : Server.Move T) : Decidable (Agrees host s move) := by
  cases move <;> unfold Agrees <;> infer_instance

theorem advance_built {shared later : Shared F} (built : shared.dictionary.Built)
    (moved : Handlers.advance here shared = some (.ok (there,later))) : later.dictionary.Built := by
  rcases Handlers.advance_dictionary moved with ⟨same,_⟩ | ⟨m,_,stored⟩
  · rw [same]
    exact built
  · obtain ⟨dictionary,ran,kept⟩ := Dictionary.setLocked_built built m.key m.value
    rw [stored] at ran
    cases ran
    exact kept

theorem called_up (valid : Valid s) (up : Up s) (called : callback move = some i) (acted : act host s move = some next)
    (agrees : Agrees host s move) : Up next := by
  cases move with
  | data j fd reads =>
    cases called
    obtain ⟨_,sized,session,found,rfl⟩ := act_data.mp acted
    have member := List.mem_of_find?_eq_some found
    cases ran : (s.workers i).data host session reads with
    | none => exact absurd (agrees session found) ((Worker.data_fits ((valid.workers i).flows session member) sized).mp ran)
    | some changed => exact put_up up (data_called member sized ran).ready
  | advance j =>
    cases called
    obtain ⟨fd,here,result,_,moved,rfl⟩ := act_advance.mp acted
    obtain ⟨there,shared,rfl⟩ := Handlers.advance_runs up.built moved
    exact put_up (m:={s with shared := shared}) {up with built := advance_built up.built moved} (resume_called _ _ fd there).ready
  | write j result =>
    cases called
    obtain ⟨fd,left,rest,_,_,rfl⟩ := act_write.mp acted
    exact put_up up rfl
  | _ => cases called

-- With the threads up nothing goes wrong from there on.
theorem act_up (staffed : 0 < T) (valid : Valid s) (up : Up s) (acted : act host s move = some next)
    (agrees : Agrees host s move) : Up next := by
  cases move with
  | run i =>
    obtain ⟨down,_⟩ := act_run.mp acted
    rw [up.workers i] at down
    cases down
  | listen =>
    obtain ⟨starting,_⟩ := act_listen.mp acted
    exact absurd starting up.listener
  | accept =>
    obtain ⟨_,_,rfl⟩ := act_accept.mp acted
    exact {up with listener := by simp}
  | nonblock =>
    obtain ⟨fd,_,rfl⟩ := act_nonblock.mp acted
    exact {up with listener := by simp}
  | nonblockFails =>
    obtain ⟨fd,_,rfl⟩ := act_nonblockFails.mp acted
    exact {up with listener := by simp}
  | dispatch =>
    obtain ⟨fd,dispatching,rfl⟩ := act_dispatch.mp acted
    have serving : s.main ≠ .returned := by
      intro returned
      have gone := valid.listener up.stopped (by rw [returned]; trivial)
      rw [dispatching] at gone
      cases gone
    rw [loadbalanceFd,dif_pos ⟨staffed,serving⟩]
    exact {up with listener := by simp}
  | channel i move =>
    obtain ⟨_,⟨refused,_⟩ | ⟨_,later,effect,stepped,rfl⟩⟩ := act_channel.mp acted
    · have down := refused.2
      rw [up.workers i] at down
      cases down
    · exact put_up (m:={s with listener := afterMove s i move}) {up with listener := afterMove_up up.listener} (Worker.settle_ready _ _ _)
  | data i fd reads | advance i | write i result => exact called_up valid up rfl acted agrees
  | exit i =>
    obtain ⟨_,_,ctx,_,rfl⟩ := act_exit.mp acted
    exact put_up up rfl
  | listenerReads =>
    obtain ⟨_,_,rfl⟩ := act_listenerReads.mp acted
    exact {up with}
  | listenerExits =>
    obtain ⟨_,_,rfl⟩ := act_listenerExits.mp acted
    exact {up with listener := by simp}
  | setFlag => exact absurd (act_setFlag.mp acted).1 up.started.1
  | buildFilter => exact absurd (act_buildFilter.mp acted).1 up.started.2
  | halt =>
    rcases act_halt.mp acted with ⟨_,rfl⟩ | ⟨i,_,rfl⟩
    · exact {up with started := by simp}
    · exact put_up (m:={s with main := .halting i}) {up with started := by simp} rfl
  | tell =>
    rcases act_tell.mp acted with ⟨_,⟨starting,_⟩ | ⟨_,rfl⟩⟩ | ⟨i,_,⟨down,_⟩ | ⟨_,ctx,_,rfl⟩⟩
    · exact absurd starting up.listener
    · exact {up with started := by simp}
    · rw [up.workers i] at down
      cases down
    · exact put_up (m:={s with main := .awaiting i}) {up with started := by simp} rfl
  | tellFails => exact agrees.elim
  | awake =>
    rcases act_awake.mp acted with ⟨_,_,rfl⟩ | ⟨i,_,_,rfl⟩ <;> exact {up with started := by simp}
  | clear =>
    obtain ⟨n,standing,finished,rfl⟩ := act_clear.mp acted
    exact clear_up valid up standing finished

def Moves (kind : Server.Move T → Bool) (host : Host) (s : State F T) : Prop :=
  ∃ move next, kind move = true ∧ act host s move = some next

theorem works_own (move : Server.Move T) (mine : works move = true) : own move = true := by
  cases move with
  | channel i move => cases move <;> first | rfl | cases mine
  | run | listen | nonblock | nonblockFails | dispatch | advance | exit | listenerReads | listenerExits => rfl
  | accept | data | write | setFlag | buildFilter | halt | tell | tellFails | awake | clear => cases mine

theorem Moves.own (moves : Moves works host s) : Moves Progress.own host s :=
  moves.imp fun _ moved => moved.imp fun _ acted => ⟨works_own _ acted.1,acted.2⟩

theorem channel_moves (move : Handoff.Move) (runs : Runs s i move) (up : (s.workers i).ready = true)
    (stepped : (s.workers i).channel.step host.capacity move = some (later,effect)) (mine : works (.channel i move) = true) :
    Moves works host s := by
  have written : ¬(s.workers i).refuses move := by
    rintro ⟨_,down⟩
    rw [up] at down
    cases down
  exact ⟨_,_,mine,act_channel.mpr ⟨runs,.inr ⟨written,_,_,stepped,rfl⟩⟩⟩

theorem draining_moves (up : (s.workers i).ready = true) (draining : (s.workers i).channel.ctx.place = .draining) :
    Moves works host s := by
  cases queue : (s.workers i).channel.ctx.m_queue with
  | nil =>
    have unlocked := Context.unlock_exact.mpr ⟨draining,queue,rfl⟩
    exact channel_moves .unlock trivial up (Channel.step_unlock.mpr ⟨_,unlocked,rfl,rfl⟩) rfl
  | cons fd rest =>
    have popped := Context.pop_front_exact.mpr ⟨draining,rest,queue,rfl⟩
    exact channel_moves .process trivial up (Channel.step_process.mpr ⟨fd,_,popped,rfl,rfl⟩) rfl

-- socketWriteData is held up by a client that does not take its response.
def Writing (w : Worker) : Prop := ∃ fd left, w.serving = .writing fd left

-- A worker that nobody keeps from its mutex goes on as long as there is something to read.
theorem worker_moves (valid : Valid s) (up : (s.workers i).ready = true) (free : (s.workers i).channel.adding = none)
    (runs : (s.workers i).channel.ctx.place ≠ .left) (taken : ¬Writing (s.workers i))
    (more : (s.workers i).channel.ctx.place = .idle → (s.workers i).channel.ctx.sockets ≠ [] ∨ (s.workers i).leaving = true) :
    Moves works host s := by
  cases place : (s.workers i).channel.ctx.place with
  | left => exact absurd place runs
  | draining => exact draining_moves up place
  | woken =>
    have locked := Context.lock_exact.mpr ⟨place,rfl⟩
    exact channel_moves .lock trivial up (Channel.step_lock.mpr ⟨_,free,locked,rfl,rfl⟩) rfl
  | idle =>
    cases serving : (s.workers i).serving with
    | writing fd left => exact absurd ⟨fd,left,serving⟩ taken
    | handling fd here =>
      have busy := (valid.workers i).busy
      rw [serving] at busy
      obtain ⟨result,moved⟩ := Option.isSome_iff_exists.mp (Handlers.advance_moves busy s.shared)
      exact ⟨.advance i,_,rfl,act_advance.mpr ⟨fd,here,result,serving,moved,rfl⟩⟩
    | idle =>
      cases bytes : (s.workers i).channel.ctx.sockets with
      | nil =>
        have leaving := (more place).resolve_left fun unread => unread bytes
        exact ⟨.exit i,_,rfl,act_exit.mpr ⟨leaving,serving,_,Context.leave_exact.mpr ⟨place,rfl⟩,rfl⟩⟩
      | cons signal rest =>
        have got := Context.read_exact.mpr ⟨place,rest,bytes,rfl⟩
        exact channel_moves .read serving up (Channel.step_read.mpr ⟨signal,_,got,rfl,rfl⟩) rfl

theorem dispatch_moves (valid : Valid s) (live : Live s) (up : Up s) (idle : s.listener ≠ .idle) (left : s.listener ≠ .left) :
    Moves works host s := by
  cases listening : s.listener with
  | starting => exact absurd listening up.listener
  | idle => exact absurd listening idle
  | left => exact absurd listening left
  | accepted fd => exact ⟨.nonblock,_,rfl,act_nonblock.mpr ⟨fd,listening,rfl⟩⟩
  | nonblocking fd => exact ⟨.dispatch,_,rfl,act_dispatch.mpr ⟨fd,listening,rfl⟩⟩
  | calling i fd =>
    have free : (s.workers i).channel.adding = none := by
      by_contra held
      have adding := (valid.workers i).adding held
      rw [listening] at adding
      cases adding
    by_cases draining : (s.workers i).channel.ctx.place = .draining
    · exact draining_moves (up.workers i) draining
    · exact channel_moves (.call fd) listening (up.workers i) (Channel.step_call.mpr ⟨free,draining,rfl,rfl⟩) rfl
  | adding i =>
    cases held : (s.workers i).channel.adding with
    | none => exact absurd held (live.adding i listening)
    | some adding =>
      cases adding with
      | locked fd =>
        exact channel_moves .writeFails listening (up.workers i) (Channel.step_writeFails.mpr ⟨fd,held,rfl,rfl⟩) rfl
      | wrote fd =>
        exact channel_moves .push listening (up.workers i) (Channel.step_push.mpr ⟨fd,held,rfl,rfl⟩) rfl
      | refusing fd =>
        exact channel_moves .refuse listening (up.workers i) (Channel.step_refuse.mpr ⟨fd,held,rfl,rfl⟩) rfl

theorem halting_moves {i : Fin T} (room : 0 < host.capacity) (valid : Valid s) (up : Up s) (standing : s.main = .halting i)
    (taken : ¬Writing (s.workers i)) : Moves own host s := by
  by_cases space : (s.workers i).channel.ctx.sockets.length < host.capacity
  · have written : (s.workers i).channel.ctx.write host.capacity .e = some _ := Context.write_exact.mpr ⟨space,rfl⟩
    exact ⟨.tell,_,rfl,act_tell.mpr (.inr ⟨i,standing,.inr ⟨up.workers i,_,written,rfl⟩⟩)⟩
  · have settled := valid.workers i
    have gone := valid.listener up.stopped (by rw [standing]; trivial)
    refine Moves.own (worker_moves valid (up.workers i) (Valid.free valid gone i) (fun left => ?_) taken
      fun _ => .inl fun empty => ?_)
    · have told := (settled.told (.inr (settled.left left))).1
      rw [standing] at told
      exact Nat.lt_irrefl _ told
    · rw [empty] at space
      exact space room

theorem awaiting_moves {i : Fin T} (valid : Valid s) (live : Live s) (up : Up s) (standing : s.main = .awaiting i)
    (taken : ¬Writing (s.workers i)) : Moves own host s := by
  by_cases left : (s.workers i).channel.ctx.place = .left
  · exact ⟨.awake,_,rfl,act_awake.mpr (.inr ⟨i,standing,left,rfl⟩)⟩
  · have gone := valid.listener up.stopped (by rw [standing]; trivial)
    exact (worker_moves valid (up.workers i) (Valid.free valid gone i) left taken
      fun _ => (live.worker i standing).imp_left List.ne_nil_of_mem).own

theorem listener_moves (valid : Valid s) (live : Live s) (up : Up s) (standing : s.main = .awaitingListener) :
    Moves own host s := by
  by_cases left : s.listener = .left
  · exact ⟨.awake,_,rfl,act_awake.mpr (.inl ⟨standing,left,rfl⟩)⟩
  · by_cases idle : s.listener = .idle
    · rcases live.listener standing left with told | leaving
      · exact ⟨.listenerReads,_,rfl,act_listenerReads.mpr ⟨idle,told,rfl⟩⟩
      · exact ⟨.listenerExits,_,rfl,act_listenerExits.mpr ⟨idle,leaving,rfl⟩⟩
    · exact (dispatch_moves valid live up idle left).own

-- Where shutdown waits for a worker that a client keeps from going on.
def HeldUp (s : State F T) : Prop := ∃ i, (s.main = .halting i ∨ s.main = .awaiting i) ∧ Writing (s.workers i)

-- There is no deadlock: until main has returned, somebody can move.
theorem up_moves (room : 0 < host.capacity) (valid : Valid s) (live : Live s) (up : Up s) (staying : s.main ≠ .returned)
    (taken : ¬HeldUp s) : Moves own host s := by
  cases standing : s.main with
  | listening => exact absurd standing up.started.1
  | flagged => exact absurd standing up.started.2
  | running => exact ⟨.halt,_,rfl,act_halt.mpr (.inl ⟨standing,rfl⟩)⟩
  | haltingListener => exact ⟨.tell,_,rfl,act_tell.mpr (.inl ⟨standing,.inr ⟨up.listener,rfl⟩⟩)⟩
  | awaitingListener => exact listener_moves valid live up standing
  | next n =>
    by_cases more : n < T
    · exact ⟨.halt,_,rfl,act_halt.mpr (.inr ⟨⟨n,more⟩,standing,rfl⟩)⟩
    · exact ⟨.clear,_,rfl,act_clear.mpr ⟨n,standing,Nat.not_lt.mp more,rfl⟩⟩
  | halting i => exact halting_moves room valid up standing fun writing => taken ⟨i,.inl standing,writing⟩
  | awaiting i => exact awaiting_moves valid live up standing fun writing => taken ⟨i,.inr standing,writing⟩
  | returned => exact absurd standing staying

-- No wake-up is lost: where neither the listener nor a worker can move, no
-- descriptor is on its way from the one to the others, but for those of a worker
-- that a client keeps from going on.
theorem still_settled (valid : Valid s) (live : Live s) (up : Up s) (still : ¬Moves works host s) :
    inCall s.listener = [] ∧ ∀ i, inChannel (s.workers i).channel = [] ∨ Writing (s.workers i) := by
  have calm : s.listener = .idle ∨ s.listener = .left := by
    by_contra busy
    rw [not_or] at busy
    exact still (dispatch_moves valid live up busy.1 busy.2)
  constructor
  · rcases calm with idle | left
    · rw [idle]
      rfl
    · rw [left]
      rfl
  · intro i
    by_contra waiting
    rw [not_or] at waiting
    obtain ⟨full,taken⟩ := waiting
    have settled := valid.workers i
    have free : (s.workers i).channel.adding = none := by
      by_contra held
      have adding := settled.adding held
      rcases calm with calm | calm <;>
        · rw [calm] at adding
          cases adding
    have queued : (s.workers i).channel.ctx.m_queue ≠ [] := by
      intro drained
      refine full ?_
      rw [inChannel,free,drained]
      rfl
    have running : (s.workers i).channel.ctx.place ≠ .left :=
      fun left => queued (settled.drained up.stopped (settled.left left))
    refine still (worker_moves valid (up.workers i) free running taken fun idle => .inl ?_)
    rcases settled.sound.attended queued with (byte | woken) | draining
    · exact List.ne_nil_of_mem byte
    · rw [idle] at woken
      cases woken
    · rw [idle] at draining
      cases draining

theorem reached_live (reached : (server F T host).Reached s) : Valid s ∧ Live s := by
  have kept : ∀ (s : State F T) move next, Shutdown.Valid s ∧ Live s → (server F T host).step s move = some next →
      Shutdown.Valid next ∧ Live next := by
    rintro s move next ⟨valid,live⟩ stepped
    have acted := (server_step.mp stepped).2
    exact ⟨act_valid valid acted,act_live live acted⟩
  exact (server F T host).invariant ⟨start_valid,start_live⟩ kept reached

theorem run_up (staffed : 0 < T) (reached : (server F T host).Reached s) (up : Up s)
    (path : (server F T host).run s moves = some last)
    (agrees : ∀ t move, (server F T host).Takes s moves t move → Agrees host t move) : Up last := by
  induction moves generalizing s with
  | nil =>
    cases path
    exact up
  | cons move moves ih =>
    obtain ⟨middle,first,rest⟩ := (server F T host).run_cons.mp path
    have here := agrees s move (((server F T host).takes_cons first).mpr (.inl ⟨rfl,rfl⟩))
    have further := act_up staffed (reached_live reached).1 up (server_step.mp first).2 here
    exact ih (.step reached first) further rest fun t later taken =>
      agrees t later (((server F T host).takes_cons first).mpr (.inr taken))

theorem run_due (path : (server F T host).run (server F T host).start moves = some last) :
    moves.countP own ≤ 8 * T + 10 + 9 * moves.countP accepts + 4 * moves.countP callbacks := by
  obtain ⟨_,_,paid⟩ := server_paid.run start_due path
  rw [Potential.sum_kind,List.sum_map_add,Potential.sum_kind,Potential.sum_kind] at paid
  omega

-- Once the threads are up, whatever the clients send and in whatever order the
-- threads run: the server's own moves are bounded by the connections and the
-- callbacks, none of them goes wrong, and they only come to an end when main has
-- returned or waits for a worker that waits for a client.
theorem shutdown_returns (staffed : 0 < T) (room : 0 < host.capacity)
    (rise : (server F T host).run (server F T host).start first = some s) (up : Up s)
    (path : (server F T host).run s second = some last)
    (agrees : ∀ t move, (server F T host).Takes s second t move → Agrees host t move) :
    (first ++ second).countP own ≤
        8 * T + 10 + 9 * (first ++ second).countP accepts + 4 * (first ++ second).countP callbacks ∧
      last.fault = false ∧
      (last.main = .returned ∨ HeldUp last ∨ ∃ move, own move = true ∧ ((server F T host).step last move).isSome = true) := by
  have reached := (server F T host).reached_exact.mpr ⟨first,rise⟩
  have standing := run_up staffed reached up path agrees
  obtain ⟨valid,live⟩ := reached_live ((server F T host).runs_reached reached ((server F T host).run_exact.mp path))
  refine ⟨run_due ((server F T host).run_join rise path),standing.clear,?_⟩
  by_cases returned : last.main = .returned
  · exact .inl returned
  · by_cases taken : HeldUp last
    · exact .inr (.inl taken)
    · obtain ⟨move,next,mine,acted⟩ := up_moves room valid live standing returned taken
      exact .inr (.inr ⟨move,mine,Option.isSome_iff_exists.mpr ⟨next,server_step.mpr ⟨standing.clear,acted⟩⟩⟩)

-- No connection is left waiting: once the threads are up, whatever the clients
-- send and however far shutdown has come, the moves that take the accepted
-- connections to the workers are bounded, and while one of them is on its way
-- there is such a move, unless its worker waits for a client.
theorem dispatch_settles (staffed : 0 < T) (rise : (server F T host).run (server F T host).start first = some s)
    (up : Up s) (path : (server F T host).run s second = some last)
    (agrees : ∀ t move, (server F T host).Takes s second t move → Agrees host t move) :
    (first ++ second).countP works ≤
        8 * T + 10 + 9 * (first ++ second).countP accepts + 4 * (first ++ second).countP callbacks ∧
      ((inCall last.listener = [] ∧ ∀ i, inChannel (last.workers i).channel = [] ∨ Writing (last.workers i)) ∨
        ∃ move, works move = true ∧ ((server F T host).step last move).isSome = true) := by
  have reached := (server F T host).reached_exact.mpr ⟨first,rise⟩
  have standing := run_up staffed reached up path agrees
  obtain ⟨valid,live⟩ := reached_live ((server F T host).runs_reached reached ((server F T host).run_exact.mp path))
  constructor
  · have fewer := List.countP_mono_left (l:=first ++ second) fun move _ => works_own move
    exact fewer.trans (run_due ((server F T host).run_join rise path))
  · by_cases moves : Moves works host last
    · obtain ⟨move,next,mine,acted⟩ := moves
      exact .inr ⟨move,mine,Option.isSome_iff_exists.mpr ⟨next,server_step.mpr ⟨standing.clear,acted⟩⟩⟩
    · exact .inl (still_settled valid live standing moves)

def rising (i : Fin T) : List (Server.Move T) := [.run i,.listen,.setFlag,.buildFilter]

-- A connection that is handed over before the worker reads its 'e', and is
-- answered meanwhile.
def stopping (i : Fin T) : List (Server.Move T) :=
  [.accept,.nonblock,.halt,.dispatch,.channel i (.call 0),.channel i .write,.tell,.channel i .read,.channel i .push,
    .channel i .lock,.listenerReads,.channel i .process,.channel i .unlock,.listenerExits,.awake,.halt,
    .data i 0 [.got [5,0,0,0,8,1,18,1,107]],.advance i,.tell,.advance i,.advance i,.write i (.failed .EAGAIN),.write i (.wrote 17),
    .channel i .read,.exit i,.awake,.clear]

abbrev risen : State (BloomFilter BloomFilter.small) 1 := ((solo true 1).run (solo true 1).start (rising ⟨0,Nat.one_pos⟩)).get rfl

theorem risen_up : Up risen := ⟨rfl,rfl,⟨nofun,nofun⟩,fun _ => rfl,nofun,fun 0 => rfl⟩

theorem shutdown_returns_stopping : ∃ last, (solo true 1).run risen (stopping 0) = some last ∧
    (rising (0 : Fin 1) ++ stopping 0).countP own ≤ 8 * 1 + 10 + 9 * (rising (0 : Fin 1) ++ stopping 0).countP accepts +
      4 * (rising (0 : Fin 1) ++ stopping 0).countP callbacks ∧
    last.fault = false ∧ (last.main = .returned ∨ HeldUp last ∨
      ∃ move, own move = true ∧ ((solo true 1).step last move).isSome = true) := by
  have path : (solo true 1).run risen (stopping 0) = some _ := rfl
  have agrees : (solo true 1).along (fun t move => decide (Agrees ⟨.little,Codec.codec,true,1⟩ t move)) risen (stopping 0) = true := rfl
  exact ⟨_,path,shutdown_returns (by decide) (by decide) (show (solo true 1).run _ (rising 0) = some risen from rfl) risen_up path
    fun t move taken => of_decide_eq_true ((solo true 1).takes_along agrees taken)⟩

-- The same connection just before the worker looks at its queue.
theorem dispatch_settles_queued : ∃ last, (solo true 1).run risen ((stopping 0).take 9) = some last ∧
    (rising (0 : Fin 1) ++ (stopping 0).take 9).countP works ≤ 8 * 1 + 10 + 9 * (rising (0 : Fin 1) ++ (stopping 0).take 9).countP accepts +
      4 * (rising (0 : Fin 1) ++ (stopping 0).take 9).countP callbacks ∧
    ((inCall last.listener = [] ∧ ∀ i, inChannel (last.workers i).channel = [] ∨ Writing (last.workers i)) ∨
      ∃ move, works move = true ∧ ((solo true 1).step last move).isSome = true) := by
  have path : (solo true 1).run risen ((stopping 0).take 9) = some _ := rfl
  have agrees : (solo true 1).along (fun t move => decide (Agrees ⟨.little,Codec.codec,true,1⟩ t move)) risen
    ((stopping 0).take 9) = true := rfl
  exact ⟨_,path,dispatch_settles (by decide) (show (solo true 1).run _ (rising 0) = some risen from rfl) risen_up path
    fun t move taken => of_decide_eq_true ((solo true 1).takes_along agrees taken)⟩

end RemoteDict.Progress
