import RemoteDict.Foundation.Journal
import RemoteDict.Shutdown

namespace RemoteDict.Departure
open Foundation Handoff Server Shutdown

variable {F : Type} {T : Nat} {s next : State F T} {w : Worker}

-- The workers whose stop() could not write its byte.
def note (s : State F T) : Server.Move T → List (Fin T)
  | .tellFails =>
    match s.main with
    | .halting i => [i]
    | _ => []
  | _ => []

-- A worker that shutdown is done with has left, or was never told to and stays.
structure Standing (main : Main T) (failed : List (Fin T)) (i : Fin T) (w : Worker) : Prop where
  left : Passed main i → i ∉ failed → w.channel.ctx.place = .left
  untold : i ∈ failed → Passed main i ∧ .e ∉ w.channel.ctx.sockets ∧ w.leaving = false

structure Departed (s : State F T) (failed : List (Fin T)) : Prop where
  valid : Valid s
  workers : ∀ i, Standing s.main failed i (s.workers i)

variable {failed : List (Fin T)}

structure Onward (w after : Worker) : Prop where
  left : w.channel.ctx.place = .left → after.channel.ctx.place = .left
  untold : .e ∉ w.channel.ctx.sockets ∧ w.leaving = false → .e ∉ after.channel.ctx.sockets ∧ after.leaving = false

theorem Onward.standing {main : Main T} {after : Worker} (onward : Onward w after) (standing : Standing main failed i w) :
    Standing main failed i after where
  left passed kept := onward.left (standing.left passed kept)
  untold member := ⟨(standing.untold member).1,onward.untold (standing.untold member).2⟩

theorem channel_onward {later : Channel} (stepped : w.channel.step capacity move = some (later,effect)) :
    Onward w (w.settle later effect).1 := by
  cases move with
  | call fd =>
    obtain ⟨_,_,rfl,rfl⟩ := Channel.step_call.mp stepped
    exact ⟨id,id⟩
  | write =>
    obtain ⟨fd,ctx,_,written,rfl,rfl⟩ := Channel.step_write.mp stepped
    obtain ⟨_,rfl⟩ := Context.write_exact.mp written
    refine ⟨id,fun untold => ⟨?_,untold.2⟩⟩
    simpa [Worker.settle] using untold.1
  | writeFails =>
    obtain ⟨fd,_,rfl,rfl⟩ := Channel.step_writeFails.mp stepped
    exact ⟨id,id⟩
  | push =>
    obtain ⟨fd,_,rfl,rfl⟩ := Channel.step_push.mp stepped
    exact ⟨id,id⟩
  | refuse =>
    obtain ⟨fd,_,rfl,rfl⟩ := Channel.step_refuse.mp stepped
    exact ⟨id,id⟩
  | read =>
    obtain ⟨signal,ctx,got,rfl,rfl⟩ := Channel.step_read.mp stepped
    obtain ⟨idle,rest,bytes,rfl⟩ := Context.read_exact.mp got
    refine ⟨fun left => ?_,fun untold => ?_⟩
    · rw [idle] at left
      cases left
    · rw [bytes,List.mem_cons,not_or] at untold
      cases signal with
      | c => exact ⟨untold.1.2,untold.2⟩
      | e => exact absurd rfl untold.1.1
  | spurious =>
    cases stepped
    exact ⟨id,id⟩
  | lock =>
    obtain ⟨ctx,_,locked,rfl,rfl⟩ := Channel.step_lock.mp stepped
    obtain ⟨woken,rfl⟩ := Context.lock_exact.mp locked
    refine ⟨fun left => ?_,id⟩
    rw [woken] at left
    cases left
  | process =>
    obtain ⟨fd,ctx,popped,rfl,rfl⟩ := Channel.step_process.mp stepped
    obtain ⟨draining,rest,queue,rfl⟩ := Context.pop_front_exact.mp popped
    simp only [Worker.settle,Worker.processEvent]
    split <;> exact ⟨id,id⟩
  | unlock =>
    obtain ⟨ctx,unlocked,rfl,rfl⟩ := Channel.step_unlock.mp stepped
    obtain ⟨draining,_,rfl⟩ := Context.unlock_exact.mp unlocked
    refine ⟨fun left => ?_,id⟩
    rw [draining] at left
    cases left

theorem exit_onward {ctx : Context} (leaving : w.leaving = true) (left : w.channel.ctx.leave = some ctx) :
    Onward w {w with channel := {w.channel with ctx := ctx}} := by
  obtain ⟨_,rfl⟩ := Context.leave_exact.mp left
  refine ⟨fun _ => rfl,fun untold => ?_⟩
  rw [leaving] at untold
  cases untold.2

theorem called_onward {after : Worker} (called : Called w after) : Onward w after where
  left gone := called.channel ▸ gone
  untold untold := called.channel ▸ called.leaving ▸ untold

theorem put_standing {m : State F T} (here : Standing m.main failed i changed.1)
    (others : ∀ j, j ≠ i → Standing m.main failed j (m.workers j)) (j : Fin T) :
    Standing m.main failed j ((put m i changed).workers j) := by
  by_cases same : j = i
  · subst same
    simpa only [put,Function.update_self] using here
  · simpa only [put,Function.update_of_ne same] using others j same

theorem Standing.moved {main following : Main T} (standing : Standing main failed i w)
    (passed : Passed following i ↔ Passed main i) : Standing following failed i w where
  left reached := standing.left (passed.mp reached)
  untold member := ⟨passed.mpr (standing.untold member).1,(standing.untold member).2⟩

theorem halt_standing {i : Fin T} (standing : ∀ j, Standing s.main failed j (s.workers j)) (reached : s.main = .next i)
    (j : Fin T) : Standing (.halting i) failed j
      ((put {s with main := .halting i} i ({s.workers i with m_processExiting := true},[])).workers j) := by
  have passed : ∀ j, Passed (.halting i) j ↔ Passed s.main j := by
    intro j
    rw [reached]
    rfl
  have marked : Onward (s.workers i) {s.workers i with m_processExiting := true} := ⟨id,id⟩
  have here := marked.standing ((standing i).moved (passed i))
  exact put_standing (m:={s with main := .halting i}) here (fun j _ => (standing j).moved (passed j)) j

theorem tell_standing {ctx : Context} (standing : ∀ j, Standing s.main failed j (s.workers j)) (reached : s.main = .halting i)
    (j : Fin T) : Standing (.awaiting i) failed j ((put {s with main := .awaiting i} i
      ({s.workers i with channel := {(s.workers i).channel with ctx := ctx}},[])).workers j) := by
  have passed : ∀ j, Passed (.awaiting i) j ↔ Passed s.main j := by
    intro j
    rw [reached]
    rfl
  have before : ¬Passed s.main i := by
    rw [reached]
    exact Nat.lt_irrefl _
  refine put_standing (m:={s with main := .awaiting i}) ⟨fun reached => ?_,fun member => ?_⟩
    (fun j _ => (standing j).moved (passed j)) j
  · exact absurd ((passed i).mp reached) before
  · exact absurd ((standing i).untold member).1 before

theorem passed_next {main : Main T} (reached : main = .halting i ∨ main = .awaiting i) (j : Fin T) :
    Passed (.next (i + 1)) j ↔ Passed main j ∨ j = i := by
  have same : Passed main j ↔ j < i := by rcases reached with rfl | rfl <;> rfl
  rw [same]
  show j.val < i + 1 ↔ _
  rw [Fin.lt_def,Fin.ext_iff]
  omega

theorem fails_standing {i : Fin T} (valid : Valid s) (standing : ∀ j, Standing s.main failed j (s.workers j))
    (reached : s.main = .halting i) (j : Fin T) : Standing (.next (i + 1)) (failed ++ [i]) j (s.workers j) := by
  have passed := passed_next (.inl reached)
  constructor
  · intro reached kept
    rw [List.mem_append,List.mem_singleton,not_or] at kept
    exact (standing j).left (((passed j).mp reached).resolve_right kept.2) kept.1
  · intro member
    rcases List.mem_append.mp member with old | new
    · have before := (standing j).untold old
      exact ⟨(passed j).mpr (.inl before.1),before.2⟩
    · obtain rfl := List.mem_singleton.mp new
      have untold : ¬Told s.main j := by
        rw [reached]
        exact Nat.lt_irrefl _
      refine ⟨(passed j).mpr (.inr rfl),fun byte => untold ((valid.workers j).told (.inl byte)).1,?_⟩
      cases leaving : (s.workers j).leaving with
      | true => exact absurd ((valid.workers j).told (.inr leaving)).1 untold
      | false => rfl

theorem awake_standing {i : Fin T} (standing : ∀ j, Standing s.main failed j (s.workers j)) (reached : s.main = .awaiting i)
    (left : (s.workers i).channel.ctx.place = .left) (j : Fin T) : Standing (.next (i + 1)) failed j (s.workers j) := by
  have passed := passed_next (.inr reached)
  constructor
  · intro reached kept
    rcases (passed j).mp reached with before | rfl
    · exact (standing j).left before kept
    · exact left
  · intro member
    have before := (standing j).untold member
    exact ⟨(passed j).mpr (.inl before.1),before.2⟩

theorem clear_standing (standing : ∀ j, Standing s.main failed j (s.workers j)) (reached : s.main = .next n)
    (finished : T ≤ n) (j : Fin T) : Standing (clear s).main failed j ((clear s).workers j) := by
  unfold clear
  split
  · exact standing j
  · have passed : Passed .returned j ↔ Passed s.main j := by
      rw [reached]
      exact iff_of_true trivial (Nat.lt_of_lt_of_le j.isLt finished)
    have destroyed : Onward (s.workers j) (destroy (s.workers j)) := ⟨id,id⟩
    exact destroyed.standing ((standing j).moved passed)

variable [MembershipFilter F] {host : Host}

theorem act_departed (departed : Departed s failed) (acted : act host s move = some next) :
    Departed next (failed ++ note s move) := by
  obtain ⟨valid,standing⟩ := departed
  refine ⟨act_valid valid acted,?_⟩
  have same : note s move = [] → failed ++ note s move = failed := by
    intro silent
    rw [silent,List.append_nil]
  cases move with
  | run i =>
    obtain ⟨_,rfl⟩ := act_run.mp acted
    rw [same rfl]
    have up : Onward (s.workers i) {s.workers i with ready := true} := ⟨id,id⟩
    exact put_standing (up.standing (standing i)) fun j _ => standing j
  | listen =>
    obtain ⟨_,rfl⟩ := act_listen.mp acted
    rw [same rfl]
    exact standing
  | accept =>
    obtain ⟨_,_,rfl⟩ := act_accept.mp acted
    rw [same rfl]
    exact standing
  | nonblock =>
    obtain ⟨fd,_,rfl⟩ := act_nonblock.mp acted
    rw [same rfl]
    exact standing
  | nonblockFails =>
    obtain ⟨fd,_,rfl⟩ := act_nonblockFails.mp acted
    rw [same rfl]
    exact standing
  | dispatch =>
    obtain ⟨fd,_,rfl⟩ := act_dispatch.mp acted
    rw [same rfl]
    unfold loadbalanceFd
    split <;> exact standing
  | channel i move =>
    rw [same rfl]
    obtain ⟨_,⟨_,rfl⟩ | ⟨_,later,effect,stepped,rfl⟩⟩ := act_channel.mp acted
    · exact standing
    · exact put_standing ((channel_onward stepped).standing (standing i)) fun j _ => standing j
  | data i fd reads | advance i | write i result =>
    rw [same rfl]
    obtain rfl | ⟨shared,changed,called,rfl⟩ := act_callback rfl acted
    · exact standing
    · exact put_standing ((called_onward called).standing (standing i)) fun j _ => standing j
  | exit i =>
    obtain ⟨leaving,_,ctx,left,rfl⟩ := act_exit.mp acted
    rw [same rfl]
    exact put_standing ((exit_onward leaving left).standing (standing i)) fun j _ => standing j
  | listenerReads =>
    obtain ⟨_,_,rfl⟩ := act_listenerReads.mp acted
    rw [same rfl]
    exact standing
  | listenerExits =>
    obtain ⟨_,_,rfl⟩ := act_listenerExits.mp acted
    rw [same rfl]
    exact standing
  | setFlag =>
    obtain ⟨starting,rfl⟩ := act_setFlag.mp acted
    rw [same rfl]
    refine fun j => (standing j).moved ?_
    rw [starting]
    split <;> rfl
  | buildFilter =>
    obtain ⟨starting,rfl⟩ := act_buildFilter.mp acted
    rw [same rfl]
    exact fun j => (standing j).moved (by rw [starting]; rfl)
  | halt =>
    rw [same rfl]
    rcases act_halt.mp acted with ⟨reached,rfl⟩ | ⟨i,reached,rfl⟩
    · exact fun j => (standing j).moved (by rw [reached]; rfl)
    · exact halt_standing standing reached
  | tell =>
    rw [same rfl]
    rcases act_tell.mp acted with ⟨reached,⟨_,rfl⟩ | ⟨_,rfl⟩⟩ | ⟨i,reached,⟨_,rfl⟩ | ⟨_,ctx,written,rfl⟩⟩
    · exact standing
    · exact fun j => (standing j).moved (by rw [reached]; rfl)
    · exact standing
    · exact tell_standing standing reached
  | tellFails =>
    rcases act_tellFails.mp acted with ⟨reached,rfl⟩ | ⟨i,reached,rfl⟩
    · rw [same (by simp only [note,reached])]
      refine fun j => (standing j).moved ?_
      rw [reached]
      exact iff_of_false (Nat.not_lt_zero _) id
    · rw [show note s .tellFails = [i] by simp only [note,reached]]
      exact fails_standing (s:=s) valid standing reached
  | awake =>
    rw [same rfl]
    rcases act_awake.mp acted with ⟨reached,_,rfl⟩ | ⟨i,reached,left,rfl⟩
    · refine fun j => (standing j).moved ?_
      rw [reached]
      exact iff_of_false (Nat.not_lt_zero _) id
    · exact awake_standing (s:=s) standing reached left
  | clear =>
    rw [same rfl]
    obtain ⟨n,reached,finished,rfl⟩ := act_clear.mp acted
    exact clear_standing standing reached finished

theorem run_departed (path : (server F T host).run (server F T host).start events = some s) :
    Departed s ((server F T host).journal note (server F T host).start events) := by
  have kept : ∀ (s : State F T) failed move next, Departed s failed → (server F T host).step s move = some next →
      Departed next (failed ++ note s move) :=
    fun _ _ _ _ departed stepped => act_departed departed (server_step.mp stepped).2
  have start : Departed (server F T host).start [] :=
    ⟨start_valid,fun i => ⟨fun passed => passed.elim,fun member => absurd member List.not_mem_nil⟩⟩
  exact Machine.journal_agrees kept [] start path

omit [MembershipFilter F] in
theorem mem_note : i ∈ note s move ↔ move = .tellFails ∧ s.main = .halting i := by
  cases move <;> simp only [note] <;> try simp
  cases s.main <;> simp [eq_comm]

-- In every run that comes to m_workers.clear(), for any number of workers.
theorem departure_exact (path : (server F T host).run (server F T host).start events = some s)
    (reached : s.main = .next n) (finished : T ≤ n) :
    (∀ i, (s.workers i).channel.ctx.place = .left) ↔
    ∀ t i, (server F T host).Takes (server F T host).start events t .tellFails → t.main ≠ .halting i := by
  have departed := run_departed path
  have passed : ∀ i, Passed s.main i := by
    intro i
    rw [reached]
    exact Nat.lt_of_lt_of_le i.isLt finished
  constructor
  · intro left t i takes halting
    have member := (Machine.mem_journal path).mpr ⟨t,_,takes,mem_note.mpr ⟨rfl,halting⟩⟩
    have stays := ((departed.workers i).untold member).2.2
    rw [(departed.valid.workers i).left (left i)] at stays
    cases stays
  · intro written i
    refine (departed.workers i).left (passed i) fun member => ?_
    obtain ⟨t,move,takes,noted⟩ := (Machine.mem_journal path).mp member
    obtain ⟨rfl,halting⟩ := mem_note.mp noted
    exact written t i takes halting

-- The worker answers a GET, and has the byte of a second connection still to read
-- when the byte that ends it is written.
def heard (i : Fin T) : List (Server.Move T) :=
  [.run i,.listen,.setFlag,.buildFilter,.accept,.nonblock,.dispatch] ++
    ([.call 0,.write,.push,.read,.lock,.process,.unlock] : List Handoff.Move).map (.channel i) ++
  [.data i 0 [.got [5,0,0,0,8,1,18,1,107]],.advance i,.advance i,.advance i,
    .write i (.failed .EAGAIN),.write i (.wrote 5),.write i (.wrote 12),
    .accept,.nonblock,.dispatch,.channel i (.call 1),.channel i .write,.channel i .push,
    .halt,.tell,.listenerReads,.listenerExits,.awake,.halt,.tell] ++
  ([.read,.lock,.process,.unlock,.read] : List Handoff.Move).map (.channel i) ++ [.exit i,.awake]

theorem departure_exact_heard : ∃ s, (solo true 2).run (solo true 2).start (heard 0) = some s ∧ s.main = .next 1 ∧
    ((∀ i, (s.workers i).channel.ctx.place = .left) ↔
      ∀ t i, (solo true 2).Takes (solo true 2).start (heard 0) t .tellFails → t.main ≠ .halting i) :=
  ⟨_,rfl,rfl,departure_exact (show (solo true 2).run (solo true 2).start (heard 0) = some _ from rfl) rfl (Nat.le_refl 1)⟩

-- One worker that does not get to read while connections arrive.
def waiting (n : Nat) : Worker := ⟨true,⟨⟨List.replicate n .c,List.range n,.idle⟩,none⟩,false,[],.idle,false⟩

def loaded (n : Nat) : State (BloomFilter BloomFilter.small) 1 :=
  ⟨⟨.new,{}⟩,n,.idle,false,false,0,fun _ => waiting n,.running,true,[],false⟩

def connect (i : Fin T) (n : Nat) : List (Server.Move T) :=
  [.accept,.nonblock,.dispatch,.channel i (.call n),.channel i .write,.channel i .push]

theorem update_only (workers : Fin 1 → Worker) (w : Worker) : Function.update workers 0 w = fun _ => w := by
  funext i
  rw [Subsingleton.elim i 0,Function.update_self]

theorem connect_loaded (room : n < capacity) : (solo false capacity).run (loaded n) (connect 0 n) = some (loaded (n + 1)) := by
  simp [Machine.run,connect,server,act,loaded,waiting,loadbalanceFd,Runs,Worker.refuses,Channel.step,Context.write,
    Context.push_back,put,Worker.settle,afterMove,room,List.range_succ,
    List.replicate_succ',update_only]

theorem fills (room : n ≤ capacity) : ∃ events, (solo false capacity).run (solo false capacity).start events = some (loaded n) := by
  induction n with
  | zero =>
    refine ⟨[.run 0,.listen,.setFlag],?_⟩
    simp [Machine.run,server,act,loaded,waiting,put,Worker.new,Channel.new,Context.new,update_only,Dictionary.new]
  | succ n ih =>
    obtain ⟨events,path⟩ := ih (Nat.le_of_lt room)
    exact ⟨events ++ connect 0 n,(solo false capacity).run_join path (connect_loaded room)⟩

def unheard : List (Server.Move 1) := [.halt,.tell,.listenerReads,.listenerExits,.awake,.halt,.tellFails]

theorem unheard_loaded (capacity n : Nat) : ∃ s, (solo false capacity).run (loaded n) unheard = some s ∧ s.main = .next 1 ∧
    (s.workers 0).channel.ctx.sockets = List.replicate n .c ∧ (s.workers 0).channel.ctx.place = .idle :=
  ⟨_,rfl,rfl,rfl,rfl⟩

-- The byte that ends the worker finds the channel full.
theorem overfull_stays (capacity : Nat) : ∃ events s, (solo false capacity).run (solo false capacity).start events = some s ∧
    s.main = .next 1 ∧ (s.workers 0).channel.ctx.sockets.length = capacity ∧ (s.workers 0).channel.ctx.place ≠ .left := by
  obtain ⟨events,path⟩ := fills (Nat.le_refl capacity)
  obtain ⟨s,stopping,reached,bytes,idle⟩ := unheard_loaded capacity capacity
  refine ⟨events ++ unheard,s,(solo false capacity).run_join path stopping,reached,?_,?_⟩
  · rw [bytes,List.length_replicate]
  · rw [idle]
    exact nofun

theorem overfull_stays_278 : ∃ events s, (solo false 278).run (solo false 278).start events = some s ∧
    s.main = .next 1 ∧ (s.workers 0).channel.ctx.sockets.length = 278 ∧ (s.workers 0).channel.ctx.place ≠ .left :=
  overfull_stays 278

end RemoteDict.Departure
