import Mathlib.Data.List.Nodup
import RemoteDict.Foundation.Machine
import RemoteDict.ServiceThread

namespace RemoteDict.Handoff
open Foundation

-- Where a call of addFdToEvLoop stands, with m_threadCtxMtx in its hands.
inductive Adding where
  | locked (fd : Nat)
  | wrote (fd : Nat)
  | refusing (fd : Nat)
  deriving DecidableEq, Repr

structure Channel where
  ctx : Context
  adding : Option Adding
  deriving DecidableEq, Repr

inductive Move where
  | call (fd : Nat)
  | write
  | writeFails
  | push
  | refuse
  | read
  | spurious
  | lock
  | process
  | unlock
  deriving DecidableEq, Repr

-- What a move does outside of the channel: where a descriptor goes, or that
-- the thread was told to end.
inductive Effect where
  | silent
  | pushed (fd : Nat)
  | closed (fd : Nat)
  | processed (fd : Nat)
  | ended
  deriving DecidableEq, Repr

namespace Channel

def new : Channel := ⟨.new,none⟩

-- The moves of addFdToEvLoop, and then those of onEvent. The mutex is held by
-- the call that is adding or by the thread that is draining.
def step (capacity : Nat) (ch : Channel) : Move → Option (Channel × Effect)
  | .call fd =>
    if ch.adding = none ∧ ch.ctx.place ≠ .draining then some ({ch with adding := some (.locked fd)},.silent) else none
  | .write =>
    match ch.adding with
    | some (.locked fd) => (ch.ctx.write capacity .c).map fun ctx => (⟨ctx,some (.wrote fd)⟩,.silent)
    | _ => none
  | .writeFails =>
    match ch.adding with
    | some (.locked fd) => some ({ch with adding := some (.refusing fd)},.silent)
    | _ => none
  | .push =>
    match ch.adding with
    | some (.wrote fd) => some (⟨ch.ctx.push_back fd,none⟩,.pushed fd)
    | _ => none
  | .refuse =>
    match ch.adding with
    | some (.refusing fd) => some ({ch with adding := none},.closed fd)
    | _ => none
  | .read => ch.ctx.read.map fun got => ({ch with ctx := got.2},if got.1 = .e then .ended else .silent)
  | .spurious => some (ch,.silent)
  | .lock => if ch.adding = none then ch.ctx.lock.map fun ctx => ({ch with ctx := ctx},.silent) else none
  | .process => ch.ctx.pop_front.map fun popped => ({ch with ctx := popped.2},.processed popped.1)
  | .unlock => ch.ctx.unlock.map fun ctx => ({ch with ctx := ctx},.silent)

-- The byte is written before the entry it announces, so between the two the
-- thread has to be known to come back.
structure Sound (ch : Channel) : Prop where
  attended : ch.ctx.Attended
  announced : ∀ fd, ch.adding = some (.wrote fd) → ch.ctx.Woken
  exclusive : ch.adding ≠ none → ch.ctx.place ≠ .draining

theorem new_sound : new.Sound := ⟨fun queued => absurd rfl queued,by simp [new],by simp [new]⟩

variable {ch next : Channel} {effect : Effect}

theorem step_call : ch.step capacity (.call fd) = some (next,effect) ↔ ch.adding = none ∧ ch.ctx.place ≠ .draining ∧
    next = {ch with adding := some (.locked fd)} ∧ effect = .silent := by
  simp [step,eq_comm,and_assoc]

theorem step_write : ch.step capacity .write = some (next,effect) ↔ ∃ fd ctx, ch.adding = some (.locked fd) ∧
    ch.ctx.write capacity .c = some ctx ∧ next = ⟨ctx,some (.wrote fd)⟩ ∧ effect = .silent := by
  simp only [step]
  split
  · rename_i fd locked
    simp only [Option.map_eq_some_iff,Prod.mk.injEq,locked]
    grind
  · rename_i other
    grind

theorem step_writeFails : ch.step capacity .writeFails = some (next,effect) ↔ ∃ fd, ch.adding = some (.locked fd) ∧
    next = {ch with adding := some (.refusing fd)} ∧ effect = .silent := by
  simp only [step]
  split
  · rename_i fd locked
    simp [locked,eq_comm]
  · rename_i other
    grind

theorem step_push : ch.step capacity .push = some (next,effect) ↔ ∃ fd, ch.adding = some (.wrote fd) ∧
    next = ⟨ch.ctx.push_back fd,none⟩ ∧ effect = .pushed fd := by
  simp only [step]
  split
  · rename_i fd wrote
    simp [wrote,eq_comm]
  · rename_i other
    grind

theorem step_refuse : ch.step capacity .refuse = some (next,effect) ↔ ∃ fd, ch.adding = some (.refusing fd) ∧
    next = {ch with adding := none} ∧ effect = .closed fd := by
  simp only [step]
  split
  · rename_i fd refusing
    simp [refusing,eq_comm]
  · rename_i other
    grind

theorem step_read : ch.step capacity .read = some (next,effect) ↔ ∃ signal ctx, ch.ctx.read = some (signal,ctx) ∧
    next = {ch with ctx := ctx} ∧ effect = if signal = .e then .ended else .silent := by
  simp only [step,Option.map_eq_some_iff,Prod.mk.injEq,Prod.exists]
  grind

theorem step_lock : ch.step capacity .lock = some (next,effect) ↔ ∃ ctx, ch.adding = none ∧ ch.ctx.lock = some ctx ∧
    next = {ch with ctx := ctx} ∧ effect = .silent := by
  simp only [step]
  split
  · rename_i free
    simp only [Option.map_eq_some_iff,Prod.mk.injEq,free]
    grind
  · rename_i busy
    grind

theorem step_process : ch.step capacity .process = some (next,effect) ↔ ∃ fd ctx, ch.ctx.pop_front = some (fd,ctx) ∧
    next = {ch with ctx := ctx} ∧ effect = .processed fd := by
  simp only [step,Option.map_eq_some_iff,Prod.mk.injEq,Prod.exists]
  grind

theorem step_unlock : ch.step capacity .unlock = some (next,effect) ↔ ∃ ctx, ch.ctx.unlock = some ctx ∧
    next = {ch with ctx := ctx} ∧ effect = .silent := by
  simp only [step,Option.map_eq_some_iff,Prod.mk.injEq]
  grind

theorem step_sound (sound : ch.Sound) (stepped : ch.step capacity move = some (next,effect)) : next.Sound := by
  obtain ⟨attended,announced,exclusive⟩ := sound
  cases move with
  | call fd =>
    obtain ⟨_,free,rfl,_⟩ := step_call.mp stepped
    exact ⟨attended,by simp,fun _ => free⟩
  | write =>
    obtain ⟨fd,ctx,locked,written,rfl,_⟩ := step_write.mp stepped
    have woken := Context.write_woken written
    have still := Context.write_attended attended written
    obtain ⟨_,rfl⟩ := Context.write_exact.mp written
    exact ⟨still,fun _ _ => woken,fun _ => exclusive (by simp [locked])⟩
  | writeFails =>
    obtain ⟨fd,locked,rfl,_⟩ := step_writeFails.mp stepped
    exact ⟨attended,by simp,fun _ => exclusive (by simp [locked])⟩
  | push =>
    obtain ⟨fd,wrote,rfl,_⟩ := step_push.mp stepped
    exact ⟨Context.push_attended (announced fd wrote) fd,by simp,by simp⟩
  | refuse =>
    obtain ⟨fd,refusing,rfl,_⟩ := step_refuse.mp stepped
    exact ⟨attended,by simp,by simp⟩
  | read =>
    obtain ⟨signal,ctx,got,rfl,_⟩ := step_read.mp stepped
    refine ⟨Context.read_attended attended got,fun fd wrote => Context.read_woken (announced fd wrote) got,fun _ => ?_⟩
    obtain ⟨idle,rest,bytes,rfl⟩ := Context.read_exact.mp got
    cases signal <;> simp
  | spurious =>
    cases stepped
    exact ⟨attended,announced,exclusive⟩
  | lock =>
    obtain ⟨ctx,free,locked,rfl,_⟩ := step_lock.mp stepped
    exact ⟨Context.lock_attended locked,by simp [free],fun busy => absurd free busy⟩
  | process =>
    obtain ⟨fd,ctx,popped,rfl,_⟩ := step_process.mp stepped
    obtain ⟨draining,_⟩ := Context.pop_front_exact.mp popped
    have free : ch.adding = none := by
      by_contra busy
      exact exclusive busy draining
    exact ⟨Context.pop_front_attended popped,by simp [free],fun busy => absurd free busy⟩
  | unlock =>
    obtain ⟨ctx,unlocked,rfl,_⟩ := step_unlock.mp stepped
    obtain ⟨draining,_⟩ := Context.unlock_exact.mp unlocked
    have free : ch.adding = none := by
      by_contra busy
      exact exclusive busy draining
    exact ⟨Context.unlock_attended unlocked,by simp [free],fun busy => absurd free busy⟩

end Channel

-- The lists record, oldest first, what was pushed, given to processEvent and
-- closed, and what each call of addFdToEvLoop returned.
structure State where
  channel : Channel
  pushed : List Nat
  processed : List Nat
  closed : List Nat
  returned : List (Nat × Bool)
  deriving DecidableEq, Repr

def record (s : State) (next : Channel) : Effect → State
  | .silent => {s with channel := next}
  | .pushed fd => {s with channel := next,pushed := s.pushed ++ [fd],returned := s.returned ++ [(fd,true)]}
  | .closed fd => {s with channel := next,closed := s.closed ++ [fd],returned := s.returned ++ [(fd,false)]}
  | .processed fd => {s with channel := next,processed := s.processed ++ [fd]}
  | .ended => {s with channel := next}

-- From the creation of the socketpair on, and without a stop.
def handoff (capacity : Nat) : Machine State Move where
  start := ⟨.new,[],[],[],[]⟩
  step s move := (s.channel.step capacity move).map fun stepped => record s stepped.1 stepped.2

def accepted (returned : List (Nat × Bool)) : List Nat := (returned.filter (·.2)).map (·.1)
def refused (returned : List (Nat × Bool)) : List Nat := (returned.filter (! ·.2)).map (·.1)

structure Valid (s : State) : Prop where
  channel : s.channel.Sound
  order : s.pushed = s.processed ++ s.channel.ctx.m_queue
  accepted : s.pushed = accepted s.returned
  refused : s.closed = refused s.returned

theorem step_queue {ch next : Channel} (stepped : ch.step capacity move = some (next,effect)) :
    match effect with
    | .pushed fd => next.ctx.m_queue = ch.ctx.m_queue ++ [fd]
    | .processed fd => ch.ctx.m_queue = fd :: next.ctx.m_queue
    | _ => next.ctx.m_queue = ch.ctx.m_queue := by
  cases move with
  | call fd => obtain ⟨_,_,rfl,rfl⟩ := Channel.step_call.mp stepped; rfl
  | write =>
    obtain ⟨fd,ctx,_,written,rfl,rfl⟩ := Channel.step_write.mp stepped
    obtain ⟨_,rfl⟩ := Context.write_exact.mp written
    rfl
  | writeFails => obtain ⟨fd,_,rfl,rfl⟩ := Channel.step_writeFails.mp stepped; rfl
  | push => obtain ⟨fd,_,rfl,rfl⟩ := Channel.step_push.mp stepped; rfl
  | refuse => obtain ⟨fd,_,rfl,rfl⟩ := Channel.step_refuse.mp stepped; rfl
  | read =>
    obtain ⟨signal,ctx,got,rfl,rfl⟩ := Channel.step_read.mp stepped
    obtain ⟨_,rest,_,rfl⟩ := Context.read_exact.mp got
    cases signal <;> rfl
  | spurious => cases stepped; rfl
  | lock =>
    obtain ⟨ctx,_,locked,rfl,rfl⟩ := Channel.step_lock.mp stepped
    obtain ⟨_,rfl⟩ := Context.lock_exact.mp locked
    rfl
  | process =>
    obtain ⟨fd,ctx,popped,rfl,rfl⟩ := Channel.step_process.mp stepped
    obtain ⟨_,rest,queue,rfl⟩ := Context.pop_front_exact.mp popped
    exact queue
  | unlock =>
    obtain ⟨ctx,unlocked,rfl,rfl⟩ := Channel.step_unlock.mp stepped
    obtain ⟨_,_,rfl⟩ := Context.unlock_exact.mp unlocked
    rfl

theorem step_valid (valid : Valid s) (stepped : (handoff capacity).step s move = some next) : Valid next := by
  obtain ⟨⟨channel,effect⟩,moved,rfl⟩ := Option.map_eq_some_iff.mp stepped
  obtain ⟨sound,order,taken,shut⟩ := valid
  have queue := step_queue moved
  have still := Channel.step_sound sound moved
  cases effect with
  | silent => exact ⟨still,by simpa only [record,queue] using order,taken,shut⟩
  | ended => exact ⟨still,by simpa only [record,queue] using order,taken,shut⟩
  | pushed fd =>
    refine ⟨still,?_,?_,?_⟩
    · simp only [record,queue,order,List.append_assoc]
    · simp [record,accepted,taken]
    · simp [record,refused,shut]
  | closed fd =>
    refine ⟨still,?_,?_,?_⟩
    · simpa only [record,queue] using order
    · simp [record,accepted,taken]
    · simp [record,refused,shut]
  | processed fd =>
    refine ⟨still,?_,taken,shut⟩
    simp only [record,order,queue,List.append_assoc,List.singleton_append]

theorem handoff_valid (reached : (handoff capacity).Reached s) : Valid s :=
  (handoff capacity).invariant (show Valid (handoff capacity).start from ⟨Channel.new_sound,rfl,rfl,rfl⟩)
    (fun _ _ _ valid stepped => step_valid valid stepped) reached

theorem refused_apart (once : (returned.map Prod.fst).Nodup) (shut : fd ∈ refused returned) : fd ∉ accepted returned := by
  intro taken
  obtain ⟨⟨_,_⟩,left,rfl⟩ := List.mem_map.mp shut
  obtain ⟨⟨_,_⟩,right,same⟩ := List.mem_map.mp taken
  obtain ⟨left,no⟩ := List.mem_filter.mp left
  obtain ⟨right,yes⟩ := List.mem_filter.mp right
  cases List.inj_on_of_nodup_map once left right same.symm
  dsimp only at yes no
  rw [yes] at no
  cases no

-- Nothing is lost, repeated or reordered, a refused descriptor is closed and
-- not queued, and a queue that nobody holds has a wake-up on its way.
theorem handoff_sound (capacity : Nat) (reached : (handoff capacity).Reached s) :
    s.pushed = s.processed ++ s.channel.ctx.m_queue ∧
    (s.pushed = accepted s.returned ∧ s.closed = refused s.returned ∧
      ((s.returned.map Prod.fst).Nodup → ∀ fd ∈ s.closed, fd ∉ s.pushed)) ∧
    (s.channel.adding = none → s.channel.ctx.place ≠ .draining → s.channel.ctx.m_queue ≠ [] →
      .c ∈ s.channel.ctx.sockets ∨ s.channel.ctx.place = .woken) := by
  obtain ⟨sound,order,taken,shut⟩ := handoff_valid reached
  refine ⟨order,⟨taken,shut,fun once fd closed => ?_⟩,fun _ free queued => ?_⟩
  · rw [taken]
    rw [shut] at closed
    exact refused_apart once closed
  · rcases sound.attended queued with woken | draining
    · exact woken
    · exact absurd draining free

def accepting : State := ⟨⟨⟨[.c],[7],.idle⟩,none⟩,[7],[],[8],[(7,true),(8,false)]⟩

theorem accepting_reached : (handoff 1).Reached accepting :=
  (handoff 1).reached_exact.mpr ⟨[.call 7,.write,.push,.call 8,.writeFails,.refuse],by decide⟩

theorem handoff_sound_accepting :
    accepting.pushed = accepting.processed ++ accepting.channel.ctx.m_queue ∧
    (accepting.pushed = accepted accepting.returned ∧ accepting.closed = refused accepting.returned ∧
      ((accepting.returned.map Prod.fst).Nodup → ∀ fd ∈ accepting.closed, fd ∉ accepting.pushed)) ∧
    (accepting.channel.adding = none → accepting.channel.ctx.place ≠ .draining → accepting.channel.ctx.m_queue ≠ [] →
      .c ∈ accepting.channel.ctx.sockets ∨ accepting.channel.ctx.place = .woken) :=
  handoff_sound 1 accepting_reached

end RemoteDict.Handoff
