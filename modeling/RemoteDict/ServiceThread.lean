import Mathlib.Data.List.Basic

namespace RemoteDict

-- The bytes that wake a thread: a connection is waiting, or the thread is to end.
inductive Signal where
  | c
  | e
  deriving DecidableEq, Repr

-- Where the thread's loop stands: between events, in onEvent before and after
-- it took m_threadCtxMtx, or left for good.
inductive Place where
  | idle
  | woken
  | draining
  | left
  deriving DecidableEq, Repr

-- ThreadContextT with the position of the thread that owns it; `sockets` holds
-- the bytes of the socketpair that are not read yet.
structure Context where
  sockets : List Signal
  m_queue : List Nat
  place : Place
  deriving DecidableEq, Repr

namespace Context

def new : Context := ⟨[],[],.idle⟩

def write (capacity : Nat) (ctx : Context) (signal : Signal) : Option Context :=
  if ctx.sockets.length < capacity then some {ctx with sockets := ctx.sockets ++ [signal]} else none

def push_back (ctx : Context) (fd : Nat) : Context := {ctx with m_queue := ctx.m_queue ++ [fd]}

-- onEvent reads one byte; only 'c' goes on to the queue.
def read (ctx : Context) : Option (Signal × Context) :=
  match ctx.place,ctx.sockets with
  | .idle,.c :: rest => some (.c,{ctx with sockets := rest,place := .woken})
  | .idle,.e :: rest => some (.e,{ctx with sockets := rest})
  | _,_ => none

def lock (ctx : Context) : Option Context :=
  if ctx.place = .woken then some {ctx with place := .draining} else none

def pop_front (ctx : Context) : Option (Nat × Context) :=
  match ctx.place,ctx.m_queue with
  | .draining,fd :: rest => some (fd,{ctx with m_queue := rest})
  | _,_ => none

def unlock (ctx : Context) : Option Context :=
  if ctx.place = .draining ∧ ctx.m_queue = [] then some {ctx with place := .idle} else none

def leave (ctx : Context) : Option Context := if ctx.place = .idle then some {ctx with place := .left} else none

def Woken (ctx : Context) : Prop := .c ∈ ctx.sockets ∨ ctx.place = .woken

-- No wake-up is lost: what is queued is being drained, or will be.
def Attended (ctx : Context) : Prop := ctx.m_queue ≠ [] → ctx.Woken ∨ ctx.place = .draining

variable {ctx next : Context}

theorem write_exact : ctx.write capacity signal = some next ↔
    ctx.sockets.length < capacity ∧ next = {ctx with sockets := ctx.sockets ++ [signal]} := by
  simp [write,eq_comm]

theorem read_exact : ctx.read = some (signal,next) ↔ ctx.place = .idle ∧ ∃ rest, ctx.sockets = signal :: rest ∧
    next = {ctx with sockets := rest,place := if signal = .c then .woken else .idle} := by
  unfold read
  split
  · rename_i rest idle bytes
    simp only [Option.some.injEq,Prod.mk.injEq,idle,bytes,List.cons.injEq]
    grind
  · rename_i rest idle bytes
    simp only [Option.some.injEq,Prod.mk.injEq,idle,bytes,List.cons.injEq]
    grind
  · rename_i noc noe
    cases signal <;> grind

theorem lock_exact : ctx.lock = some next ↔ ctx.place = .woken ∧ next = {ctx with place := .draining} := by
  simp [lock,eq_comm]

theorem pop_front_exact : ctx.pop_front = some (fd,next) ↔ ctx.place = .draining ∧ ∃ rest, ctx.m_queue = fd :: rest ∧
    next = {ctx with m_queue := rest} := by
  unfold pop_front
  split
  · rename_i first rest draining queue
    simp only [Option.some.injEq,Prod.mk.injEq,draining,queue,List.cons.injEq]
    grind
  · rename_i other
    grind

theorem unlock_exact : ctx.unlock = some next ↔
    ctx.place = .draining ∧ ctx.m_queue = [] ∧ next = {ctx with place := .idle} := by
  simp [unlock,eq_comm,and_assoc]

theorem leave_exact : ctx.leave = some next ↔ ctx.place = .idle ∧ next = {ctx with place := .left} := by
  simp [leave,eq_comm]

theorem write_woken (written : ctx.write capacity .c = some next) : next.Woken := by
  obtain ⟨_,rfl⟩ := write_exact.mp written
  exact .inl (by simp)

theorem write_attended (attended : ctx.Attended) (written : ctx.write capacity signal = some next) : next.Attended := by
  obtain ⟨_,rfl⟩ := write_exact.mp written
  intro queued
  rcases attended queued with (byte | woken) | draining
  · exact .inl (.inl (List.mem_append_left _ byte))
  · exact .inl (.inr woken)
  · exact .inr draining

theorem push_attended (woken : ctx.Woken) (fd : Nat) : (ctx.push_back fd).Attended := fun _ => .inl woken

theorem read_woken (woken : ctx.Woken) (got : ctx.read = some (signal,next)) : next.Woken := by
  obtain ⟨idle,rest,bytes,rfl⟩ := read_exact.mp got
  cases signal with
  | c => exact .inr rfl
  | e =>
    rcases woken with byte | place
    · rw [bytes] at byte
      exact .inl (by simpa using byte)
    · rw [idle] at place
      cases place

theorem read_attended (attended : ctx.Attended) (got : ctx.read = some (signal,next)) : next.Attended := by
  have reading := got
  obtain ⟨idle,rest,bytes,rfl⟩ := read_exact.mp got
  intro queued
  rcases attended queued with woken | draining
  · exact .inl (read_woken woken reading)
  · rw [idle] at draining
    cases draining

theorem lock_attended (locked : ctx.lock = some next) : next.Attended := by
  obtain ⟨_,rfl⟩ := lock_exact.mp locked
  exact fun _ => .inr rfl

theorem pop_front_attended (popped : ctx.pop_front = some (fd,next)) : next.Attended := by
  obtain ⟨draining,rest,_,rfl⟩ := pop_front_exact.mp popped
  exact fun _ => .inr draining

theorem unlock_attended (unlocked : ctx.unlock = some next) : next.Attended := by
  obtain ⟨_,empty,rfl⟩ := unlock_exact.mp unlocked
  exact fun queued => absurd empty queued

theorem write_still (woken : ctx.Woken) (written : ctx.write capacity signal = some next) : next.Woken := by
  obtain ⟨_,rfl⟩ := write_exact.mp written
  exact woken.imp_left (List.mem_append_left _)

theorem leave_woken (woken : ctx.Woken) (left : ctx.leave = some next) : next.Woken := by
  obtain ⟨idle,rfl⟩ := leave_exact.mp left
  rcases woken with byte | place
  · exact .inl byte
  · rw [idle] at place
    cases place

theorem leave_attended (attended : ctx.Attended) (left : ctx.leave = some next) : next.Attended := by
  have leaving := left
  obtain ⟨idle,rfl⟩ := leave_exact.mp left
  intro queued
  rcases attended queued with woken | draining
  · exact .inl (leave_woken woken leaving)
  · rw [idle] at draining
    cases draining

end Context
end RemoteDict
