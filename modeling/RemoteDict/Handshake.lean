import Mathlib.Logic.Function.Basic
import RemoteDict.Foundation.Machine

namespace RemoteDict.Handshake
open Foundation

-- The end of run(): the loop until 'e' is read, exitLoop and the two seconds
-- after it, m_exited, the mutex and notify_one under it.
inductive Tail where
  | looping
  | leaving
  | left
  | stored
  | locked
  | notified
  | ended
  deriving DecidableEq, Repr

-- stop() of thread k. The predicate is tested under the mutex, and blocking
-- gives it back in the same step.
inductive Main (n : Nat) where
  | next (k : Nat)
  | writing (k : Fin n)
  | locking (k : Fin n)
  | testing (k : Fin n)
  | entering (k : Fin n)
  | blocked (k : Fin n)
  | waking (k : Fin n)
  | returning (k : Fin n)
  deriving DecidableEq

inductive Holder (n : Nat) where
  | free
  | main
  | thread (i : Fin n)
  deriving DecidableEq

-- Thread 0 is the listener, the others are the workers in the order of their
-- list; all have made their pair. `told` says that 'e' is in the socketpair.
structure State (n : Nat) where
  main : Main n
  m_threadStopMtx : Holder n
  threads : Fin n → Tail
  m_processExiting : Fin n → Bool
  told : Fin n → Bool
  m_exited : Fin n → Bool

inductive Move (n : Nat) where
  | stop
  | write (ok : Bool)
  | lock
  | test
  | wait
  | spurious
  | unlock
  | read (i : Fin n)
  | leave (i : Fin n)
  | store (i : Fin n)
  | acquire (i : Fin n)
  | notify_one (i : Fin n)
  | release (i : Fin n)

variable {n : Nat}

def Main.wake : Main n → Main n
  | .blocked k => .waking k
  | main => main

def go (s : State n) (i : Fin n) (place there : Tail) : Option (State n) :=
  if s.threads i = place then some {s with threads := Function.update s.threads i there} else none

def act (s : State n) : Move n → Option (State n)
  | .stop =>
    match s.main with
    | .next k =>
      if more : k < n then
        some {s with main := .writing ⟨k,more⟩,m_processExiting := Function.update s.m_processExiting ⟨k,more⟩ true}
      else none
    | _ => none
  | .write ok =>
    match s.main with
    | .writing k =>
      some (if ok then {s with main := .locking k,told := Function.update s.told k true} else {s with main := .next (k + 1)})
    | _ => none
  | .lock =>
    match s.main with
    | .locking k | .waking k =>
      if s.m_threadStopMtx = .free then some {s with main := .testing k,m_threadStopMtx := .main} else none
    | _ => none
  | .test =>
    match s.main with
    | .testing k => some {s with main := if s.m_exited k then .returning k else .entering k}
    | _ => none
  | .wait =>
    match s.main with
    | .entering k => some {s with main := .blocked k,m_threadStopMtx := .free}
    | _ => none
  | .spurious =>
    match s.main with
    | .blocked k => some {s with main := .waking k}
    | _ => none
  | .unlock =>
    match s.main with
    | .returning k => some {s with main := .next (k + 1),m_threadStopMtx := .free}
    | _ => none
  | .read i => if s.told i then go {s with told := Function.update s.told i false} i .looping .leaving else none
  | .leave i => go s i .leaving .left
  | .store i => go {s with m_exited := Function.update s.m_exited i true} i .left .stored
  | .acquire i => if s.m_threadStopMtx = .free then go {s with m_threadStopMtx := .thread i} i .stored .locked else none
  | .notify_one i => go {s with main := s.main.wake} i .locked .notified
  | .release i => go {s with m_threadStopMtx := .free} i .notified .ended

def shutdown (n : Nat) : Machine (State n) (Move n) where
  start := ⟨.next 0,.free,fun _ => .looping,fun _ => false,fun _ => false,fun _ => false⟩
  step := act

variable {s next : State n}

theorem go_exact : go s i place there = some next ↔
    s.threads i = place ∧ next = {s with threads := Function.update s.threads i there} := by
  simp only [go,Option.ite_none_right_eq_some,Option.some.injEq,eq_comm (b := next)]

theorem act_stop : act s .stop = some next ↔ ∃ k : Fin n, s.main = .next k ∧
    next = {s with main := .writing k,m_processExiting := Function.update s.m_processExiting k true} := by
  cases standing : s.main with
  | next k =>
    simp only [act,standing,Option.dite_none_right_eq_some,Option.some.injEq,Main.next.injEq]
    constructor
    · rintro ⟨more,rfl⟩
      exact ⟨⟨k,more⟩,rfl,rfl⟩
    · rintro ⟨k,rfl,rfl⟩
      exact ⟨k.isLt,rfl⟩
  | _ => simp [act,standing]

theorem act_write : act s (.write ok) = some next ↔ ∃ k, s.main = .writing k ∧
    next = if ok then {s with main := .locking k,told := Function.update s.told k true} else {s with main := .next (k + 1)} := by
  cases standing : s.main <;> simp [act,standing,eq_comm (b := next)]

theorem act_lock : act s .lock = some next ↔ ∃ k, (s.main = .locking k ∨ s.main = .waking k) ∧ s.m_threadStopMtx = .free ∧
    next = {s with main := .testing k,m_threadStopMtx := .main} := by
  cases standing : s.main <;> simp [act,standing,eq_comm (b := next)]

theorem act_test : act s .test = some next ↔ ∃ k, s.main = .testing k ∧
    next = {s with main := if s.m_exited k then .returning k else .entering k} := by
  cases standing : s.main <;> simp [act,standing,eq_comm (b := next)]

theorem act_wait : act s .wait = some next ↔ ∃ k, s.main = .entering k ∧
    next = {s with main := .blocked k,m_threadStopMtx := .free} := by
  cases standing : s.main <;> simp [act,standing,eq_comm (b := next)]

theorem act_spurious : act s .spurious = some next ↔ ∃ k, s.main = .blocked k ∧ next = {s with main := .waking k} := by
  cases standing : s.main <;> simp [act,standing,eq_comm (b := next)]

theorem act_unlock : act s .unlock = some next ↔ ∃ k : Fin n, s.main = .returning k ∧
    next = {s with main := .next (k + 1),m_threadStopMtx := .free} := by
  cases standing : s.main <;> simp [act,standing,eq_comm (b := next)]

theorem act_read : act s (.read i) = some next ↔ s.told i = true ∧ s.threads i = .looping ∧
    next = {s with told := Function.update s.told i false,threads := Function.update s.threads i .leaving} := by
  simp only [act,Option.ite_none_right_eq_some,go_exact]

theorem act_acquire : act s (.acquire i) = some next ↔ s.m_threadStopMtx = .free ∧ s.threads i = .stored ∧
    next = {s with m_threadStopMtx := .thread i,threads := Function.update s.threads i .locked} := by
  simp only [act,Option.ite_none_right_eq_some,go_exact]

def Tail.exited : Tail → Bool
  | .looping | .leaving | .left => false
  | _ => true

def Tail.holds : Tail → Bool
  | .locked | .notified => true
  | _ => false

def Tail.done : Tail → Bool
  | .notified | .ended => true
  | _ => false

def Main.holds : Main n → Bool
  | .testing _ | .entering _ | .returning _ => true
  | _ => false

-- What holds of one thread, whatever the others do. The main thread goes from a
-- false predicate into the wait without giving the mutex back.
structure Sound (main : Main n) (holder : Holder n) (i : Fin n) (place : Tail) (exited : Bool) : Prop where
  exits : exited = place.exited
  holds : place.holds = true ↔ holder = .thread i
  entering : main = .entering i → place.done = false
  blocked : main = .blocked i → place.done = false
  returning : main = .returning i → exited = true

structure Valid (s : State n) : Prop where
  main : s.main.holds = true ↔ s.m_threadStopMtx = .main
  threads : ∀ i, Sound s.main s.m_threadStopMtx i (s.threads i) (s.m_exited i)

theorem start_valid : Valid (shutdown n).start :=
  ⟨by simp [shutdown,Main.holds],fun i => ⟨rfl,by simp [shutdown,Tail.holds],nofun,nofun,nofun⟩⟩

theorem done_exited {place : Tail} (before : place.exited = false) : place.done = false := by
  cases place <;> first | rfl | cases before

theorem wake_holds (main : Main n) : main.wake.holds = main.holds := by cases main <;> rfl

theorem wake_blocked (main : Main n) (i : Fin n) : main.wake ≠ .blocked i := by cases main <;> simp [Main.wake]

theorem wake_same {main same : Main n} (awake : ∀ k, same ≠ .waking k) (woken : main.wake = same) : main = same := by
  cases main with
  | blocked k => exact absurd woken.symm (awake k)
  | _ => exact woken

theorem Sound.frame {main later : Main n} {holder after : Holder n} (sound : Sound main holder i place exited)
    (holds : holder = .thread i ↔ after = .thread i) (entering : later = .entering i → place.done = false)
    (blocked : later = .blocked i → place.done = false) (returning : later = .returning i → exited = true) :
    Sound later after i place exited :=
  ⟨sound.exits,sound.holds.trans holds,entering,blocked,returning⟩

theorem stop_valid {k : Fin n} (valid : Valid s) (standing : s.main = .next k) :
    Valid {s with main := .writing k,m_processExiting := Function.update s.m_processExiting k true} := by
  refine ⟨?_,fun i => (valid.threads i).frame Iff.rfl nofun nofun nofun⟩
  have here := valid.main
  rw [standing] at here
  exact here

theorem lock_valid {k : Fin n} (valid : Valid s) (free : s.m_threadStopMtx = .free) :
    Valid {s with main := .testing k,m_threadStopMtx := .main} := by
  refine ⟨⟨fun _ => rfl,fun _ => rfl⟩,fun i => (valid.threads i).frame ?_ nofun nofun nofun⟩
  rw [free]
  exact ⟨nofun,nofun⟩

theorem held_valid {later : Main n} (valid : Valid s) (held : s.m_threadStopMtx = .main) (lets : later.holds = false)
    (blocked : ∀ i, later = .blocked i → (s.threads i).done = false) :
    Valid {s with main := later,m_threadStopMtx := .free} := by
  refine ⟨⟨fun holds => ?_,nofun⟩,fun i => (valid.threads i).frame ?_ ?_ (blocked i) ?_⟩
  · rw [lets] at holds
    cases holds
  · rw [held]
    exact ⟨nofun,nofun⟩
  · rintro rfl
    cases lets
  · rintro rfl
    cases lets

theorem Valid.held (valid : Valid s) (holds : s.main.holds = true) : s.m_threadStopMtx = .main := valid.main.mp holds

theorem test_valid {k : Fin n} (valid : Valid s) (standing : s.main = .testing k) :
    Valid {s with main := if s.m_exited k then .returning k else .entering k} := by
  have held := valid.held (by rw [standing]; rfl)
  cases exited : s.m_exited k with
  | true =>
    refine ⟨iff_of_true rfl held,fun i => (valid.threads i).frame Iff.rfl nofun nofun fun same => ?_⟩
    cases same
    exact exited
  | false =>
    refine ⟨iff_of_true rfl held,fun i => (valid.threads i).frame Iff.rfl (fun same => ?_) nofun nofun⟩
    cases same
    have before := (valid.threads k).exits
    rw [exited] at before
    exact done_exited before.symm

theorem go_valid {i : Fin n} (threads : next.threads = Function.update s.threads i there)
    (held : next.main.holds = true ↔ next.m_threadStopMtx = .main)
    (here : Sound next.main next.m_threadStopMtx i there (next.m_exited i))
    (exited : ∀ j, j ≠ i → next.m_exited j = s.m_exited j)
    (others : ∀ j, j ≠ i → Sound next.main next.m_threadStopMtx j (s.threads j) (s.m_exited j)) : Valid next := by
  refine ⟨held,fun j => ?_⟩
  rw [threads]
  by_cases same : j = i
  · subst same
    rw [Function.update_self]
    exact here
  · rw [Function.update_of_ne same,exited j same]
    exact others j same

theorem act_valid (valid : Valid s) (acted : act s move = some next) : Valid next := by
  cases move with
  | stop =>
    obtain ⟨k,standing,rfl⟩ := act_stop.mp acted
    exact stop_valid valid standing
  | write ok =>
    obtain ⟨k,standing,rfl⟩ := act_write.mp acted
    have free := valid.main
    rw [standing] at free
    cases ok
    · exact ⟨free,fun i => (valid.threads i).frame Iff.rfl nofun nofun nofun⟩
    · exact ⟨free,fun i => (valid.threads i).frame Iff.rfl nofun nofun nofun⟩
  | lock =>
    obtain ⟨k,_,free,rfl⟩ := act_lock.mp acted
    exact lock_valid valid free
  | test =>
    obtain ⟨k,standing,rfl⟩ := act_test.mp acted
    exact test_valid valid standing
  | wait =>
    obtain ⟨k,standing,rfl⟩ := act_wait.mp acted
    refine held_valid valid (valid.held (by rw [standing]; rfl)) rfl fun i same => ?_
    cases same
    exact (valid.threads k).entering standing
  | spurious =>
    obtain ⟨k,standing,rfl⟩ := act_spurious.mp acted
    have free := valid.main
    rw [standing] at free
    exact ⟨free,fun i => (valid.threads i).frame Iff.rfl nofun nofun nofun⟩
  | unlock =>
    obtain ⟨k,standing,rfl⟩ := act_unlock.mp acted
    exact held_valid valid (valid.held (by rw [standing]; rfl)) rfl nofun
  | read i =>
    obtain ⟨_,place,rfl⟩ := act_read.mp acted
    refine go_valid (s:=s) rfl valid.main ?_ (fun _ _ => rfl) fun j _ => valid.threads j
    have sound := valid.threads i
    rw [place] at sound
    exact {sound with}
  | leave i =>
    obtain ⟨place,rfl⟩ := go_exact.mp acted
    refine go_valid (s:=s) rfl valid.main ?_ (fun _ _ => rfl) fun j _ => valid.threads j
    have sound := valid.threads i
    rw [place] at sound
    exact {sound with}
  | store i =>
    obtain ⟨place,rfl⟩ := go_exact.mp acted
    refine go_valid (s:=s) rfl valid.main ?_ (fun j other => Function.update_of_ne other _ _) fun j _ => valid.threads j
    have sound := valid.threads i
    rw [show s.threads i = .left from place] at sound
    simp only [Function.update_self]
    exact {sound with exits := rfl,returning := fun _ => rfl}
  | acquire i =>
    obtain ⟨free,place,rfl⟩ := act_acquire.mp acted
    have sound := valid.threads i
    rw [place] at sound
    refine go_valid (s:=s) rfl ?_ {sound with holds := iff_of_true rfl rfl} (fun _ _ => rfl) fun j other => ?_
    · have lets := valid.main
      rw [free] at lets
      exact lets.trans ⟨nofun,nofun⟩
    · have elsewhere := valid.threads j
      refine elsewhere.frame ?_ elsewhere.entering elsewhere.blocked elsewhere.returning
      rw [free]
      exact ⟨nofun,fun same => absurd (Holder.thread.inj same).symm other⟩
  | notify_one i =>
    obtain ⟨place,rfl⟩ := go_exact.mp acted
    have sound := valid.threads i
    rw [show s.threads i = .locked from place] at sound
    have mine := sound.holds.mp rfl
    have running : s.main.holds = false := by
      cases holds : s.main.holds with
      | true => cases mine.symm.trans (valid.held holds)
      | false => rfl
    -- The main thread is neither about to block nor left blocked.
    have awake : ∀ j place exited, Sound s.main s.m_threadStopMtx j place exited →
        Sound s.main.wake s.m_threadStopMtx j place exited := by
      intro j place exited elsewhere
      refine elsewhere.frame Iff.rfl (fun same => ?_) (fun same => absurd same (wake_blocked _ _)) fun same => ?_
      · exact elsewhere.entering (wake_same nofun same)
      · exact elsewhere.returning (wake_same nofun same)
    have out : ∀ k, s.main.wake ≠ .entering k := by
      intro k same
      have standing : s.main = .entering k := wake_same nofun same
      rw [standing] at running
      cases running
    refine go_valid (s:=s) rfl ?_ ?_ (fun _ _ => rfl) fun j _ => awake j _ _ (valid.threads j)
    · show s.main.wake.holds = true ↔ _
      rw [wake_holds]
      exact valid.main
    · have woken := awake i _ _ sound
      exact ⟨woken.exits,woken.holds,fun same => absurd same (out i),fun same => absurd same (wake_blocked _ _),woken.returning⟩
  | release i =>
    obtain ⟨place,rfl⟩ := go_exact.mp acted
    have sound := valid.threads i
    rw [show s.threads i = .notified from place] at sound
    have mine := sound.holds.mp rfl
    refine go_valid (s:=s) rfl ?_ ?_ (fun _ _ => rfl) fun j other => ?_
    · have lets := valid.main
      rw [mine] at lets
      exact lets.trans ⟨nofun,nofun⟩
    · exact ⟨sound.exits,⟨nofun,nofun⟩,fun same => absurd (sound.entering same) nofun,
        fun same => absurd (sound.blocked same) nofun,sound.returning⟩
    · have elsewhere := valid.threads j
      refine elsewhere.frame ?_ elsewhere.entering elsewhere.blocked elsewhere.returning
      rw [mine]
      exact ⟨fun same => absurd (Holder.thread.inj same).symm other,nofun⟩

theorem reached_valid (reached : (shutdown n).Reached s) : Valid s := by
  refine (shutdown n).invariant start_valid ?_ reached
  intro s move next valid acted
  exact act_valid valid acted

-- For any threads and any order of their steps and the main thread's, spurious
-- wake-ups included.
theorem handshake_sound (reached : (shutdown n).Reached s) :
    (∀ k, s.main = .returning k → s.m_exited k = true) ∧ ∀ k, s.main = .blocked k → (s.threads k).done = false := by
  have valid := reached_valid reached
  exact ⟨fun k => (valid.threads k).returning,fun k => (valid.threads k).blocked⟩

def slept : List (Move 2) :=
  [.stop,.write true,.lock,.test,.wait,.read 0,.leave 0,.store 0,.spurious,.acquire 0,.notify_one 0,.release 0,.lock,.test]

theorem handshake_sound_slept : ∃ s, (shutdown 2).run (shutdown 2).start slept = some s ∧ s.main = .returning 0 ∧
    (∀ k, s.main = .returning k → s.m_exited k = true) ∧ ∀ k, s.main = .blocked k → (s.threads k).done = false :=
  ⟨_,rfl,rfl,handshake_sound ((shutdown 2).reached_exact.mpr ⟨slept,rfl⟩)⟩

-- What stopping is for: thread after thread is told to end, and waited for
-- when it could be told.
inductive Phase (n : Nat) where
  | next (k : Nat)
  | awaiting (k : Fin n)

structure Progress (n : Nat) where
  phase : Phase n
  gone : Fin n → Bool

inductive Call (n : Nat) where
  | tell
  | fail
  | leave (i : Fin n)
  | awake

def stops (n : Nat) : Machine (Progress n) (Call n) where
  start := ⟨.next 0,fun _ => false⟩
  step s call :=
    match call,s.phase with
    | .tell,.next k => if more : k < n then some {s with phase := .awaiting ⟨k,more⟩} else none
    | .fail,.next k => if k < n then some {s with phase := .next (k + 1)} else none
    | .leave i,_ => some {s with gone := Function.update s.gone i true}
    | .awake,.awaiting k => if s.gone k then some {s with phase := .next (k + 1)} else none
    | _,_ => none

def Main.phase : Main n → Phase n
  | .next k => .next k
  | .writing k => .next k
  | .locking k | .testing k | .entering k | .blocked k | .waking k | .returning k => .awaiting k

def view (s : State n) : Progress n := ⟨s.main.phase,s.m_exited⟩

theorem wake_phase (main : Main n) : main.wake.phase = main.phase := by cases main <;> rfl

theorem handshake_stops (reached : (shutdown n).Reached s) : (stops n).Reached (view s) := by
  refine (stops n).simulates (shutdown n) view rfl ?_ reached
  intro s move next before acted
  have valid := reached_valid before
  have acted : act s move = some next := acted
  cases move with
  | stop =>
    obtain ⟨k,standing,rfl⟩ := act_stop.mp acted
    exact .inl (by simp only [view,standing,Main.phase])
  | write ok =>
    obtain ⟨k,standing,rfl⟩ := act_write.mp acted
    cases ok
    · exact .inr ⟨.fail,by simp [stops,view,standing,Main.phase]⟩
    · exact .inr ⟨.tell,by simp [stops,view,standing,Main.phase]⟩
  | lock =>
    obtain ⟨k,standing | standing,_,rfl⟩ := act_lock.mp acted
    · exact .inl (by simp only [view,standing,Main.phase])
    · exact .inl (by simp only [view,standing,Main.phase])
  | test =>
    obtain ⟨k,standing,rfl⟩ := act_test.mp acted
    cases exited : s.m_exited k <;> exact .inl (by simp [view,standing,Main.phase])
  | wait =>
    obtain ⟨k,standing,rfl⟩ := act_wait.mp acted
    exact .inl (by simp only [view,standing,Main.phase])
  | spurious =>
    obtain ⟨k,standing,rfl⟩ := act_spurious.mp acted
    exact .inl (by simp only [view,standing,Main.phase])
  | unlock =>
    obtain ⟨k,standing,rfl⟩ := act_unlock.mp acted
    have gone := (valid.threads k).returning standing
    exact .inr ⟨.awake,by simp [stops,view,standing,Main.phase,gone]⟩
  | read i =>
    obtain ⟨_,_,rfl⟩ := act_read.mp acted
    exact .inl rfl
  | leave i | release i =>
    obtain ⟨_,rfl⟩ := go_exact.mp acted
    exact .inl rfl
  | store i =>
    obtain ⟨_,rfl⟩ := go_exact.mp acted
    exact .inr ⟨.leave i,rfl⟩
  | acquire i =>
    obtain ⟨_,_,rfl⟩ := act_acquire.mp acted
    exact .inl rfl
  | notify_one i =>
    obtain ⟨_,rfl⟩ := go_exact.mp acted
    exact .inl (by simp only [view,wake_phase])

end RemoteDict.Handshake
