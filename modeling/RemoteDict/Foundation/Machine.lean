import Mathlib.Data.List.Basic

namespace Foundation

-- A guarded executable step: `none` says that the event is not enabled. Runs,
-- tests and proofs all read the same guards.
structure Machine (State : Type u) (Event : Type v) where
  start : State
  step : State → Event → Option State

namespace Machine
variable {State : Type u} {Event : Type v} (m : Machine State Event)

def run : State → List Event → Option State
  | s,[] => some s
  | s,event :: rest => (m.step s event).bind (run · rest)

inductive Runs : State → List Event → State → Prop where
  | nil : Runs s [] s
  | cons : m.step s event = some middle → Runs middle rest next → Runs s (event :: rest) next

theorem run_cons : m.run s (event :: rest) = some next ↔
    ∃ middle, m.step s event = some middle ∧ m.run middle rest = some next :=
  Option.bind_eq_some_iff

theorem run_exact : m.run s events = some next ↔ m.Runs s events next := by
  induction events generalizing s with
  | nil =>
    constructor
    · rintro ⟨⟩; exact .nil
    · rintro ⟨⟩; rfl
  | cons event rest ih =>
    rw [m.run_cons]
    constructor
    · rintro ⟨middle,first,tail⟩; exact .cons first (ih.mp tail)
    · rintro (_ | ⟨first,tail⟩); exact ⟨_,first,ih.mpr tail⟩

theorem run_append : m.run s (first ++ second) = (m.run s first).bind (m.run · second) := by
  induction first generalizing s with
  | nil => rfl
  | cons event rest ih =>
    simp only [List.cons_append,run]
    cases m.step s event with
    | none => rfl
    | some middle => simpa using ih

theorem run_join (early : m.run s first = some middle) (late : m.run middle second = some next) :
    m.run s (first ++ second) = some next := by
  rw [run_append,early]
  exact late

theorem run_singleton : m.run s [event] = m.step s event := by
  simp only [run]
  cases m.step s event <;> rfl

inductive Reached : State → Prop where
  | start : Reached m.start
  | step : Reached s → m.step s event = some next → Reached next

theorem runs_reached (reached : m.Reached s) (path : m.Runs s events next) : m.Reached next := by
  induction path with
  | nil => exact reached
  | cons first _ ih => exact ih (.step reached first)

theorem reached_exact : m.Reached s ↔ ∃ events, m.run m.start events = some s := by
  constructor
  · intro reached
    induction reached with
    | start => exact ⟨[],rfl⟩
    | step _ step ih =>
      obtain ⟨events,path⟩ := ih
      exact ⟨events ++ [_],m.run_join path (m.run_singleton.trans step)⟩
  · rintro ⟨events,path⟩
    exact m.runs_reached .start (m.run_exact.mp path)

theorem invariant {Valid : State → Prop} (initial : Valid m.start)
    (preserved : ∀ s event next, Valid s → m.step s event = some next → Valid next)
    (reached : m.Reached s) : Valid s := by
  induction reached with
  | start => exact initial
  | step _ step ih => exact preserved _ _ _ ih step

-- The states a run passes through, its two ends included, and the steps it
-- takes together with the state each is taken from.
def Visits (s : State) (events : List Event) (seen : State) : Prop :=
  ∃ earlier later, events = earlier ++ later ∧ m.run s earlier = some seen

def Takes (s : State) (events : List Event) (before : State) (event : Event) : Prop :=
  ∃ earlier later, events = earlier ++ event :: later ∧ m.run s earlier = some before

theorem visits_first : m.Visits s events s := ⟨[],events,rfl,rfl⟩

theorem visits_nil : m.Visits s [] seen ↔ seen = s := by
  constructor
  · rintro ⟨earlier,later,split,path⟩
    obtain ⟨rfl,rfl⟩ := List.append_eq_nil_iff.mp split.symm
    exact (Option.some.inj path).symm
  · rintro rfl
    exact m.visits_first

theorem visits_cons (first : m.step s event = some middle) :
    m.Visits s (event :: rest) seen ↔ seen = s ∨ m.Visits middle rest seen := by
  constructor
  · rintro ⟨earlier,later,split,path⟩
    cases earlier with
    | nil => exact .inl (Option.some.inj path).symm
    | cons head earlier =>
      obtain ⟨rfl,rfl⟩ := List.cons_eq_cons.mp split
      exact .inr ⟨earlier,later,rfl,by simpa [run,first] using path⟩
  · rintro (rfl | ⟨earlier,later,rfl,path⟩)
    · exact m.visits_first
    · exact ⟨event :: earlier,later,rfl,by simpa [run,first] using path⟩

def everywhere (test : State → Bool) : State → List Event → Bool
  | s,[] => test s
  | s,event :: rest => test s && (m.step s event).elim true (everywhere test · rest)

theorem visits_everywhere {test : State → Bool} (passes : m.everywhere test s events = true) (seen : m.Visits s events t) :
    test t = true := by
  obtain ⟨earlier,later,rfl,path⟩ := seen
  induction earlier generalizing s with
  | nil =>
    cases path
    cases later with
    | nil => exact passes
    | cons event later => exact (Bool.and_eq_true_iff.mp passes).1
  | cons event earlier ih =>
    obtain ⟨middle,first,rest⟩ := m.run_cons.mp path
    have further := (Bool.and_eq_true_iff.mp passes).2
    rw [first] at further
    exact ih rest further

theorem takes_cons (first : m.step s event = some middle) :
    m.Takes s (event :: rest) before taken ↔
      (before = s ∧ taken = event) ∨ m.Takes middle rest before taken := by
  constructor
  · rintro ⟨earlier,later,split,path⟩
    cases earlier with
    | nil =>
      obtain ⟨rfl,_⟩ := List.cons_eq_cons.mp split
      exact .inl ⟨(Option.some.inj path).symm,rfl⟩
    | cons head earlier =>
      obtain ⟨rfl,rfl⟩ := List.cons_eq_cons.mp split
      exact .inr ⟨earlier,later,rfl,by simpa [run,first] using path⟩
  · rintro (⟨rfl,rfl⟩ | ⟨earlier,later,rfl,path⟩)
    · exact ⟨[],rest,rfl,rfl⟩
    · exact ⟨event :: earlier,later,rfl,by simpa [run,first] using path⟩

def along (test : State → Event → Bool) : State → List Event → Bool
  | _,[] => true
  | s,event :: rest => test s event && (m.step s event).elim true (along test · rest)

theorem takes_along {test : State → Event → Bool} (passes : m.along test s events = true) (taken : m.Takes s events before event) :
    test before event = true := by
  obtain ⟨earlier,later,rfl,path⟩ := taken
  induction earlier generalizing s with
  | nil =>
    cases path
    exact (Bool.and_eq_true_iff.mp passes).1
  | cons first earlier ih =>
    obtain ⟨middle,stepped,rest⟩ := m.run_cons.mp path
    have further := (Bool.and_eq_true_iff.mp passes).2
    rw [stepped] at further
    exact ih rest further

theorem takes_step (path : m.Runs s events next) (taken : m.Takes s events before event) :
    ∃ after, m.step before event = some after ∧ m.Visits s events after := by
  obtain ⟨earlier,later,rfl,reached⟩ := taken
  have whole := m.run_exact.mpr path
  rw [run_append,reached] at whole
  obtain ⟨after,stepped,_⟩ := m.run_cons.mp whole
  refine ⟨after,stepped,earlier ++ [event],later,by simp,?_⟩
  exact m.run_join reached (m.run_singleton.trans stepped)

theorem visits_reached (reached : m.Reached s) (seen : m.Visits s events t) : m.Reached t := by
  obtain ⟨_,_,_,path⟩ := seen
  exact m.runs_reached reached (m.run_exact.mp path)

-- A property that each step keeps exactly when a condition holds before it:
-- along a run it holds throughout exactly when the condition does at each step.
-- `Kept` collects what the steps preserve meanwhile and the comparison may use.
theorem throughout_exact {Kept Good : State → Prop} {Condition : State → Event → Prop}
    (kept : ∀ s event next, Kept s → Good s → m.step s event = some next → Kept next)
    (exact : ∀ s event next, Kept s → Good s → m.step s event = some next →
      (Good next ↔ Condition s event))
    (first : Kept s) (good : Good s) (path : m.Runs s events next) :
    (∀ t, m.Visits s events t → Good t) ↔ ∀ t event, m.Takes s events t event → Condition t event := by
  induction path with
  | nil =>
    constructor
    · rintro _ t event ⟨earlier,later,split,_⟩
      simp at split
    · intro _ t seen
      rw [m.visits_nil.mp seen]
      exact good
  | @cons s event middle rest next step tail ih =>
    simp only [m.visits_cons step,m.takes_cons step]
    have here := exact _ _ _ first good step
    constructor
    · intro all t taken
      rintro (⟨rfl,rfl⟩ | later)
      · exact here.mp (all _ (.inr m.visits_first))
      · exact (ih (kept _ _ _ first good step) (all _ (.inr m.visits_first))).mp
          (fun t seen => all t (.inr seen)) _ _ later
    · intro all t
      rintro (rfl | seen)
      · exact good
      · have next := here.mpr (all _ _ (.inl ⟨rfl,rfl⟩))
        exact (ih (kept _ _ _ first good step) next).mpr (fun t taken taking => all _ _ (.inr taking)) _ seen

theorem throughout {Good : State → Prop} {Condition : State → Event → Prop}
    (preserved : ∀ s event next, Good s → Condition s event → m.step s event = some next → Good next)
    (good : Good s) (path : m.Runs s events next)
    (condition : ∀ t event, m.Takes s events t event → Condition t event) :
    ∀ t, m.Visits s events t → Good t := by
  induction path with
  | nil =>
    intro t seen
    rw [m.visits_nil.mp seen]
    exact good
  | @cons s event middle rest next step tail ih =>
    have here := preserved _ _ _ good (condition _ _ ((m.takes_cons step).mpr (.inl ⟨rfl,rfl⟩))) step
    intro t seen
    rcases (m.visits_cons step).mp seen with rfl | later
    · exact good
    · exact ih here (fun t event taking => condition t event ((m.takes_cons step).mpr (.inr taking))) t later

-- A concrete machine follows an abstract one when each of its steps is, under
-- the view, an abstract step or none.
theorem simulates {Concrete : Type w} {Label : Type x} (concrete : Machine Concrete Label)
    (view : Concrete → State) (initial : view concrete.start = m.start)
    (matched : ∀ s label next, concrete.Reached s → concrete.step s label = some next →
      view next = view s ∨ ∃ event, m.step (view s) event = some (view next))
    {s : Concrete} (reached : concrete.Reached s) : m.Reached (view s) := by
  induction reached with
  | start =>
    rw [initial]
    exact .start
  | step before stepped ih =>
    rcases matched _ _ _ before stepped with same | ⟨event,abstract⟩
    · rw [same]
      exact ih
    · exact .step ih abstract

end Machine
end Foundation
