import Mathlib.Data.List.Basic

namespace Foundation.Lockstep

-- An object that answers calls one after another, and may fault on one.
variable {Fault : Type u} {Call : Type v} {Answer : Type w} {State : Type x} {Other : Type y}

def history (object : State → Call → Except Fault (State × Answer)) : State → List Call → Except Fault State
  | s,[] => .ok s
  | s,call :: rest =>
    match object s call with
    | .error fault => .error fault
    | .ok (next,_) => history object next rest

def answers (object : State → Call → Except Fault (State × Answer)) : State → List Call → Except Fault (List Answer)
  | _,[] => .ok []
  | s,call :: rest =>
    match object s call with
    | .error fault => .error fault
    | .ok (next,answer) => (answers object next rest).map (answer :: ·)

def Throughout (object : State → Call → Except Fault (State × Answer)) (Condition : State → Call → Prop)
    (s : State) (calls : List Call) : Prop :=
  ∀ before call after middle, calls = before ++ call :: after → history object s before = .ok middle →
    Condition middle call

variable {left : State → Call → Except Fault (State × Answer)} {right : Other → Call → Except Fault (Other × Answer)}
  {Related : State → Other → Prop} {Condition : State → Call → Prop}

theorem throughout_nil : Throughout left Condition s [] := by
  intro before call after middle split _
  cases before <;> cases split

theorem throughout_cons (first : left s call = .ok (next,answer)) :
    Throughout left Condition s (call :: rest) ↔ Condition s call ∧ Throughout left Condition next rest := by
  constructor
  · intro all
    refine ⟨all [] call rest s rfl rfl,?_⟩
    intro before other after middle split path
    exact all (call :: before) other after middle (by rw [split]; rfl) (by simpa [history,first] using path)
  · rintro ⟨here,later⟩ before other after middle split path
    cases before with
    | nil =>
      obtain ⟨rfl,_⟩ := List.cons_eq_cons.mp split
      cases path
      exact here
    | cons head before =>
      obtain ⟨rfl,rfl⟩ := List.cons_eq_cons.mp split
      exact later before other after middle rfl (by simpa [history,first] using path)

theorem history_related
    (step : ∀ s t call, Related s t → ∃ s' t' a b, left s call = .ok (s',a) ∧ right t call = .ok (t',b) ∧ Related s' t')
    (related : Related s t) (calls : List Call) :
    ∃ s' t', history left s calls = .ok s' ∧ history right t calls = .ok t' ∧ Related s' t' := by
  induction calls generalizing s t with
  | nil => exact ⟨s,t,rfl,rfl,related⟩
  | cons call rest ih =>
    obtain ⟨s',t',a,b,hl,hr,next⟩ := step s t call related
    simpa only [history,hl,hr] using ih next

-- If moreover one call is answered alike exactly under a condition, all the
-- answers are alike exactly when the condition holds at each call.
theorem answers_exact
    (step : ∀ s t call, Related s t → ∃ s' t' a b, left s call = .ok (s',a) ∧ right t call = .ok (t',b) ∧
      Related s' t' ∧ (a = b ↔ Condition s call))
    (related : Related s t) (calls : List Call) :
    ∃ as bs, answers left s calls = .ok as ∧ answers right t calls = .ok bs ∧
      (as = bs ↔ Throughout left Condition s calls) := by
  induction calls generalizing s t with
  | nil => exact ⟨[],[],rfl,rfl,fun _ => throughout_nil,fun _ => rfl⟩
  | cons call rest ih =>
    obtain ⟨s',t',a,b,hl,hr,next,same⟩ := step s t call related
    obtain ⟨as,bs,has,hbs,later⟩ := ih next
    refine ⟨a :: as,b :: bs,?_,?_,?_⟩
    · simp only [answers,hl,has]; rfl
    · simp only [answers,hr,hbs]; rfl
    · rw [List.cons_eq_cons,same,later,throughout_cons hl]

end Foundation.Lockstep
