import Mathlib.Data.List.Basic

namespace Foundation.Indexed
variable {State : Type u} {Item : Type v} {Fault : Type w}

-- for(int i = 0; i < items.size(); i++): the body on each item, and an increment
-- that is not defined when i already is the largest value of its type.
def loop (limit : Nat) (overflow : Fault) (body : State → Item → Except Fault State) :
    Nat → State → List Item → Except Fault State
  | _,s,[] => .ok s
  | i,s,item :: rest =>
    match body s item with
    | .error fault => .error fault
    | .ok next => if i = limit then .error overflow else loop limit overflow body (i + 1) next rest

def each (body : State → Item → Except Fault State) : State → List Item → Except Fault State
  | s,[] => .ok s
  | s,item :: rest =>
    match body s item with
    | .error fault => .error fault
    | .ok next => each body next rest

variable {limit : Nat} {overflow : Fault} {body : State → Item → Except Fault State} {s last : State} {items : List Item}

theorem loop_exact (within : i ≤ limit) : loop limit overflow body i s items = .ok last ↔
    i + items.length ≤ limit ∧ each body s items = .ok last := by
  induction items generalizing i s with
  | nil => simp [loop,each,within]
  | cons item items ih =>
    cases ran : body s item with
    | error fault => simp [loop,each,ran]
    | ok next =>
      simp only [loop,each,ran,List.length_cons]
      by_cases largest : i = limit
      · rw [if_pos largest]
        refine iff_of_false (by simp) fun both => ?_
        omega
      · rw [if_neg largest,ih (by omega),Nat.add_right_comm,Nat.add_assoc]

theorem each_cons : each body s (item :: rest) = .ok last ↔
    ∃ next, body s item = .ok next ∧ each body next rest = .ok last := by
  cases ran : body s item with
  | error fault => simp [each,ran]
  | ok next => simp [each,ran]

theorem each_total {Fine : Item → Prop} (steps : ∀ s item, (∃ next, body s item = .ok next) ↔ Fine item) (s : State)
    (items : List Item) : (∃ last, each body s items = .ok last) ↔ ∀ item ∈ items, Fine item := by
  induction items generalizing s with
  | nil => exact iff_of_true ⟨s,rfl⟩ fun _ member => absurd member List.not_mem_nil
  | cons item items ih =>
    rw [List.forall_mem_cons]
    constructor
    · rintro ⟨last,ran⟩
      obtain ⟨next,first,rest⟩ := each_cons.mp ran
      exact ⟨(steps s item).mp ⟨next,first⟩,(ih next).mp ⟨last,rest⟩⟩
    · rintro ⟨here,later⟩
      obtain ⟨next,first⟩ := (steps s item).mpr here
      obtain ⟨last,rest⟩ := (ih next).mpr later
      exact ⟨last,each_cons.mpr ⟨next,first,rest⟩⟩

theorem mapM_exact {Result : Type x} {f : Item → Except Fault Result} {results : List Result} :
    items.mapM f = .ok results ↔ List.Forall₂ (fun item result => f item = .ok result) items results := by
  induction items generalizing results with
  | nil =>
    constructor
    · intro mapped
      cases mapped
      exact .nil
    · intro none
      cases none
      rfl
  | cons item items ih =>
    rw [List.mapM_cons]
    cases first : f item with
    | error fault =>
      refine iff_of_false nofun fun all => ?_
      cases all with
      | cons here _ =>
        rw [first] at here
        cases here
    | ok result =>
      cases rest : items.mapM f with
      | error fault =>
        refine iff_of_false nofun fun all => ?_
        cases all with
        | cons _ later =>
          rw [ih.mpr later] at rest
          cases rest
      | ok others =>
        constructor
        · intro mapped
          cases mapped
          exact .cons first (ih.mp rest)
        · intro all
          cases all with
          | cons here later =>
            rw [first] at here
            cases here
            rw [ih.mpr later] at rest
            cases rest
            rfl

theorem mapM_total {Result : Type x} {f : Item → Except Fault Result} :
    (∃ results, items.mapM f = .ok results) ↔ ∀ item ∈ items, ∃ result, f item = .ok result := by
  simp only [mapM_exact]
  induction items with
  | nil => exact iff_of_true ⟨[],.nil⟩ fun _ member => absurd member List.not_mem_nil
  | cons item items ih =>
    rw [List.forall_mem_cons,← ih]
    constructor
    · rintro ⟨_,here | ⟨here,later⟩⟩
      exact ⟨⟨_,here⟩,⟨_,later⟩⟩
    · rintro ⟨⟨result,here⟩,results,later⟩
      exact ⟨result :: results,.cons here later⟩

theorem loop_total (total : State → Item → State) (within : i ≤ limit) :
    loop limit overflow (fun s item => .ok (total s item)) i s items =
      if i + items.length ≤ limit then .ok (items.foldl total s) else .error overflow := by
  induction items generalizing i s with
  | nil => rw [if_pos (by simpa using within)]; rfl
  | cons item items ih =>
    rw [loop,List.length_cons]
    dsimp only
    by_cases largest : i = limit
    · rw [if_pos largest,if_neg (by omega)]
    · rw [if_neg largest,ih (by omega),Nat.add_right_comm,Nat.add_assoc]
      rfl

end Foundation.Indexed
