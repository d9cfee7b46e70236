import Mathlib.Algebra.BigOperators.Fin
import Mathlib.Algebra.Order.BigOperators.Group.Finset
import Mathlib.Logic.Function.Basic
import RemoteDict.Foundation.Machine

namespace Foundation.Machine
variable {State : Type u} {Event : Type v} (m : Machine State Event)

-- What an event costs is paid out of what the state has put by and of what the
-- event brings.
def Paid (holds : State → Nat → Prop) (cost gain : Event → Nat) : Prop :=
  ∀ s n event next, holds s n → m.step s event = some next → ∃ k, holds next k ∧ k + cost event ≤ n + gain event

variable {m} {holds : State → Nat → Prop} {cost gain : Event → Nat}

theorem Paid.run (paid : m.Paid holds cost gain) (held : holds s n) (path : m.run s events = some last) :
    ∃ k, holds last k ∧ k + (events.map cost).sum ≤ n + (events.map gain).sum := by
  induction events generalizing s n with
  | nil =>
    cases path
    exact ⟨n,held,Nat.le_refl _⟩
  | cons event events ih =>
    obtain ⟨middle,first,rest⟩ := m.run_cons.mp path
    obtain ⟨k,there,here⟩ := paid _ _ _ _ held first
    obtain ⟨j,further,later⟩ := ih there rest
    refine ⟨j,further,?_⟩
    simp only [List.map_cons,List.sum_cons]
    omega

end Foundation.Machine

namespace Foundation.Potential

theorem sum_kind (price : Nat) (kind : Event → Bool) (events : List Event) :
    (events.map fun event => price * (kind event).toNat).sum = price * events.countP kind := by
  induction events with
  | nil => rfl
  | cons event events ih =>
    rw [List.map_cons,List.sum_cons,ih,List.countP_cons,Nat.mul_add,Nat.add_comm]
    cases kind event <;> rfl

section
variable {κ : Type w} {weight after : κ → Nat}

-- What all places hold together, where only finitely many of them hold anything.
def Backed (weight : κ → Nat) (n : Nat) : Prop := ∃ places : Finset κ, (∀ k ∉ places, weight k = 0) ∧ places.sum weight = n

theorem backed_empty (nothing : ∀ k, weight k = 0) : Backed weight 0 := ⟨∅,fun k _ => nothing k,rfl⟩

theorem Backed.change (backed : Backed weight n) (others : ∀ k, k ≠ place → after k = weight k) :
    ∃ m, Backed after m ∧ m + weight place = n + after place := by
  classical
  obtain ⟨places,outside,rfl⟩ := backed
  have inside := Finset.mem_insert_self place places
  have whole : (insert place places).sum weight = places.sum weight := Finset.sum_insert_of_eq_zero_if_notMem (outside place)
  have rest : ((insert place places).erase place).sum after = ((insert place places).erase place).sum weight :=
    Finset.sum_congr rfl fun k member => others k (Finset.ne_of_mem_erase member)
  refine ⟨(insert place places).sum after,⟨insert place places,fun k out => ?_,rfl⟩,?_⟩
  · rw [Finset.mem_insert,not_or] at out
    rw [others k out.1]
    exact outside k out.2
  · have before : weight place + ((insert place places).erase place).sum weight = (insert place places).sum weight :=
      Finset.add_sum_erase _ weight inside
    have later : after place + ((insert place places).erase place).sum after = (insert place places).sum after :=
      Finset.add_sum_erase _ after inside
    omega

end

variable {ι : Type u} [Fintype ι] [DecidableEq ι] {α : Type v} (weight : α → Nat)

def total (places : ι → α) : Nat := Finset.univ.sum fun i => weight (places i)

theorem total_update (places : ι → α) (i : ι) (a : α) :
    total weight (Function.update places i a) + weight (places i) = total weight places + weight a := by
  have member := Finset.mem_univ i
  rw [total,total,← Finset.add_sum_erase _ _ member,← Finset.add_sum_erase _ (fun j => weight (places j)) member,
    Function.update_self]
  have others : (Finset.univ.erase i).sum (fun j => weight (Function.update places i a j)) =
      (Finset.univ.erase i).sum fun j => weight (places j) := by
    refine Finset.sum_congr rfl fun j member => ?_
    rw [Function.update_of_ne (Finset.ne_of_mem_erase member)]
  rw [others]
  omega

omit [DecidableEq ι] in
theorem total_le {places others : ι → α} (each : ∀ i, weight (places i) ≤ weight (others i)) :
    total weight places ≤ total weight others := Finset.sum_le_sum fun i _ => each i

omit [DecidableEq ι] in
theorem total_same (a : α) : total weight (fun _ : ι => a) = Fintype.card ι * weight a := by
  rw [total,Finset.sum_const,Finset.card_univ,smul_eq_mul]

omit [DecidableEq ι] in
theorem total_most {places : ι → α} (each : ∀ i, weight (places i) ≤ n) : total weight places ≤ Fintype.card ι * n := by
  have bound := Finset.sum_le_card_nsmul Finset.univ (fun i => weight (places i)) n fun i _ => each i
  rwa [Finset.card_univ,smul_eq_mul] at bound

end Foundation.Potential
