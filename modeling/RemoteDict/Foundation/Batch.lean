import Mathlib.Data.List.Basic

namespace Foundation.Batch

-- Items that are collected and handed on `limit` at a time, and at the end
-- whatever is left of them.
structure Collected (Item : Type u) where
  pending : List Item
  done : List (List Item)

variable {Item : Type u} {limit : Nat} {b : Collected Item}

def add (limit : Nat) (b : Collected Item) (item : Item) : Collected Item :=
  if b.pending.length + 1 = limit then ⟨[],b.done ++ [b.pending ++ [item]]⟩ else ⟨b.pending ++ [item],b.done⟩

def finish (b : Collected Item) : List (List Item) := if b.pending.isEmpty then b.done else b.done ++ [b.pending]

def Collected.all (b : Collected Item) : List Item := b.done.flatten ++ b.pending

def Bounded (limit : Nat) (b : Collected Item) : Prop := b.pending.length < limit ∧ ∀ batch ∈ b.done, batch.length = limit

theorem add_all (limit : Nat) (b : Collected Item) (item : Item) : (add limit b item).all = b.all ++ [item] := by
  unfold add Collected.all
  split
  · rw [List.flatten_append,List.flatten_singleton,List.append_nil,List.append_assoc]
  · rw [List.append_assoc]

theorem foldl_all (limit : Nat) (b : Collected Item) (items : List Item) :
    (items.foldl (add limit) b).all = b.all ++ items := by
  induction items generalizing b with
  | nil => exact (List.append_nil _).symm
  | cons item items ih =>
    rw [List.foldl_cons,ih,add_all,List.append_assoc]
    rfl

theorem finish_flatten (b : Collected Item) : (finish b).flatten = b.all := by
  unfold finish Collected.all
  split
  · rename_i empty
    rw [List.isEmpty_iff.mp empty,List.append_nil]
  · rw [List.flatten_append,List.flatten_singleton]

theorem add_bounded (bounded : Bounded limit b) (item : Item) : Bounded limit (add limit b item) := by
  obtain ⟨room,sizes⟩ := bounded
  unfold add
  split
  · rename_i full
    refine ⟨Nat.zero_lt_of_lt room,?_⟩
    intro batch member
    rcases List.mem_append.mp member with early | last
    · exact sizes batch early
    · rw [List.mem_singleton.mp last,List.length_append,List.length_singleton]
      exact full
  · rename_i other
    refine ⟨?_,sizes⟩
    rw [List.length_append,List.length_singleton]
    omega

theorem foldl_bounded (bounded : Bounded limit b) (items : List Item) : Bounded limit (items.foldl (add limit) b) := by
  induction items generalizing b with
  | nil => exact bounded
  | cons item items ih => exact ih (add_bounded bounded item)

theorem finish_bounded (bounded : Bounded limit b) : ∀ batch ∈ finish b, batch.length ≤ limit := by
  obtain ⟨room,sizes⟩ := bounded
  unfold finish
  split
  · intro batch member
    exact Nat.le_of_eq (sizes batch member)
  · intro batch member
    rcases List.mem_append.mp member with early | last
    · exact Nat.le_of_eq (sizes batch early)
    · rw [List.mem_singleton.mp last]
      exact Nat.le_of_lt room

end Foundation.Batch
