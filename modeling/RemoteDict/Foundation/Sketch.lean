import Mathlib.Data.Set.Card
import Mathlib.Data.Set.Lattice
import Mathlib.Order.CompletePartialOrder
import Mathlib.Order.GaloisConnection.Basic

namespace Foundation.Sketch
variable {Key : Type u} {Index : Type v} {Coarse : Type w}

-- A set of keys marks what its keys probe, and a set of marks holds the keys that
-- find all they probe in it.
def marks (probes : Key → Set Index) (keys : Set Key) : Set Index := ⋃ key ∈ keys, probes key

def holders (probes : Key → Set Index) (sketch : Set Index) : Set Key := {key | probes key ⊆ sketch}

variable {probes : Key → Set Index} {keys : Set Key} {sketch : Set Index} {key : Key}

theorem marks_holders (probes : Key → Set Index) : GaloisConnection (marks probes) (holders probes) :=
  fun _ _ => Set.iUnion₂_subset_iff

theorem marks_insert : marks probes (insert key keys) = probes key ∪ marks probes keys := Set.biUnion_insert key keys probes

theorem marks_image (coarsen : Index → Coarse) :
    coarsen '' marks probes keys = marks (fun key => coarsen '' probes key) keys := Set.image_iUnion₂ ..

theorem marks_few {width : Nat} (each : ∀ key, (probes key).ncard ≤ width) (finite : keys.Finite) :
    (marks probes keys).ncard ≤ width * keys.ncard := by
  induction keys, finite using Set.Finite.induction_on with
  | empty => simp [marks]
  | @insert key keys fresh finite ih =>
    rw [marks_insert,Set.ncard_insert_of_notMem fresh finite,Nat.mul_succ,Nat.add_comm]
    exact Nat.le_trans (Set.ncard_union_le _ _) (Nat.add_le_add (each key) ih)

end Foundation.Sketch
