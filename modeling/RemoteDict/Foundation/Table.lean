import Mathlib.Data.List.AList
import Mathlib.Logic.Function.Basic

namespace Foundation.Table
variable {Key : Type u} {Entry : Key → Type v} [DecidableEq Key]

-- The number of keys of a table, as std::unordered_map::size counts them.
def size (table : AList Entry) : Nat := table.keys.length

theorem size_insert_held (table : AList Entry) (held : key ∈ table) :
    size (table.insert key entry) = size table := by
  have member := AList.mem_keys.mp held
  have positive := List.length_pos_of_mem member
  rw [size,AList.keys_insert,List.length_cons,List.length_erase_of_mem member,size]
  omega

theorem size_insert_fresh (table : AList Entry) (fresh : key ∉ table) :
    size (table.insert key entry) = size table + 1 := by
  rw [size,AList.keys_insert,List.length_cons,
    List.erase_of_not_mem (fun member => fresh (AList.mem_keys.mpr member)),size]

variable {Value : Type v} {table : AList fun _ : Key => Value}

theorem lookup_insert_exact (fresh : key ∉ table) :
    (table.insert key value).lookup k = some v ↔ k = key ∧ v = value ∨ table.lookup k = some v := by
  by_cases same : k = key
  · subst same
    rw [AList.lookup_insert,AList.lookup_eq_none.mpr fresh]
    simp [eq_comm]
  · rw [AList.lookup_insert_ne same]
    simp [same]

theorem lookup_erase_exact : (table.erase key).lookup k = some v ↔ k ≠ key ∧ table.lookup k = some v := by
  by_cases same : k = key
  · subst same
    rw [AList.lookup_erase]
    simp
  · rw [AList.lookup_erase_ne same]
    simp [same]

theorem update_exact {heap : Key → Option Value} : Function.update heap key entry k = some v ↔
    k = key ∧ entry = some v ∨ k ≠ key ∧ heap k = some v := by
  by_cases same : k = key
  · subst same
    rw [Function.update_self]
    simp
  · rw [Function.update_of_ne same]
    simp [same]

theorem mem_entries (held : table.lookup key = some value) : value ∈ (table.entries.map Sigma.snd : List Value) :=
  List.mem_map.mpr ⟨⟨key,value⟩,AList.mem_lookup_iff.mp held,rfl⟩

end Foundation.Table
