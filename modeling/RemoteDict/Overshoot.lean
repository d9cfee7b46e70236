import RemoteDict.Capacity
import RemoteDict.Foundation.Potential

namespace RemoteDict.Overshoot
open Foundation Handlers
open Capacity (key put)

variable {F : Type} [MembershipFilter F] {T : Nat} {s next : State (Fin T) F} {enable : Bool}

-- A worker between the size test of set and its lock.
def past : Local → Nat
  | .tested _ => 1
  | .idle | .ready _ _ | .counted _ | .looked _ _ _ | .readAll _ _ | .readSucc _ _ _ | .done _ => 0

def Bounded (s : State (Fin T) F) : Prop :=
  s.shared.dictionary.size + Potential.total past s.threads < MAX_DICT_SIZE + T

theorem past_most (here : Local) : past here ≤ 1 := by cases here <;> simp [past]

omit [MembershipFilter F] in
theorem room_bounded (room : s.shared.dictionary.size < MAX_DICT_SIZE) : Bounded s := by
  have most := Potential.total_most (n:=1) past fun i => past_most (s.threads i)
  rw [Fintype.card_fin] at most
  unfold Bounded
  omega

theorem step_bounded (built : s.shared.dictionary.Built) (bounded : Bounded s) (stepped : step s move = some next) :
    Bounded next := by
  unfold Bounded at bounded ⊢
  cases move with
  | receive i type m =>
    obtain ⟨_,idle,rfl⟩ := step_receive.mp stepped
    have total := Potential.total_update past s.threads i (.ready type m)
    rw [idle] at total
    simp only [past] at total ⊢
    omega
  | advance i =>
    obtain ⟨_,result,moved,rfl⟩ := step_advance.mp stepped
    obtain ⟨there,shared,rfl⟩ := advance_runs built moved
    have total := Potential.total_update past s.threads i there
    simp only [settle]
    generalize s.threads i = here at total moved
    cases advance_exact.mp moved with
    | tests room =>
      have inside : s.shared.dictionary.size < MAX_DICT_SIZE := by
        simpa [Dictionary.full] using room
      exact room_bounded (s:=⟨s.shared,Function.update s.threads i (.tested _),s.fault⟩) inside
    | stores stored =>
      have size := Dictionary.setLocked_size stored
      simp only [past] at total ⊢
      split at size <;> omega
    | counts | refuses | readsAll | looks | finds | misses | readsSucc | tells | leaves =>
      simp only [past] at total ⊢
      omega

theorem reached_bounded (reached : (workers (Fin T) F enable).Reached s) :
    s.shared.dictionary.Built ∧ Bounded s := by
  have start : (workers (Fin T) F enable).start.shared.dictionary.Built ∧ Bounded (workers (Fin T) F enable).start := by
    refine ⟨Dictionary.built_start enable,room_bounded ?_⟩
    cases enable <;> exact Nat.zero_lt_succ _
  have kept : ∀ (s : State (Fin T) F) move next, s.shared.dictionary.Built ∧ Bounded s →
      (workers (Fin T) F enable).step s move = some next → next.shared.dictionary.Built ∧ Bounded next :=
    fun _ _ _ both stepped => ⟨step_built both.1 stepped,step_bounded both.1 both.2 stepped⟩
  exact (workers (Fin T) F enable).invariant start kept reached

-- A dictionary with n entries, all of them under shorter keys than the nth.
structure Filled (n : Nat) (shared : Shared F) : Prop where
  built : shared.dictionary.Built
  size : shared.dictionary.size = n
  short : ∀ key ∈ shared.dictionary.m_dict, key.length < n

theorem stores_filled {shared : Shared F} (filled : Filled n shared) : ∃ next,
    advance (.tested (put n)) shared = some (.ok (.done (put n),next)) ∧ Filled (n + 1) next := by
  obtain ⟨dictionary,stored,built⟩ := Dictionary.setLocked_built filled.built (put n).key (put n).value
  have length : (put n).key.length = n := List.length_replicate
  have fresh : (put n).key ∉ shared.dictionary.m_dict := fun held => Nat.ne_of_lt (filled.short _ held) length
  refine ⟨{shared with dictionary := dictionary},advance_exact.mpr (.stores stored),built,?_,fun key held => ?_⟩
  · exact (Dictionary.setLocked_size stored).trans ((if_neg fresh).trans (congrArg Nat.succ filled.size))
  · rw [Dictionary.setLocked_dict stored,AList.mem_insert] at held
    rcases held with same | old
    · rw [same,length]
      exact Nat.lt_succ_self n
    · exact Nat.lt_succ_of_lt (filled.short key old)

theorem tests_filled {shared : Shared F} (filled : Filled n shared) (room : n < MAX_DICT_SIZE) (k : Nat) :
    advance (.ready .SET (put k)) shared = some (.ok (.tested (put k),shared)) := by
  have test : shared.dictionary.full = false := by simp [Dictionary.full,filled.size,room]
  exact advance_exact.mpr (.tests test)

-- The workers before the kth have gone on to the second place.
def swept (there here : Fin T → Local) (k : Nat) (i : Fin T) : Local := if i.val < k then there i else here i

theorem swept_update (there here : Fin T → Local) (i : Fin T) :
    Function.update (swept there here i) i (there i) = swept there here (i + 1) := by
  funext j
  by_cases same : j = i
  · subst same
    rw [Function.update_self,swept,if_pos (Nat.lt_succ_self _)]
  · have apart : j.val ≠ i.val := fun equal => same (Fin.ext equal)
    have turn : j.val < i.val ↔ j.val < i.val + 1 := by omega
    simp only [Function.update_of_ne same,swept,turn]

theorem swept_here (there here : Fin T → Local) (i : Fin T) : swept there here i i = here i := if_neg (Nat.lt_irrefl _)

theorem swept_none (there here : Fin T → Local) : swept there here 0 = here := funext fun i => if_neg (Nat.not_lt_zero i)

theorem swept_all (there here : Fin T → Local) : swept there here T = there := funext fun i => if_pos i.isLt

def testing (n : Nat) (i : Fin T) : Local := .tested (put (n + i))
def storing (n : Nat) (i : Fin T) : Local := .done (put (n + i))

section
variable {shared later : Shared F} {threads : Fin T → Local} {i : Fin T}

theorem receives (reached : (workers (Fin T) F enable).Reached ⟨shared,threads,none⟩) (idle : threads i = .idle)
    (type : RequestType) (m : Payload) :
    (workers (Fin T) F enable).Reached ⟨shared,Function.update threads i (.ready type m),none⟩ := by
  have stepped : (workers (Fin T) F enable).step ⟨shared,threads,none⟩ (.receive i type m) =
      some ⟨shared,Function.update threads i (.ready type m),none⟩ :=
    step_receive.mpr ⟨rfl,idle,rfl⟩
  exact .step reached stepped

theorem advances (reached : (workers (Fin T) F enable).Reached ⟨shared,Function.update threads i here,none⟩)
    (moved : advance here shared = some (.ok (there,later))) :
    (workers (Fin T) F enable).Reached ⟨later,Function.update threads i there,none⟩ := by
  have stepped : (workers (Fin T) F enable).step ⟨shared,Function.update threads i here,none⟩ (.advance i) =
      some ⟨later,Function.update (Function.update threads i here) i there,none⟩ :=
    step_moved (s:=⟨shared,Function.update threads i here,none⟩) rfl (Function.update_self i here threads) moved
  rw [Function.update_idem] at stepped
  exact .step reached stepped

theorem filled_reached (F : Type) [MembershipFilter F] (enable : Bool) (i : Fin T) : ∀ n ≤ MAX_DICT_SIZE, ∃ shared : Shared F,
    (workers (Fin T) F enable).Reached ⟨shared,fun _ => .idle,none⟩ ∧ Filled n shared := by
  intro n within
  induction n with
  | zero =>
    refine ⟨_,.start,Dictionary.built_start enable,?_,fun key held => ?_⟩
    · cases enable <;> rfl
    · cases enable <;> exact absurd held (AList.notMem_empty _)
  | succ n ih =>
    obtain ⟨shared,reached,filled⟩ := ih (Nat.le_of_lt within)
    obtain ⟨later,stored,more⟩ := stores_filled filled
    have tested := advances (receives (i:=i) reached rfl .SET (put n)) (tests_filled filled within n)
    have left := advances (advances tested stored) rfl
    have rest : Function.update (fun _ : Fin T => Local.idle) i .idle = fun _ => .idle := Function.update_eq_self i _
    rw [rest] at left
    exact ⟨later,left,more⟩

theorem tests_reached (filled : Filled n shared) (room : n < MAX_DICT_SIZE)
    (reached : (workers (Fin T) F enable).Reached ⟨shared,fun _ => .idle,none⟩) :
    ∀ k ≤ T, (workers (Fin T) F enable).Reached ⟨shared,swept (testing n) (fun _ => .idle) k,none⟩ := by
  intro k within
  induction k with
  | zero =>
    rw [swept_none]
    exact reached
  | succ k ih =>
    let i : Fin T := ⟨k,within⟩
    have before := ih (Nat.le_of_lt within)
    have tested := advances (receives before (swept_here _ _ i) .SET (put (n + k))) (tests_filled filled room (n + k))
    have turn : Function.update (swept (testing n) (fun _ => .idle) k) i (.tested (put (n + k))) =
        swept (testing n) (fun _ => .idle) (k + 1) := swept_update _ _ i
    rwa [turn] at tested

theorem stores_reached (filled : Filled n shared)
    (reached : (workers (Fin T) F enable).Reached ⟨shared,testing n,none⟩) :
    ∀ k ≤ T, ∃ later, (workers (Fin T) F enable).Reached ⟨later,swept (storing n) (testing n) k,none⟩ ∧
      Filled (n + k) later := by
  intro k within
  induction k with
  | zero =>
    rw [swept_none]
    exact ⟨shared,reached,filled⟩
  | succ k ih =>
    let i : Fin T := ⟨k,within⟩
    obtain ⟨middle,before,filled⟩ := ih (Nat.le_of_lt within)
    obtain ⟨later,stored,more⟩ := stores_filled filled
    have waits : swept (storing n) (testing n) k i = .tested (put (n + k)) := swept_here _ _ i
    have here : Function.update (swept (storing n) (testing n) k) i (.tested (put (n + k))) = swept (storing n) (testing n) k :=
      Function.update_eq_self_iff.mpr waits.symm
    rw [← here] at before
    have done := advances before stored
    have turn : Function.update (swept (storing n) (testing n) k) i (.done (put (n + k))) =
        swept (storing n) (testing n) (k + 1) := swept_update _ _ i
    rw [turn] at done
    exact ⟨later,done,more⟩

end

-- However the workers' calls of set fall together, the dictionary has at most one
-- entry too many for each worker but one, and that many it can have.
theorem overshoot_exact (staffed : 0 < T) (enable : Bool) :
    (∀ s, (workers (Fin T) F enable).Reached s → s.shared.dictionary.size < MAX_DICT_SIZE + T) ∧
    ∃ s, (workers (Fin T) F enable).Reached s ∧ s.shared.dictionary.size + 1 = MAX_DICT_SIZE + T := by
  constructor
  · intro s reached
    exact Nat.lt_of_le_of_lt (Nat.le_add_right _ _) (reached_bounded reached).2
  · obtain ⟨n,limit⟩ : ∃ n, MAX_DICT_SIZE = n + 1 := ⟨999999,rfl⟩
    have room : n < MAX_DICT_SIZE := limit ▸ Nat.lt_succ_self n
    obtain ⟨shared,reached,filled⟩ := filled_reached F enable ⟨0,staffed⟩ n (Nat.le_of_lt room)
    have tested := tests_reached filled room reached T (Nat.le_refl T)
    rw [swept_all] at tested
    obtain ⟨later,stored,more⟩ := stores_reached filled tested T (Nat.le_refl T)
    refine ⟨_,stored,?_⟩
    rw [limit,more.size]
    omega

theorem overshoot_exact_four :
    (∀ s, (workers (Fin 4) (BloomFilter BloomFilter.small) true).Reached s → s.shared.dictionary.size < MAX_DICT_SIZE + 4) ∧
    ∃ s, (workers (Fin 4) (BloomFilter BloomFilter.small) true).Reached s ∧
      s.shared.dictionary.size + 1 = MAX_DICT_SIZE + 4 :=
  overshoot_exact (by decide) true

end RemoteDict.Overshoot
