import Mathlib.Algebra.Group.Nat.Defs

namespace Foundation.Rotation

-- Of n turns, counted from 1, turn k goes to position k % T; share is what
-- position i has had.
def share (T n i : Nat) : Nat := n / T + if 0 < i ∧ i ≤ n % T then 1 else 0

theorem share_zero (T i : Nat) : share T 0 i = 0 := by
  rw [share,Nat.zero_div,Nat.zero_mod,if_neg (by omega)]

theorem next_turn (positive : 0 < T) (n : Nat) :
    (n % T + 1 = T ∧ (n + 1) / T = n / T + 1 ∧ (n + 1) % T = 0) ∨
    (n % T + 1 < T ∧ (n + 1) / T = n / T ∧ (n + 1) % T = n % T + 1) := by
  have less := Nat.mod_lt n positive
  have parts := Nat.div_add_mod n T
  rcases Nat.lt_or_eq_of_le (Nat.succ_le_of_lt less) with inside | ended
  · have written : n + 1 = n % T + 1 + n / T * T := by
      rw [Nat.mul_comm (n / T)]
      omega
    refine .inr ⟨inside,?_,?_⟩
    · rw [written,Nat.add_mul_div_right _ _ positive,Nat.div_eq_of_lt inside,Nat.zero_add]
    · rw [written,Nat.add_mul_mod_self_right,Nat.mod_eq_of_lt inside]
  · have written : n + 1 = (n / T + 1) * T := by
      rw [Nat.add_mul,Nat.one_mul,Nat.mul_comm (n / T)]
      omega
    refine .inl ⟨ended,?_,?_⟩
    · rw [written,Nat.mul_div_cancel _ positive]
    · rw [written,Nat.mul_mod_left]

theorem share_succ (inside : i < T) (n : Nat) :
    share T (n + 1) i = share T n i + if i = (n + 1) % T then 1 else 0 := by
  have less := Nat.mod_lt n (Nat.zero_lt_of_lt inside)
  unfold share
  rcases next_turn (Nat.zero_lt_of_lt inside) n with ⟨ended,round,turn⟩ | ⟨further,round,turn⟩
  · rw [round,turn]
    split <;> split <;> split <;> omega
  · rw [round,turn]
    split <;> split <;> split <;> omega

theorem share_close (T n i j : Nat) : share T n i ≤ share T n j + 1 := by
  unfold share
  split <;> split <;> omega

end Foundation.Rotation
