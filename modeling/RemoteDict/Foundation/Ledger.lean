import Mathlib.Algebra.BigOperators.Fin

namespace Foundation.Ledger

-- Tokens spread over indexed accounts: what an update of one account does to
-- the number of copies of a token that all of them hold.
variable {ι : Type u} [Fintype ι] [DecidableEq ι] {Account : Type v}

theorem sum_update (weight : Account → Nat) (accounts : ι → Account) (i : ι) (account : Account) :
    (∑ j, weight (Function.update accounts i account j)) + weight (accounts i) =
      (∑ j, weight (accounts j)) + weight account := by
  have others : ∑ j ∈ Finset.univ.erase i, weight (Function.update accounts i account j) =
      ∑ j ∈ Finset.univ.erase i, weight (accounts j) := by
    refine Finset.sum_congr rfl fun j member => ?_
    rw [Function.update_of_ne (Finset.ne_of_mem_erase member)]
  have before := Finset.add_sum_erase Finset.univ (fun j => weight (accounts j)) (Finset.mem_univ i)
  have after := Finset.add_sum_erase Finset.univ (fun j => weight (Function.update accounts i account j)) (Finset.mem_univ i)
  simp only [Function.update_self] at after
  omega

end Foundation.Ledger
