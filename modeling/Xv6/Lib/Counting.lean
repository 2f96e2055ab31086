import Mathlib.Algebra.BigOperators.Fin
import Mathlib.Tactic.Abel

/-!
# Counting over a family that changes at one index

Counters kept by concurrent code are compared with sums over all parties.  When
one party moves, exactly one term of such a sum changes.
-/

namespace Xv6

variable {ι α M : Type*} [DecidableEq ι] [AddCommMonoid M]

theorem sum_update_add_of_mem (w : α → M) (g : ι → α) {t : Finset ι} {i : ι} (hi : i ∈ t) (c : α) :
    (∑ j ∈ t, w (Function.update g i c j)) + w (g i) = (∑ j ∈ t, w (g j)) + w c := by
  have hnew := Finset.add_sum_erase t (fun j => w (Function.update g i c j)) hi
  have hold := Finset.add_sum_erase t (fun j => w (g j)) hi
  have hrest : ∑ j ∈ t.erase i, w (Function.update g i c j) = ∑ j ∈ t.erase i, w (g j) := by
    refine Finset.sum_congr rfl fun j hj => ?_
    rw [Function.update_of_ne (Finset.ne_of_mem_erase hj)]
  rw [← hnew, ← hold, hrest, Function.update_self]
  abel

theorem sum_update_add [Fintype ι] (w : α → M) (g : ι → α) (i : ι) (c : α) :
    (∑ j, w (Function.update g i c j)) + w (g i) = (∑ j, w (g j)) + w c :=
  sum_update_add_of_mem w g (Finset.mem_univ i) c

end Xv6
