import Mathlib.Algebra.BigOperators.Ring.Finset
import Mathlib.Algebra.Order.BigOperators.Group.Finset
import Mathlib.Algebra.Order.BigOperators.Group.List
import Mathlib.Algebra.Order.Ring.Int
import Mathlib.Data.List.Sort

namespace LocalVault.Library

/-- A quantity summed over the members of a pool of threads. -/
def pooled (n : Nat) (f : Nat → Nat) : Nat := ∑ i ∈ Finset.range n, f i

variable {n i : Nat} {f g : Nat → Nat}

/-- When one member changes, the sum changes by as much. -/
theorem pooled_change (hi : i < n) (h : ∀ j, j ≠ i → g j = f j) :
    pooled n g + f i = pooled n f + g i := by
  have hmem : i ∈ Finset.range n := Finset.mem_range.mpr hi
  have hrest : ∑ j ∈ (Finset.range n).erase i, g j = ∑ j ∈ (Finset.range n).erase i, f j :=
    Finset.sum_congr rfl (fun j hj => h j (Finset.ne_of_mem_erase hj))
  unfold pooled
  rw [← Finset.add_sum_erase _ g hmem, ← Finset.add_sum_erase _ f hmem, hrest]
  omega

/-- When one member changes and no other has less, the sum loses no more than that member. -/
theorem pooled_change_le (hi : i < n) (h : ∀ j, j ≠ i → f j ≤ g j) :
    pooled n f + g i ≤ pooled n g + f i := by
  have hmem : i ∈ Finset.range n := Finset.mem_range.mpr hi
  have hrest : ∑ j ∈ (Finset.range n).erase i, f j ≤ ∑ j ∈ (Finset.range n).erase i, g j :=
    Finset.sum_le_sum (fun j hj => h j (Finset.ne_of_mem_erase hj))
  unfold pooled
  rw [← Finset.add_sum_erase _ g hmem, ← Finset.add_sum_erase _ f hmem]
  omega

theorem pooled_mono (h : ∀ j, f j ≤ g j) : pooled n f ≤ pooled n g :=
  Finset.sum_le_sum (fun j _ => h j)

theorem pooled_same (hi : i < n) (h : ∀ j, j ≠ i → g j = f j) (he : g i = f i) :
    pooled n g = pooled n f := by
  have := pooled_change hi h
  omega

theorem pooled_eq_zero : pooled n f = 0 ↔ ∀ i < n, f i = 0 := by
  simp [pooled]

theorem le_pooled (hi : i < n) : f i ≤ pooled n f :=
  Finset.single_le_sum (fun _ _ => Nat.zero_le _) (Finset.mem_range.mpr hi)

end LocalVault.Library
