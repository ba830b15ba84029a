import Mathlib

/-! # Sums under a point update

A counter that abstracts a list or a family as the sum of a weight: overwriting
one place moves the counter by the difference of the two weights there.
-/

namespace Sylar.Collection

variable {α M : Type*} [AddCommMonoid M]

/-- Overwriting one entry of a list trades its weight for the new one. -/
theorem sum_map_set (f : α → M) {l : List α} {i : Nat} {x : α} (h : l[i]? = some x) (y : α) :
    ((l.set i y).map f).sum + f x = (l.map f).sum + f y := by
  induction l generalizing i with
  | nil => cases h
  | cons a l ih =>
      cases i with
      | zero =>
          cases h
          simp only [List.set_cons_zero, List.map_cons, List.sum_cons]
          ac_rfl
      | succ i =>
          simp only [List.set_cons_succ, List.map_cons, List.sum_cons, add_assoc,
            ih (by simpa using h)]

/-- An entry weighs no more than the whole list. -/
theorem le_sum_map (f : α → Nat) {l : List α} {i : Nat} {x : α} (h : l[i]? = some x) :
    f x ≤ (l.map f).sum :=
  List.le_sum_of_mem (List.mem_map_of_mem (List.mem_of_getElem? h))

/-- Overwriting one member of a finite family trades its weight for the new one. -/
theorem sum_update {ι : Type*} [Fintype ι] [DecidableEq ι] (f : α → M) (g : ι → α) (i : ι)
    (y : α) : ∑ j, f (Function.update g i y j) + f (g i) = ∑ j, f (g j) + f y := by
  have hsplit : ∀ k : ι → α, ∑ j, f (k j) = ∑ j ∈ Finset.univ.erase i, f (k j) + f (k i) :=
    fun k => (Finset.sum_erase_add _ _ (Finset.mem_univ i)).symm
  have hrest : ∑ j ∈ Finset.univ.erase i, f (Function.update g i y j) =
      ∑ j ∈ Finset.univ.erase i, f (g j) :=
    Finset.sum_congr rfl fun j hj => by rw [Function.update_of_ne (Finset.ne_of_mem_erase hj)]
  rw [hsplit, hsplit g, hrest, Function.update_self]
  ac_rfl

end Sylar.Collection
