import Mathlib

/-! # The first run of a value

A list with a value in it, cut into what stands before the first run of the value, the run and
what stands behind it.
-/

namespace Sylar.Collection

variable {α : Type*} [DecidableEq α]

theorem first_run {a : α} {xs : List α} (h : a ∈ xs) :
    ∃ front count back, xs = front ++ (List.replicate (count + 1) a ++ back) ∧ a ∉ front ∧
      back.head? ≠ some a := by
  induction xs with
  | nil => cases h
  | cons x xs ih =>
      by_cases hx : x = a
      · subst hx
        by_cases hin : x ∈ xs
        · obtain ⟨front, count, back, rfl, hfront, hback⟩ := ih hin
          cases front with
          | nil => exact ⟨[], count + 1, back, rfl, List.not_mem_nil, hback⟩
          | cons y front =>
              refine ⟨[], 0, _, rfl, List.not_mem_nil, fun hhead => ?_⟩
              exact hfront (Option.some.inj hhead ▸ List.mem_cons_self)
        · exact ⟨[], 0, xs, rfl, List.not_mem_nil, fun hhead => hin (List.mem_of_head? hhead)⟩
      · obtain ⟨front, count, back, rfl, hfront, hback⟩ :=
          ih ((List.mem_cons.1 h).resolve_left fun heq => hx heq.symm)
        refine ⟨x :: front, count, back, rfl, fun hin => ?_, hback⟩
        rcases List.mem_cons.1 hin with heq | hin
        · exact hx heq.symm
        · exact hfront hin

end Sylar.Collection
