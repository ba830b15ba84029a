import Mathlib

/-! # Loops that update one entry of a family a round

A loop over records whose keys are distinct rewrites the entry at each record's key, reading
what that entry holds. An entry sees at most the round of its own record.
-/

namespace Sylar.Collection

variable {ι κ σ : Type*} [DecidableEq κ]

/-- `for (auto& i : l) f[key(i)] = step(i, f[key(i)])`. -/
def updateAll (key : ι → κ) (step : ι → σ → σ) (l : List ι) (f : κ → σ) : κ → σ :=
  l.foldl (fun f i => Function.update f (key i) (step i (f (key i)))) f

variable {key : ι → κ} {step : ι → σ → σ}

theorem updateAll_of_forall_ne {k : κ} {l : List ι} (f : κ → σ) (hl : ∀ i ∈ l, key i ≠ k) :
    updateAll key step l f k = f k := by
  induction l generalizing f with
  | nil => rfl
  | cons i l ih =>
      have hrest : ∀ j ∈ l, key j ≠ k := fun j hj => hl j (List.mem_cons_of_mem i hj)
      have hne : k ≠ key i := (hl i List.mem_cons_self).symm
      exact (ih _ hrest).trans (Function.update_of_ne hne _ f)

theorem updateAll_of_mem {i : ι} {l : List ι} (f : κ → σ)
    (hl : l.Pairwise fun i j => key i ≠ key j) (hi : i ∈ l) :
    updateAll key step l f (key i) = step i (f (key i)) := by
  induction l generalizing f with
  | nil => cases hi
  | cons j l ih =>
      obtain ⟨hhead, htail⟩ := List.pairwise_cons.mp hl
      obtain rfl | hmem := List.mem_cons.mp hi
      · have hrest : ∀ j ∈ l, key j ≠ key i := fun j hj => (hhead j hj).symm
        exact (updateAll_of_forall_ne _ hrest).trans (Function.update_self ..)
      · have hne : key i ≠ key j := (hhead i hmem).symm
        exact (ih _ htail hmem).trans (congrArg (step i) (Function.update_of_ne hne _ f))

/-- Keys may repeat if a second round of a step changes nothing. -/
theorem updateAll_of_idempotent {g : σ → σ} (hg : ∀ x, g (g x) = g x) (l : List κ) (f : κ → σ)
    (k : κ) : updateAll id (fun _ => g) l f k = if k ∈ l then g (f k) else f k := by
  induction l generalizing f with
  | nil => rfl
  | cons i l ih =>
      refine (ih _).trans ?_
      by_cases hk : k = i
      · subst hk
        simp [hg]
      · simp [hk]

/-- With distinct keys, looking up the key of a member finds the member. -/
theorem find?_key_of_mem {i : ι} {l : List ι} (hl : l.Pairwise fun i j => key i ≠ key j)
    (hi : i ∈ l) : l.find? (fun j => key j = key i) = some i := by
  induction l with
  | nil => cases hi
  | cons j l ih =>
      obtain ⟨hhead, htail⟩ := List.pairwise_cons.mp hl
      obtain rfl | hmem := List.mem_cons.mp hi
      · simp
      · rw [List.find?_cons_of_neg (by simpa using hhead i hmem)]
        exact ih htail hmem

end Sylar.Collection
