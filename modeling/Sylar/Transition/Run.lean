import Mathlib

/-! # Runs of a labelled partial transition function

`step s a` is the state after the atomic action `a`, or `none` where `a` is not
enabled. A guard restricts which enabled actions a run may take; it sees the
state before the step. Invariants are proved once per step and carried to every
state of every guarded run by the rules below.
-/

namespace Sylar.Transition

variable {σ α : Type*} {step : σ → α → Option σ} {guard : σ → α → Prop}

/-! ## Finite runs -/

/-- Execute a list of actions, first action first. -/
def run (step : σ → α → Option σ) : σ → List α → Option σ
  | s, [] => some s
  | s, a :: as => (step s a).bind fun t => run step t as

theorem run_cons (s : σ) (a : α) (as : List α) :
    run step s (a :: as) = (step s a).bind fun t => run step t as := rfl

def checkedRun (step : σ → α → Option σ) (check : σ → α → Bool) : σ → List α → Option σ
  | s, [] => some s
  | s, a :: as =>
      if check s a then (step s a).bind fun t => checkedRun step check t as else none

/-- The parties of a run of two go by numerals, which every module reads with this instance. -/
instance instNeZeroTwo : NeZero 2 := ⟨two_ne_zero⟩

/-! ## Reachability -/

/-- `t` is reached from `s` by steps that each meet the guard. -/
inductive Reaches (step : σ → α → Option σ) (guard : σ → α → Prop) (s : σ) : σ → Prop where
  | refl : Reaches step guard s s
  | tail {t u : σ} {a : α} : Reaches step guard s t → guard t a → step t a = some u →
      Reaches step guard s u

def Free : σ → α → Prop := fun _ _ => True

instance (s : σ) (a : α) : Decidable (Free s a) := inferInstanceAs (Decidable True)

theorem Reaches.trans {s t u : σ} (hst : Reaches step guard s t) (htu : Reaches step guard t u) :
    Reaches step guard s u := by
  induction htu with
  | refl => exact hst
  | tail _ hg hs ih => exact ih.tail hg hs

theorem Reaches.mono {guard' : σ → α → Prop} (hguard : ∀ s a, guard s a → guard' s a) {s t : σ}
    (h : Reaches step guard s t) : Reaches step guard' s t := by
  induction h with
  | refl => exact .refl
  | tail _ hg hs ih => exact ih.tail (hguard _ _ hg) hs

theorem Reaches.head {s t u : σ} {a : α} (hg : guard s a) (hs : step s a = some t)
    (htu : Reaches step guard t u) : Reaches step guard s u :=
  (Reaches.refl.tail hg hs).trans htu

theorem Reaches.of_checkedRun {check : σ → α → Bool}
    (hcheck : ∀ s a, check s a = true → guard s a) {s t : σ} {as : List α}
    (hr : checkedRun step check s as = some t) : Reaches step guard s t := by
  induction as generalizing s with
  | nil =>
      cases hr
      exact .refl
  | cons a as ih =>
      unfold checkedRun at hr
      split at hr
      · rename_i hc
        obtain ⟨u, hu, hut⟩ := Option.bind_eq_some_iff.mp hr
        exact .head (hcheck s a hc) hu (ih hut)
      · cases hr

theorem Reaches.of_decidedRun [∀ s a, Decidable (guard s a)] {s t : σ} {as : List α}
    (hr : checkedRun step (fun s a => decide (guard s a)) s as = some t) :
    Reaches step guard s t :=
  .of_checkedRun (fun _ _ hc => of_decide_eq_true hc) hr

theorem Reaches.of_run {s t : σ} {as : List α} (hr : run step s as = some t) :
    Reaches step Free s t := by
  induction as generalizing s with
  | nil =>
      cases hr
      exact .refl
  | cons a as ih =>
      rw [run_cons] at hr
      obtain ⟨u, hu, hut⟩ := Option.bind_eq_some_iff.mp hr
      exact .head trivial hu (ih hut)

/-- What the test of an executed run says about the state it ends in. -/
theorem exists_some_of_any {τ : Type*} {r : Option τ} {P : τ → Prop} [DecidablePred P]
    (h : r.any (fun s => decide (P s)) = true) : ∃ s, r = some s ∧ P s := by
  obtain ⟨s, hr, hs⟩ := (Option.any_eq_true _ _).mp h
  exact ⟨s, hr, of_decide_eq_true hs⟩

/-! ## Invariants -/

def Preserves (step : σ → α → Option σ) (guard : σ → α → Prop) (P : σ → Prop) : Prop :=
  ∀ s a t, P s → guard s a → step s a = some t → P t

/-- The run lemma: what every step keeps, every run keeps. -/
theorem Reaches.invariant {P : σ → Prop} (hstep : Preserves step guard P) {s t : σ}
    (h : Reaches step guard s t) (hs : P s) : P t := by
  induction h with
  | refl => exact hs
  | tail _ hg hu ih => exact hstep _ _ _ ih hg hu

/-! ## Systems that can abort

An operation that fails an assertion of the program ends the run in `error`.
-/

section Abort

variable {τ ε β : Type*} {op : τ → β → Option (Except ε τ)} {allowed : τ → β → Prop}

def abortable (op : τ → β → Option (Except ε τ)) : Except ε τ → β → Option (Except ε τ)
  | .ok s, a => op s a
  | .error _, _ => none

def onOk (allowed : τ → β → Prop) : Except ε τ → β → Prop
  | .ok s, a => allowed s a
  | .error _, _ => True

instance [∀ s a, Decidable (allowed s a)] (s : Except ε τ) (a : β) :
    Decidable (onOk allowed s a) :=
  match s with
  | .ok s => inferInstanceAs (Decidable (allowed s a))
  | .error _ => inferInstanceAs (Decidable True)

/-- `P` of a live state, `Q` of the abort. -/
def Holds (P : τ → Prop) (Q : ε → Prop) : Except ε τ → Prop
  | .ok s => P s
  | .error e => Q e

theorem preserves_abortable {P : τ → Prop} {Q : ε → Prop}
    (hop : ∀ s a r, P s → allowed s a → op s a = some r → Holds P Q r) :
    Preserves (abortable op) (onOk allowed) (Holds P Q) := by
  intro s a t hs hg ht
  cases s with
  | ok s => exact hop s a t hs hg ht
  | error e => cases ht

/-- The run did not abort, and its last state passes the test. -/
def okAnd (p : τ → Bool) : Except ε τ → Bool
  | .ok s => p s
  | .error _ => false

theorem exists_ok_of_any {r : Option (Except ε τ)} {P : τ → Prop} [DecidablePred P]
    (h : r.any (okAnd fun s => decide (P s)) = true) : ∃ s, r = some (.ok s) ∧ P s := by
  obtain ⟨r, rfl, hr⟩ := (Option.any_eq_true _ _).mp h
  cases r with
  | ok s => exact ⟨s, rfl, of_decide_eq_true hr⟩
  | error e => cases hr

end Abort

end Sylar.Transition
