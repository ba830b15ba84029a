import Sylar.Timer.Kept
import Sylar.Transition.Run

/-! # The two sections of `listExpiredCb`

A worker reads the clock and tests `m_timers.empty()` under the read lock; the section that
takes the expired timers runs later, under the write lock. In between any other section may
run. `reset` tests its arguments before it takes the lock, so its section may run with any.
-/

namespace Sylar.Sections

open Transition Timers

variable {ι : Type*}

/-- `reading` is the clock reading of a worker between its two sections; `drained` records
that since the first of them a cancel or an expiry left the set empty, and that no timer has
been inserted after that. -/
structure State (ι : Type*) where
  mgr : TimerManager
  reading : ι → Option Nat
  drained : ι → Bool

def State.init (now : Nat) : State ι := ⟨.init now, fun _ => none, fun _ => false⟩

def State.rearmed (s : State ι) (m : TimerManager) : State ι := { s with mgr := m }

def State.removed (s : State ι) (m : TimerManager) : State ι :=
  { s with mgr := m, drained := fun i => s.drained i || decide (m.timers = []) }

def State.inserted (s : State ι) (m : TimerManager) : State ι :=
  { s with mgr := m, drained := fun _ => false }

/-- The read-locked section: an empty set ends the call. -/
def State.checked [DecidableEq ι] (s : State ι) (i : ι) (now : Nat) : State ι :=
  if s.mgr.timers = [] then s
  else
    { s with
      reading := Function.update s.reading i (some now)
      drained := Function.update s.drained i false }

def State.took [DecidableEq ι] (s : State ι) (i : ι) (m : TimerManager) : State ι :=
  { s.removed m with reading := Function.update s.reading i none }

inductive Action (ι : Type*) where
  | check (i : ι) (now : Nat)
  | take (i : ι) (probe : Addr)
  | addTimer (now : Nat) (a : Addr) (ms : Nat) (cb : Option Cb) (recurring : Bool)
  | cancel (a : Addr)
  | refresh (now : Nat) (a : Addr)
  | reset (now : Nat) (a : Addr) (ms : Nat) (fromNow : Bool)

/-- One section: objects are allocated at unused addresses, handles name used ones. -/
def op [DecidableEq ι] (s : State ι) : Action ι → Option (Except Fault (State ι))
  | .check i now => if (s.reading i).isSome then none else some (.ok (s.checked i now))
  | .take i probe =>
      (s.reading i).bind fun now =>
        if s.mgr.issued probe then none
        else some ((s.mgr.takeExpired now probe).map fun r => s.took i r.2.2)
  | .addTimer now a ms cb recurring =>
      if s.mgr.issued a then none
      else some (.ok (s.inserted (s.mgr.addTimer now a ms cb recurring).2))
  | .cancel a =>
      if s.mgr.issued a then some ((s.mgr.cancel a).map fun r => s.removed r.2) else none
  | .refresh now a =>
      if s.mgr.issued a then some (.ok (s.rearmed (s.mgr.refresh now a).2)) else none
  | .reset now a ms fromNow =>
      if s.mgr.issued a then some (.ok (s.rearmed (s.mgr.resetLocked now a ms fromNow).2.2))
      else none

def step [DecidableEq ι] :
    Except Fault (State ι) → Action ι → Option (Except Fault (State ι)) := abortable op

/-- The write-locked section runs only if no cancel or expiry since the worker's test has left
the set without a timer to this moment, or if it takes the clock to have rolled over. -/
def Undrained (s : State ι) : Action ι → Prop
  | .take i _ => s.drained i = false ∨
      ∃ now, s.reading i = some now ∧ (s.mgr.detectClockRollover now).1 = true
  | _ => True

/-! ## The invariant -/

/-- The record of every worker between its sections agrees with the set. -/
structure Guards (s : State ι) : Prop where
  kept : Kept s.mgr
  drained : ∀ i, s.reading i ≠ none → (s.drained i = true ↔ s.mgr.timers = [])

theorem guards_init (now : Nat) : Guards (.init now : State ι) where
  kept := kept_init now
  drained := fun _ hi => (hi rfl).elim

variable {s : State ι}

theorem Guards.rearmed (h : Guards s) {m : TimerManager} (hkept : Kept m)
    (hmem : ∀ b, b ∈ m.timers ↔ b ∈ s.mgr.timers) : Guards (s.rearmed m) where
  kept := hkept
  drained := by
    intro i hi
    have hempty : m.timers = [] ↔ s.mgr.timers = [] := by
      simp only [List.eq_nil_iff_forall_not_mem, hmem]
    exact (h.drained i hi).trans hempty.symm

theorem Guards.removed (h : Guards s) {m : TimerManager} (hkept : Kept m)
    (hsub : ∀ b ∈ m.timers, b ∈ s.mgr.timers) : Guards (s.removed m) where
  kept := hkept
  drained := by
    intro i hi
    have hempty : s.mgr.timers = [] → m.timers = [] := by
      intro hnil
      apply List.eq_nil_iff_forall_not_mem.mpr
      intro b hb
      have hin := hsub b hb
      rw [hnil] at hin
      cases hin
    simp only [State.removed, Bool.or_eq_true, decide_eq_true_iff, h.drained i hi]
    exact or_iff_right_of_imp hempty

theorem Guards.inserted {m : TimerManager} (hkept : Kept m) {a : Addr} (ha : a ∈ m.timers) :
    Guards (s.inserted m) where
  kept := hkept
  drained := by
    intro i _
    constructor
    · intro hfalse
      cases hfalse
    · intro hnil
      change m.timers = [] at hnil
      rw [hnil] at ha
      cases ha

theorem Guards.checked [DecidableEq ι] (h : Guards s) (i : ι) (now : Nat) :
    Guards (s.checked i now) := by
  unfold State.checked
  split
  · exact h
  · rename_i hne
    refine ⟨h.kept, fun j hj => ?_⟩
    by_cases hji : j = i
    · subst hji
      simp [hne]
    · simp only [Function.update_of_ne hji] at hj ⊢
      exact h.drained j hj

theorem Guards.took [DecidableEq ι] (h : Guards s) (i : ι) {m : TimerManager} (hkept : Kept m)
    (hsub : ∀ b ∈ m.timers, b ∈ s.mgr.timers) : Guards (s.took i m) where
  kept := hkept
  drained := by
    intro j hj
    apply (h.removed hkept hsub).drained j
    intro hnone
    apply hj
    change Function.update s.reading i none j = none
    by_cases hji : j = i
    · rw [hji, Function.update_self]
    · rw [Function.update_of_ne hji]
      exact hnone

/-- An operation on a handle of a timer without a callback changes nothing. -/
theorem Guards.cancel (h : Guards s) {a : Addr} (ha : s.mgr.issued a = true) :
    ∃ r, s.mgr.cancel a = .ok r ∧ Guards (s.removed r.2) := by
  by_cases hcb : (s.mgr.heap a).cb = none
  · exact ⟨_, (unarmed_refused hcb 0 0 true).1, h.removed h.kept fun _ hb => hb⟩
  · obtain ⟨m, hrun, hkept, _, htimers⟩ := h.kept.cancel ha hcb
    refine ⟨_, hrun, h.removed hkept fun b hb => ?_⟩
    rw [htimers] at hb
    exact List.mem_of_mem_erase hb

theorem Guards.refresh (h : Guards s) (now : Nat) {a : Addr} (ha : s.mgr.issued a = true) :
    Guards (s.rearmed (s.mgr.refresh now a).2) := by
  by_cases hcb : (s.mgr.heap a).cb = none
  · rw [(unarmed_refused hcb now 0 true).2.1]
    exact h.rearmed h.kept fun _ => Iff.rfl
  · obtain ⟨m, hrun, hkept, _, hmem⟩ := h.kept.refresh now ha hcb
    rw [hrun]
    exact h.rearmed hkept hmem

theorem Guards.reset (h : Guards s) (now : Nat) {a : Addr} (ms : Nat) (fromNow : Bool)
    (ha : s.mgr.issued a = true) :
    Guards (s.rearmed (s.mgr.resetLocked now a ms fromNow).2.2) := by
  by_cases hcb : (s.mgr.heap a).cb = none
  · rw [(unarmed_refused hcb now ms fromNow).2.2]
    exact h.rearmed h.kept fun _ => Iff.rfl
  · obtain ⟨_, m, hrun, hkept, _, hmem⟩ := h.kept.resetLocked now ms fromNow ha hcb
    rw [hrun]
    exact h.rearmed hkept hmem

/-- The write-locked section fails where the worker's record says that the set was drained. -/
theorem Guards.take_fails (h : Guards s) {i : ι} {now : Nat} (hi : s.reading i = some now)
    {probe : Addr} {fault : Fault} (hrun : s.mgr.takeExpired now probe = .error fault) :
    fault = .emptyBegin ∧ ¬ Undrained s (.take i probe) := by
  obtain ⟨rfl, hempty, hback⟩ := (takeExpired_fails s.mgr now probe fault).mp hrun
  have hread : s.reading i ≠ none := by
    rw [hi]
    exact Option.some_ne_none now
  have hdrained : s.drained i = true := (h.drained i hread).mpr hempty
  refine ⟨rfl, fun hok => ?_⟩
  rcases hok with hok | ⟨now', hnow, hok⟩
  · rw [hdrained] at hok
    cases hok
  · cases hi.symm.trans hnow
    rw [hback] at hok
    cases hok

/-- One section keeps the invariant, and fails only where the guard forbids it. -/
theorem Guards.op [DecidableEq ι] (h : Guards s) {c : Action ι} {r : Except Fault (State ι)}
    (hr : op s c = some r) :
    Holds Guards (fun fault => fault = .emptyBegin ∧ ¬ Undrained s c) r := by
  cases c with
  | check i now =>
      simp only [Sections.op] at hr
      split at hr <;> cases hr
      exact h.checked i now
  | take i probe =>
      simp only [Sections.op] at hr
      obtain ⟨now, hi, hr⟩ := Option.bind_eq_some_iff.mp hr
      split at hr <;> cases hr
      cases hrun : s.mgr.takeExpired now probe with
      | error fault => exact h.take_fails hi hrun
      | ok r =>
          obtain ⟨hkept, _, hsub⟩ := h.kept.takeExpired hrun
          exact h.took i hkept hsub
  | addTimer now a ms cb recurring =>
      simp only [Sections.op] at hr
      split at hr <;> cases hr
      rename_i hfresh
      obtain ⟨hkept, hmem⟩ := h.kept.addTimer (Bool.eq_false_iff.mpr hfresh) now ms cb recurring
      exact Guards.inserted hkept ((hmem a).mpr (.inl rfl))
  | cancel a =>
      simp only [Sections.op] at hr
      split at hr <;> cases hr
      rename_i ha
      obtain ⟨r, hrun, hguards⟩ := h.cancel ha
      rw [hrun]
      exact hguards
  | refresh now a =>
      simp only [Sections.op] at hr
      split at hr <;> cases hr
      rename_i ha
      exact h.refresh now ha
  | reset now a ms fromNow =>
      simp only [Sections.op] at hr
      split at hr <;> cases hr
      rename_i ha
      exact h.reset now ms fromNow ha

theorem Guards.forbidden_fails [DecidableEq ι] (h : Guards s) {c : Action ι}
    {r : Except Fault (State ι)} (hr : Sections.op s c = some r) (hg : ¬ Undrained s c) :
    r = .error .emptyBegin := by
  cases c with
  | take i probe =>
      obtain ⟨hdrained, hback⟩ := not_or.mp hg
      simp only [Sections.op] at hr
      obtain ⟨now, hi, hr⟩ := Option.bind_eq_some_iff.mp hr
      split at hr <;> cases hr
      have hread : s.reading i ≠ none := by
        rw [hi]
        exact Option.some_ne_none now
      have hempty := (h.drained i hread).mp (Bool.eq_true_of_not_eq_false hdrained)
      have hforward : (s.mgr.detectClockRollover now).1 = false :=
        Bool.eq_false_iff.mpr fun hok => hback ⟨now, hi, hok⟩
      rw [(takeExpired_fails s.mgr now probe .emptyBegin).mpr ⟨rfl, hempty, hforward⟩]
      rfl
  | _ => exact (hg trivial).elim

/-! ## Every interleaving -/

theorem op_guards [DecidableEq ι] (s : State ι) (c : Action ι) (r : Except Fault (State ι))
    (h : Guards s) (hg : Undrained s c) (hr : op s c = some r) :
    Holds Guards (fun _ => False) r := by
  have hop := h.op hr
  cases r with
  | ok s' => exact hop
  | error fault => exact hop.2 hg

/-- In every interleaving whose write-locked sections meet the guard no section reads past an
empty set, and there the next one does exactly if it does not meet the guard. -/
theorem begin_in_sections [DecidableEq ι] (now : Nat) {r : Except Fault (State ι)}
    (h : Reaches step (onOk Undrained) (.ok (.init now)) r) :
    ∃ s, r = .ok s ∧ ∀ c r', step r c = some r' →
      (r' = .error .emptyBegin ↔ ¬ Undrained s c) ∧ r' ≠ .error .eraseEnd := by
  have hinv := h.invariant (preserves_abortable op_guards) (guards_init now)
  cases r with
  | error fault => exact hinv.elim
  | ok s =>
      refine ⟨s, rfl, fun c r' hr => ?_⟩
      have hop := Guards.op hinv hr
      refine ⟨⟨?_, Guards.forbidden_fails hinv hr⟩, ?_⟩
      · rintro rfl
        exact hop.2
      · rintro rfl
        cases hop.1

instance (s : State ι) (c : Action ι) : Decidable (Undrained s c) :=
  match c with
  | .take i _ =>
      decidable_of_iff (s.drained i = false ∨
          (s.reading i).any (fun now => (s.mgr.detectClockRollover now).1) = true) (by
        rw [Option.any_eq_true]
        rfl)
  | .check _ _ | .addTimer _ _ _ _ _ | .cancel _ | .refresh _ _ | .reset _ _ _ _ =>
      inferInstanceAs (Decidable True)

/-- Two workers find the only timer; the second takes nothing until a timer was added again. -/
def sharedExpiry : List (Action (Fin 2)) :=
  [.addTimer 1000 1 50 (some 7) false, .check 0 1050, .check 1 1060, .take 0 2,
    .addTimer 1060 3 50 none false, .take 1 4]

theorem begin_in_sections_shared :
    ∃ s, checkedRun step (fun s c => decide (onOk Undrained s c)) (.ok (.init 1000))
        sharedExpiry = some (.ok s) ∧
      ∀ c r', step (.ok s) c = some r' →
        (r' = .error .emptyBegin ↔ ¬ Undrained s c) ∧ r' ≠ .error .eraseEnd := by
  have hrun : (checkedRun step (fun s c => decide (onOk Undrained s c)) (.ok (.init 1000))
      sharedExpiry).isSome := by decide
  obtain ⟨r, hr⟩ := Option.isSome_iff_exists.mp hrun
  obtain ⟨s, rfl, hs⟩ := begin_in_sections 1000 (.of_decidedRun hr)
  exact ⟨s, hr, hs⟩

/-- The first worker takes the only timer between the sections of the second. -/
def drainedExpiry : List (Action (Fin 2)) :=
  [.addTimer 1000 1 50 (some 7) false, .check 0 1050, .check 1 1060, .take 0 2, .take 1 3]

theorem drained_begin :
    ¬ ∀ r : Except Fault (State (Fin 2)), Reaches step Free (.ok (.init 1000)) r →
      r ≠ .error .emptyBegin := by
  have hrun : run step (.ok (.init 1000)) drainedExpiry = some (.error .emptyBegin) := rfl
  intro h
  exact h _ (.of_run hrun) rfl

end Sylar.Sections
