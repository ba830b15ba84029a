import Sylar.Timer.Kept
import Sylar.Transition.Run

/-! # The set and the handles over whole runs

The clock of a run may show anything, and deadlines wrap. `start` records beside the manager the
reading from which the present deadline of a timer is counted: at its creation, at a `refresh`,
at a `reset` from now, and when a recurring timer is put back.
-/

namespace Sylar.Arming

open Transition Timers

structure State where
  mgr : TimerManager
  start : Addr → UInt64

def State.init (now : UInt64) : State := ⟨.init now.toNat, fun _ => 0⟩

inductive Action where
  | addTimer (now : UInt64) (a : Addr) (ms : UInt64) (cb : Cb) (recurring : Bool)
  | cancel (a : Addr)
  | refresh (now : UInt64) (a : Addr)
  | reset (now : UInt64) (a : Addr) (ms : UInt64) (fromNow : Bool)
  | getNextTimer (now : UInt64)
  | listExpiredCb (now : UInt64) (probe : Addr)
  /-- the last handle of a timer outside the set goes, and its address may be used again -/
  | release (a : Addr)

/-- A call that counts the deadline of a timer from `now` if it says so. -/
def State.armed (s : State) (m : TimerManager) (a : Addr) (now : UInt64) (fromNow : Bool) :
    State where
  mgr := m
  start := if fromNow then Function.update s.start a now else s.start

/-- The recurring timers among those that expired are armed from `now`. -/
def State.expired (s : State) (m : TimerManager) (now : UInt64) (expired : List Addr) : State where
  mgr := m
  start := fun a => if a ∈ expired ∧ (s.mgr.heap a).recurring = true then now else s.start a

/-- One call: objects are allocated at unused addresses, handles name used ones. -/
def op (s : State) : Action → Option (Except Fault State)
  | .addTimer now a ms cb recurring =>
      if s.mgr.issued a then none
      else
        some (.ok (s.armed (s.mgr.addTimer now.toNat a ms.toNat (some cb) recurring).2 a now true))
  | .cancel a =>
      if s.mgr.issued a then some ((s.mgr.cancel a).map fun r => { s with mgr := r.2 }) else none
  | .refresh now a =>
      if s.mgr.issued a then
        let r := s.mgr.refresh now.toNat a
        some (.ok (s.armed r.2 a now r.1))
      else none
  | .reset now a ms fromNow =>
      if s.mgr.issued a then
        let r := s.mgr.reset now.toNat a ms.toNat fromNow
        some (.ok (s.armed r.2.2 a now (r.1 && fromNow)))
      else none
  | .getNextTimer now => some (.ok { s with mgr := (s.mgr.getNextTimer now.toNat).2 })
  | .listExpiredCb now probe =>
      if s.mgr.issued probe then none
      else
        some ((s.mgr.listExpiredCb now.toNat probe).map fun r => s.expired r.2.2 now r.1)
  | .release a =>
      if s.mgr.issued a = true ∧ a ∉ s.mgr.timers then
        some (.ok { s with
          mgr := { s.mgr with issued := Function.update s.mgr.issued a false } })
      else none

def step : Except Fault State → Action → Option (Except Fault State) := abortable op

/-! ## The invariant -/

/-- The set holds the timers with a callback in order, and one period before the deadline of a
timer, modulo `2 ^ 64`, its arming started. -/
structure Counted (s : State) : Prop where
  represents : Represents s.mgr
  started : ∀ a, s.mgr.issued a = true →
    u64Sub (s.mgr.heap a).next (s.mgr.heap a).ms = (s.start a).toNat

theorem counted_init (now : UInt64) : Counted (.init now) where
  represents := represents_init now.toNat
  started := by
    intro a ha
    cases ha

variable {s : State}

/-- What wraps in the sum wraps back in the difference. -/
theorem u64Sub_u64 {start : Nat} (h : start < 2 ^ 64) (ms : Nat) :
    u64Sub (u64 (start + ms)) ms = start := by
  simp only [u64Sub, u64]
  omega

theorem Counted.arm (h : Counted s) {a : Addr} {m : TimerManager} {t : Timer} {x : UInt64}
    (hrep : Represents m) (hheap : m.heap = Function.update s.mgr.heap a t)
    (hissued : ∀ b, b ≠ a → m.issued b = s.mgr.issued b)
    (hstart : u64Sub t.next t.ms = x.toNat) :
    Counted ⟨m, Function.update s.start a x⟩ where
  represents := hrep
  started := by
    intro b hb
    change u64Sub (m.heap b).next (m.heap b).ms = (Function.update s.start a x b).toNat
    rw [hheap]
    by_cases hba : b = a
    · subst hba
      rwa [Function.update_self, Function.update_self]
    · rw [Function.update_of_ne hba, Function.update_of_ne hba]
      exact h.started b (hissued b hba ▸ hb)

/-! ## One call -/

theorem Counted.addTimer (h : Counted s) {a : Addr} (ha : s.mgr.issued a = false)
    (now ms : UInt64) (cb : Cb) (recurring : Bool) :
    Counted
      (s.armed (s.mgr.addTimer now.toNat a ms.toNat (some cb) recurring).2 a now true) := by
  obtain ⟨hrep, hheap, -⟩ := h.represents.addTimer ha now.toNat ms.toNat cb recurring
  exact h.arm hrep hheap (fun b hb => Function.update_of_ne hb _ _)
    (u64Sub_u64 now.toNat_lt ms.toNat)

theorem Counted.cancel (h : Counted s) {a : Addr} (ha : s.mgr.issued a = true) :
    ∃ r, s.mgr.cancel a = .ok r ∧ Counted { s with mgr := r.2 } := by
  obtain ⟨hout, hin⟩ := h.represents.cancel ha
  by_cases hmem : a ∈ s.mgr.timers
  · obtain ⟨m, hrun, hrep, hheap, -, hissued, -⟩ := hin hmem
    have harm := h.arm hrep hheap (fun b _ => congrFun hissued b) (h.started a ha)
    rw [Function.update_eq_self] at harm
    exact ⟨_, hrun, harm⟩
  · exact ⟨_, hout hmem, h⟩

theorem Counted.refresh (h : Counted s) (now : UInt64) {a : Addr} (ha : s.mgr.issued a = true) :
    Counted (s.armed (s.mgr.refresh now.toNat a).2 a now (s.mgr.refresh now.toNat a).1) := by
  obtain ⟨hout, hin⟩ := h.represents.refresh now.toNat ha
  by_cases hmem : a ∈ s.mgr.timers
  · obtain ⟨m, hrun, hrep, hheap, -, hissued, -⟩ := hin hmem
    rw [hrun]
    exact h.arm hrep hheap (fun b _ => congrFun hissued b)
      (u64Sub_u64 now.toNat_lt (s.mgr.heap a).ms)
  · rw [hout hmem]
    exact h

theorem Counted.reset (h : Counted s) (now : UInt64) {a : Addr} (ms : UInt64) (fromNow : Bool)
    (ha : s.mgr.issued a = true) :
    Counted (s.armed (s.mgr.reset now.toNat a ms.toNat fromNow).2.2 a now
      ((s.mgr.reset now.toNat a ms.toNat fromNow).1 && fromNow)) := by
  obtain ⟨hsame, hout, hin⟩ := h.represents.reset now.toNat ha ms.toNat fromNow
  by_cases hkept : ms.toNat = (s.mgr.heap a).ms ∧ ¬ fromNow
  · rw [hsame hkept, Bool.eq_false_iff.mpr hkept.2]
    exact h
  · by_cases hmem : a ∈ s.mgr.timers
    · obtain ⟨_, m, hrun, hrep, hheap, -, hissued, -⟩ := hin hkept hmem
      rw [hrun, Bool.true_and]
      cases fromNow with
      | true =>
          exact h.arm hrep hheap (fun b _ => congrFun hissued b)
            (u64Sub_u64 now.toNat_lt ms.toNat)
      | false =>
          have hstart : u64Sub (resetTimer (s.mgr.heap a) now.toNat ms.toNat false).next ms.toNat =
              (s.start a).toNat := by
            rw [← h.started a ha]
            exact u64Sub_u64 (Nat.mod_lt _ (Nat.two_pow_pos 64)) ms.toNat
          have harm := h.arm hrep hheap (fun b _ => congrFun hissued b) hstart
          rw [Function.update_eq_self] at harm
          exact harm
    · rw [hout hkept hmem]
      exact h

theorem Counted.listExpiredCb (h : Counted s) {now : UInt64} {probe : Addr}
    {r : List Addr × List (Option Cb) × TimerManager}
    (hr : s.mgr.listExpiredCb now.toNat probe = .ok r) :
    Counted (s.expired r.2.2 now r.1) := by
  have htakes := h.represents.listExpiredCb_takes hr
  have hheap := listExpiredCb_heap h.represents.ordered hr
  refine ⟨htakes.represents, fun a ha => ?_⟩
  have hold := h.started a (congrFun htakes.issued a ▸ ha)
  change u64Sub (r.2.2.heap a).next (r.2.2.heap a).ms = UInt64.toNat (if _ then _ else _)
  rw [hheap]
  by_cases hexp : a ∈ r.1
  · rw [if_pos hexp, firedTimer]
    by_cases hrec : (s.mgr.heap a).recurring = true
    · rw [if_pos hrec, if_pos ⟨hexp, hrec⟩]
      exact u64Sub_u64 now.toNat_lt (s.mgr.heap a).ms
    · rw [if_neg hrec, if_neg fun hboth => hrec hboth.2]
      exact hold
  · rw [if_neg hexp, if_neg fun hboth => hexp hboth.1]
    exact hold

theorem Counted.release (h : Counted s) {a : Addr} (hout : a ∉ s.mgr.timers) :
    Counted
      { s with mgr := { s.mgr with issued := Function.update s.mgr.issued a false } } where
  represents := by
    refine ⟨h.represents.ordered, fun b => ?_⟩
    change b ∈ s.mgr.timers ↔
      Function.update s.mgr.issued a false b = true ∧ (s.mgr.heap b).cb ≠ none
    by_cases hba : b = a
    · subst hba
      rw [Function.update_self]
      exact ⟨fun hin => (hout hin).elim, fun hfreed => (by cases hfreed.1)⟩
    · rw [Function.update_of_ne hba]
      exact h.represents.pending b
  started := by
    intro b hb
    change Function.update s.mgr.issued a false b = true at hb
    by_cases hba : b = a
    · rw [hba, Function.update_self] at hb
      cases hb
    · rw [Function.update_of_ne hba] at hb
      exact h.started b hb

theorem op_counted (s : State) (c : Action) (r : Except Fault State) (h : Counted s)
    (_ : Free s c) (hr : op s c = some r) : Holds Counted (fun _ => False) r := by
  cases c with
  | addTimer now a ms cb recurring =>
      simp only [op] at hr
      split at hr <;> cases hr
      rename_i hfresh
      exact h.addTimer (Bool.eq_false_iff.mpr hfresh) now ms cb recurring
  | cancel a =>
      simp only [op] at hr
      split at hr <;> cases hr
      rename_i ha
      obtain ⟨r, hrun, hcounted⟩ := h.cancel ha
      rw [hrun]
      exact hcounted
  | refresh now a =>
      simp only [op] at hr
      split at hr <;> cases hr
      rename_i ha
      exact h.refresh now ha
  | reset now a ms fromNow =>
      simp only [op] at hr
      split at hr <;> cases hr
      rename_i ha
      exact h.reset now ms fromNow ha
  | getNextTimer now =>
      cases hr
      rw [getNextTimer_shared]
      exact ⟨⟨h.represents.ordered, h.represents.pending⟩, h.started⟩
  | listExpiredCb now probe =>
      simp only [op] at hr
      split at hr <;> cases hr
      obtain ⟨r, hrun⟩ := listExpiredCb_succeeds s.mgr now.toNat probe
      rw [hrun]
      exact h.listExpiredCb hrun
  | release a =>
      simp only [op] at hr
      split at hr <;> cases hr
      rename_i hout
      exact h.release hout.2

/-! ## Every run -/

/-- What every call finds. `cancel` looks for the timer when it has cleared the callback, `refresh`
and `reset` before they change a field. -/
structure Consistent (s : State) : Prop where
  ordered : s.mgr.timers.Pairwise fun a b =>
    (s.mgr.heap a).next < (s.mgr.heap b).next ∨
      (s.mgr.heap a).next = (s.mgr.heap b).next ∧ a < b
  issued : ∀ a ∈ s.mgr.timers, s.mgr.issued a = true
  pending : ∀ a, s.mgr.issued a = true → (a ∈ s.mgr.timers ↔ (s.mgr.heap a).cb ≠ none)
  once : ∀ a, s.mgr.timers.count a ≤ 1
  started : ∀ a, s.mgr.issued a = true →
    u64Sub (s.mgr.heap a).next (s.mgr.heap a).ms = (s.start a).toNat
  cancel_finds : ∀ a, s.mgr.issued a = true → (s.mgr.heap a).cb ≠ none →
    (s.mgr.store a { s.mgr.heap a with cb := none }).find a = some a
  finds : ∀ a, s.mgr.issued a = true → (s.mgr.heap a).cb ≠ none → s.mgr.find a = some a
  cancel : ∀ a, s.mgr.issued a = true →
    ∃ r, s.mgr.cancel a = .ok r ∧ (r.1 = false ↔ (s.mgr.heap a).cb = none)
  refresh : ∀ a, s.mgr.issued a = true → ∀ now : UInt64,
    ((s.mgr.refresh now.toNat a).1 = false ↔ (s.mgr.heap a).cb = none)
  reset : ∀ a, s.mgr.issued a = true → ∀ (now ms : UInt64) (fromNow : Bool),
    ((s.mgr.resetLocked now.toNat a ms.toNat fromNow).1 = false ↔ (s.mgr.heap a).cb = none)

theorem refused_iff {m : TimerManager} {a : Addr}
    (hfind : (m.heap a).cb ≠ none → m.find a = some a) (now ms : Nat) (fromNow : Bool) :
    ((m.refresh now a).1 = false ↔ (m.heap a).cb = none) ∧
      ((m.resetLocked now a ms fromNow).1 = false ↔ (m.heap a).cb = none) := by
  unfold TimerManager.refresh TimerManager.resetLocked
  cases hcb : (m.heap a).cb with
  | none => simp
  | some cb =>
      have hit : m.find a = some a := hfind (by rw [hcb]; exact Option.some_ne_none cb)
      simp [hit]

theorem Counted.consistent (h : Counted s) : Consistent s := by
  have hin : ∀ a, s.mgr.issued a = true → (s.mgr.heap a).cb ≠ none → a ∈ s.mgr.timers :=
    fun a ha hcb => (h.represents.pending a).mpr ⟨ha, hcb⟩
  have hfind : ∀ a, s.mgr.issued a = true → (s.mgr.heap a).cb ≠ none → s.mgr.find a = some a :=
    fun a ha hcb => find_pending (hin a ha hcb)
  refine
    { ordered := h.represents.ordered.imp fun hab => (key_lt s.mgr.heap _ _).mp hab
      issued := h.represents.issued
      pending := fun a ha => (h.represents.pending a).trans (and_iff_right ha)
      once := List.nodup_iff_count_le_one.mp h.represents.ordered.nodup
      started := h.started
      cancel_finds := fun a ha hcb => ?_
      finds := hfind
      cancel := fun a ha => ?_
      refresh := fun a ha now => (refused_iff (hfind a ha) now.toNat 0 true).1
      reset := fun a ha now ms fromNow =>
        (refused_iff (hfind a ha) now.toNat ms.toNat fromNow).2 }
  · exact find_pending (m := s.mgr.store a { s.mgr.heap a with cb := none }) (hin a ha hcb)
  · by_cases hcb : (s.mgr.heap a).cb = none
    · exact ⟨_, (unarmed_refused hcb 0 0 true).1, iff_of_true rfl hcb⟩
    · have hcancel := (cancel_armed h.represents.ordered (hin a ha hcb) hcb).1
      exact ⟨_, hcancel, iff_of_false Bool.noConfusion hcb⟩

/-- No sequence of calls breaks the set or stops at an iterator that is not there. -/
theorem timer_set_consistent (now : UInt64) {r : Except Fault State}
    (h : Reaches step (onOk Free) (.ok (.init now)) r) : ∃ s, r = .ok s ∧ Consistent s := by
  have hinv := h.invariant (preserves_abortable op_counted) (counted_init now)
  cases r with
  | ok s => exact ⟨s, rfl, hinv.consistent⟩
  | error fault => exact hinv.elim

/-- Ten milliseconds before the clock wraps, two recurring timers get the same deadline behind
the wrap, the second by a reset from its start. The address of a third timer is used again.
A clock that has wrapped hands out all of them, and then goes back. -/
def wrappedRun : List Action :=
  [.addTimer 18446744073709551606 1 100 7 true, .addTimer 18446744073709551606 2 50 8 true,
    .reset 18446744073709551610 2 100 false, .addTimer 18446744073709551610 3 4000000 9 false,
    .cancel 3, .release 3, .addTimer 90 3 10 9 false, .listExpiredCb 95 4, .refresh 20 2]

theorem timer_set_consistent_wrapped : ∃ s,
    checkedRun step (fun s c => decide (onOk Free s c))
        (.ok (.init 18446744073709551600)) wrappedRun = some (.ok s) ∧
      s.mgr.timers = [2, 1] ∧ (s.mgr.heap 2).next = 120 ∧ Consistent s := by
  have hrun : (checkedRun step (fun s c => decide (onOk Free s c))
      (.ok (.init 18446744073709551600)) wrappedRun).any
        (okAnd fun s => decide (s.mgr.timers = [2, 1] ∧ (s.mgr.heap 2).next = 120)) := by
    decide
  obtain ⟨s, hr, htimers, hnext⟩ := exists_ok_of_any hrun
  obtain ⟨s', hs, hconsistent⟩ := timer_set_consistent 18446744073709551600 (.of_decidedRun hr)
  cases hs
  exact ⟨s, hr, htimers, hnext, hconsistent⟩

end Sylar.Arming
