import Sylar.Timer.Sections

/-! # What `cancel`, `refresh` and `reset` report

The returned value of an operation on a handle against the state of its timer, in every state
that the sections of any number of threads can reach.
-/

namespace Sylar.Timers

open Transition

/-- What a caller may conclude from the answer: the timer was pending exactly if the answer is
true, and only then anything happened, to this timer alone. -/
structure Truthful (m : TimerManager) (a : Addr) (answer : Bool) (m' : TimerManager)
    (asked : Prop) : Prop where
  pending : answer = true ↔ a ∈ m.timers
  refused : answer = false → m'.timers = m.timers ∧ m'.heap = m.heap
  granted : answer = true → asked
  others : answer = true → ∀ b, b ≠ a →
    m'.heap b = m.heap b ∧ m'.timers.count b = m.timers.count b

structure PendingFor (m : TimerManager) (a : Addr) (ms next : Nat) : Prop where
  once : m.timers.count a = 1
  ms : (m.heap a).ms = ms
  next : (m.heap a).next = next

/-- The deadline that `reset(ms, from_now)` asks for. -/
def resetDeadline (t : Timer) (now ms : Nat) (fromNow : Bool) : Nat :=
  u64 ((if fromNow then now else u64Sub t.next t.ms) + ms)

/-- The present period, counted from where it started. -/
theorem resetDeadline_same {t : Timer} (hword : t.next < 2 ^ 64) (now : Nat) :
    resetDeadline t now t.ms false = t.next := by
  simp only [resetDeadline, Bool.false_eq_true, if_false, u64, u64Sub]
  omega

variable {m m' : TimerManager} {a : Addr}

/-! ## The three answers -/

/-- Nothing was done, and the caller is told so. -/
theorem truthful_false (asked : Prop) : Truthful m a false m asked ↔ a ∉ m.timers := by
  constructor
  · intro h hin
    cases h.pending.mpr hin
  · intro hout
    refine ⟨⟨fun hfalse => ?_, fun hin => (hout hin).elim⟩, fun _ => ⟨rfl, rfl⟩, ?_, ?_⟩
    · cases hfalse
    · intro hfalse
      cases hfalse
    · intro hfalse
      cases hfalse

/-- Nothing was done, and the caller is told that the timer is pending as asked. -/
theorem truthful_unchanged (h : Kept m) {ms next : Nat} (hms : (m.heap a).ms = ms)
    (hnext : (m.heap a).next = next) :
    Truthful m a true m (PendingFor m a ms next) ↔ a ∈ m.timers := by
  constructor
  · intro ht
    exact ht.pending.mp rfl
  · intro hin
    refine ⟨⟨fun _ => hin, fun _ => rfl⟩, ?_, fun _ => ?_, fun _ _ _ => ⟨rfl, rfl⟩⟩
    · intro hfalse
      cases hfalse
    · exact ⟨List.count_eq_one_of_mem h.ordered.nodup hin, hms, hnext⟩

theorem Kept.truthful_rearmed (h : Kept m) (hin : a ∈ m.timers) (hkept : Kept m') {t : Timer}
    (hheap : m'.heap = Function.update m.heap a t)
    (hmem : ∀ b, b ∈ m'.timers ↔ b ∈ m.timers) :
    Truthful m a true m' (PendingFor m' a t.ms t.next) where
  pending := ⟨fun _ => hin, fun _ => rfl⟩
  refused := by
    intro hfalse
    cases hfalse
  granted := by
    intro _
    have hself : m'.heap a = t := by rw [hheap, Function.update_self]
    exact ⟨List.count_eq_one_of_mem hkept.ordered.nodup ((hmem a).mpr hin),
      by rw [hself], by rw [hself]⟩
  others := by
    intro _ b hb
    rw [hheap, Function.update_of_ne hb, hkept.ordered.nodup.count, h.ordered.nodup.count]
    simp only [hmem, and_self]

theorem Kept.truthful_erased (h : Kept m) (hin : a ∈ m.timers) {t : Timer}
    (hheap : m'.heap = Function.update m.heap a t) (htimers : m'.timers = m.timers.erase a) :
    Truthful m a true m' (a ∉ m'.timers) where
  pending := ⟨fun _ => hin, fun _ => rfl⟩
  refused := by
    intro hfalse
    cases hfalse
  granted := by
    intro _ hout
    rw [htimers] at hout
    exact (h.ordered.nodup.mem_erase_iff.mp hout).1 rfl
  others := by
    intro _ b hb
    rw [hheap, Function.update_of_ne hb, htimers, List.count_erase_of_ne hb]
    exact ⟨rfl, rfl⟩

/-! ## The operations -/

def PendingArmed (m : TimerManager) (a : Addr) : Prop := a ∈ m.timers → (m.heap a).cb ≠ none

theorem pendingArmed_of_none (hcb : (m.heap a).cb = none) : PendingArmed m a ↔ a ∉ m.timers := by
  simp [PendingArmed, hcb]

theorem Kept.cancel_truthful (h : Kept m) (ha : m.issued a = true) :
    ∃ r, m.cancel a = .ok r ∧ (Truthful m a r.1 r.2 (a ∉ r.2.timers) ↔ PendingArmed m a) := by
  by_cases hcb : (m.heap a).cb = none
  · refine ⟨_, (unarmed_refused hcb 0 0 true).1, ?_⟩
    rw [pendingArmed_of_none hcb]
    exact truthful_false _
  · obtain ⟨m', hrun, _, hheap, htimers⟩ := h.cancel ha hcb
    refine ⟨_, hrun, ?_⟩
    exact iff_of_true (h.truthful_erased (h.armed a ha hcb) hheap htimers) fun _ => hcb

theorem Kept.refresh_truthful (h : Kept m) (now : Nat) (ha : m.issued a = true) :
    Truthful m a (m.refresh now a).1 (m.refresh now a).2
        (PendingFor (m.refresh now a).2 a (m.heap a).ms (u64 (now + (m.heap a).ms))) ↔
      PendingArmed m a := by
  by_cases hcb : (m.heap a).cb = none
  · rw [(unarmed_refused hcb now 0 true).2.1, pendingArmed_of_none hcb]
    exact truthful_false _
  · obtain ⟨m', hrun, hkept, hheap, hmem⟩ := h.refresh now ha hcb
    rw [hrun]
    exact iff_of_true (h.truthful_rearmed (h.armed a ha hcb) hkept hheap hmem) fun _ => hcb

/-- `reset` returns before its test of the callback if the period stays. -/
theorem Kept.reset_truthful (h : Kept m) (now ms : Nat) (fromNow : Bool) (ha : m.issued a = true) :
    Truthful m a (m.reset now a ms fromNow).1 (m.reset now a ms fromNow).2.2
        (PendingFor (m.reset now a ms fromNow).2.2 a ms
          (resetDeadline (m.heap a) now ms fromNow)) ↔
      if ms = (m.heap a).ms ∧ ¬ fromNow then a ∈ m.timers else PendingArmed m a := by
  unfold TimerManager.reset
  by_cases hsame : ms = (m.heap a).ms ∧ ¬ fromNow
  · rw [if_pos hsame, if_pos hsame]
    obtain ⟨rfl, hfrom⟩ := hsame
    rw [Bool.not_eq_true] at hfrom
    rw [hfrom]
    exact truthful_unchanged h rfl (resetDeadline_same (h.word a) now).symm
  · rw [if_neg hsame, if_neg hsame]
    by_cases hcb : (m.heap a).cb = none
    · rw [(unarmed_refused hcb now ms fromNow).2.2, pendingArmed_of_none hcb]
      exact truthful_false _
    · obtain ⟨_, m', hrun, hkept, hheap, hmem⟩ := h.resetLocked now ms fromNow ha hcb
      rw [hrun]
      exact iff_of_true (h.truthful_rearmed (h.armed a ha hcb) hkept hheap hmem) fun _ => hcb

end Sylar.Timers

/-! ## Every reachable state -/

namespace Sylar.Sections

open Transition Timers

variable {ι : Type*} [DecidableEq ι]

theorem reachable_kept {now : Nat} {s : State ι}
    (h : Reaches step Free (.ok (.init now)) (.ok s)) : Kept s.mgr := by
  have hstep : Preserves step Free (Holds (fun s : State ι => Guards s) fun _ => True) := by
    intro r c r' hr _ hstep
    cases r with
    | error fault => cases hstep
    | ok s =>
        have hop := Guards.op hr hstep
        cases r' with
        | ok s' => exact hop
        | error fault => trivial
  exact (h.invariant hstep (guards_init now)).kept

/-- `cancel`, `refresh` and a `reset` to another period or from now report the truth unless the
timer is pending without a callback. A `reset` that keeps the period does so exactly if the
timer is pending. -/
theorem operations_truthful {now : Nat} {s : State ι}
    (h : Reaches step Free (.ok (.init now)) (.ok s)) {a : Addr} (ha : s.mgr.issued a = true) :
    (∃ r, s.mgr.cancel a = .ok r ∧
      (Truthful s.mgr a r.1 r.2 (a ∉ r.2.timers) ↔ PendingArmed s.mgr a)) ∧
    (∀ clock, Truthful s.mgr a (s.mgr.refresh clock a).1 (s.mgr.refresh clock a).2
        (PendingFor (s.mgr.refresh clock a).2 a (s.mgr.heap a).ms
          (u64 (clock + (s.mgr.heap a).ms))) ↔ PendingArmed s.mgr a) ∧
    ∀ clock ms fromNow, Truthful s.mgr a (s.mgr.reset clock a ms fromNow).1
        (s.mgr.reset clock a ms fromNow).2.2
        (PendingFor (s.mgr.reset clock a ms fromNow).2.2 a ms
          (resetDeadline (s.mgr.heap a) clock ms fromNow)) ↔
      if ms = (s.mgr.heap a).ms ∧ ¬ fromNow then a ∈ s.mgr.timers else PendingArmed s.mgr a := by
  have hkept := reachable_kept h
  exact ⟨hkept.cancel_truthful ha, fun clock => hkept.refresh_truthful clock ha,
    fun clock ms fromNow => hkept.reset_truthful clock ms fromNow ha⟩

/-- One timer is pending, another was cancelled, and a third is pending without a callback. -/
def threeTimers : List (Action (Fin 1)) :=
  [.addTimer 1000 1 50 (some 7) false, .addTimer 1000 2 60 (some 8) true,
    .addTimer 1000 3 70 none false, .cancel 2]

theorem threeTimers_reached : ∃ s : State (Fin 1),
    run step (.ok (.init 1000)) threeTimers = some (.ok s) ∧
      (∀ a ∈ [1, 2, 3], s.mgr.issued a = true) ∧ s.mgr.timers = [1, 3] ∧
      (s.mgr.heap 2).ms = 60 :=
  exists_ok_of_any (by decide)

theorem operations_truthful_three : ∃ s : State (Fin 1), s.mgr.timers = [1, 3] ∧
    ∃ r, s.mgr.cancel 1 = .ok r ∧
      (Truthful s.mgr 1 r.1 r.2 (1 ∉ r.2.timers) ↔ PendingArmed s.mgr 1) := by
  obtain ⟨s, hrun, hissued, htimers, _⟩ := threeTimers_reached
  exact ⟨s, htimers, (operations_truthful (.of_run hrun) (hissued 1 (by simp))).1⟩

/-- A `reset` of the cancelled timer to its own period. -/
theorem reset_cancelled :
    ¬ ∀ s : State (Fin 1), Reaches step Free (.ok (.init 1000)) (.ok s) →
      ∀ a, s.mgr.issued a = true → ∀ clock ms fromNow,
        Truthful s.mgr a (s.mgr.reset clock a ms fromNow).1 (s.mgr.reset clock a ms fromNow).2.2
          (PendingFor (s.mgr.reset clock a ms fromNow).2.2 a ms
            (resetDeadline (s.mgr.heap a) clock ms fromNow)) := by
  intro h
  obtain ⟨s, hrun, hissued, htimers, hms⟩ := threeTimers_reached
  have htrue := h s (.of_run hrun) 2 (hissued 2 (by simp)) 1000 60 false
  have hearly : s.mgr.reset 1000 2 60 false = (true, false, s.mgr) := by
    unfold TimerManager.reset
    rw [hms]
    rfl
  rw [hearly] at htrue
  have hin := htrue.pending.mp rfl
  rw [htimers] at hin
  exact absurd hin (by decide)

end Sylar.Sections
