import Sylar.Timer.Expiry

/-! # Timers with or without a callback

A timer may be added with an empty callback. It is then in the set, but no operation on
its handle finds it armed, and only `listExpiredCb` takes it out again. What all sections
keep is that a timer with a callback is in the set.
-/

namespace Sylar.Timers

open Collection

/-- The set is ordered by the current keys, and holds every timer with a callback. -/
structure Kept (m : TimerManager) : Prop where
  ordered : Ordered (key m.heap) m.timers
  issued : ∀ a ∈ m.timers, m.issued a = true
  armed : ∀ a, m.issued a = true → (m.heap a).cb ≠ none → a ∈ m.timers
  word : ∀ a, (m.heap a).next < 2 ^ 64

theorem kept_init (now : Nat) : Kept (.init now) where
  ordered := List.Pairwise.nil
  issued := by
    intro a ha
    cases ha
  armed := by
    intro a ha
    cases ha
  word := fun _ => Nat.two_pow_pos 64

variable {m m' : TimerManager} {a : Addr}

/-- One timer gets new fields, and is in the set afterwards if these have a callback. -/
theorem Kept.update (h : Kept m) {t : Timer} (hheap : m'.heap = Function.update m.heap a t)
    (hord : Ordered (key m'.heap) m'.timers) (hissued : ∀ b, b ≠ a → m'.issued b = m.issued b)
    (hself : a ∈ m'.timers → m'.issued a = true) (harmed : t.cb ≠ none → a ∈ m'.timers)
    (hmem : ∀ b, b ≠ a → (b ∈ m'.timers ↔ b ∈ m.timers)) (hword : t.next < 2 ^ 64) :
    Kept m' where
  ordered := hord
  issued := by
    intro b hb
    by_cases hba : b = a
    · subst hba
      exact hself hb
    · rw [hissued b hba]
      exact h.issued b ((hmem b hba).mp hb)
  armed := by
    intro b hb hcb
    rw [hheap] at hcb
    by_cases hba : b = a
    · subst hba
      rw [Function.update_self] at hcb
      exact harmed hcb
    · rw [Function.update_of_ne hba] at hcb
      rw [hissued b hba] at hb
      exact (hmem b hba).mpr (h.armed b hb hcb)
  word := by
    intro b
    rw [hheap]
    by_cases hba : b = a
    · subst hba
      rwa [Function.update_self]
    · rw [Function.update_of_ne hba]
      exact h.word b

/-! ## Insertion -/

/-- `addTimer` at a fresh address, with any callback. -/
theorem Kept.addTimer (h : Kept m) (ha : m.issued a = false) (now ms : Nat) (cb : Option Cb)
    (recurring : Bool) :
    Kept (m.addTimer now a ms cb recurring).2 ∧
      ∀ b, b ∈ (m.addTimer now a ms cb recurring).2.timers ↔ b = a ∨ b ∈ m.timers := by
  have hout := unissued_not_mem h.issued ha
  obtain ⟨hord, hmem⟩ := insert_store h.ordered hout (.new now ms cb recurring)
  refine ⟨h.update (a := a) rfl hord (fun b hb => Function.update_of_ne hb _ _)
    (fun _ => Function.update_self _ _ _) (fun _ => (hmem a).mpr (.inl rfl)) (fun b hb => ?_)
    (Nat.mod_lt _ (Nat.two_pow_pos 64)), hmem⟩
  exact (hmem b).trans (or_iff_right hb)

/-! ## Operations on a handle -/

/-- A timer without a callback is left alone, whatever is asked. -/
theorem unarmed_refused (hcb : (m.heap a).cb = none) (now ms : Nat) (fromNow : Bool) :
    m.cancel a = .ok (false, m) ∧ m.refresh now a = (false, m) ∧
      m.resetLocked now a ms fromNow = (false, false, m) := by
  simp only [TimerManager.cancel, TimerManager.refresh, TimerManager.resetLocked, hcb, and_self]

/-- `cancel` of an armed timer takes it out of the set. -/
theorem Kept.cancel (h : Kept m) (ha : m.issued a = true) (hcb : (m.heap a).cb ≠ none) :
    ∃ m', m.cancel a = .ok (true, m') ∧ Kept m' ∧
      m'.heap = Function.update m.heap a { m.heap a with cb := none } ∧
      m'.timers = m.timers.erase a := by
  obtain ⟨hcancel, hord⟩ := cancel_armed h.ordered (h.armed a ha hcb) hcb
  refine ⟨_, hcancel, ?_, rfl, rfl⟩
  refine h.update (a := a) rfl hord (fun _ _ => rfl) (fun _ => ha)
    (fun hne => (hne rfl).elim) (fun b hb => ?_) (h.word a)
  exact h.ordered.nodup.mem_erase_iff.trans (and_iff_right hb)

theorem Kept.rearm (h : Kept m) (hin : a ∈ m.timers) {t : Timer} (hword : t.next < 2 ^ 64) :
    Kept (((m.erase a).store a t).insert a) ∧
      ∀ b, b ∈ (((m.erase a).store a t).insert a).timers ↔ b ∈ m.timers := by
  obtain ⟨hord, hmem⟩ := rearm_ordered h.ordered hin t
  exact ⟨h.update (a := a) rfl hord (fun _ _ => rfl) (fun _ => h.issued a hin)
    (fun _ => (hmem a).mpr hin) (fun b _ => hmem b) hword, hmem⟩

theorem Kept.refresh (h : Kept m) (now : Nat) (ha : m.issued a = true)
    (hcb : (m.heap a).cb ≠ none) :
    ∃ m', m.refresh now a = (true, m') ∧ Kept m' ∧
      m'.heap = Function.update m.heap a (refreshTimer (m.heap a) now) ∧
      ∀ b, b ∈ m'.timers ↔ b ∈ m.timers := by
  have hin := h.armed a ha hcb
  obtain ⟨cb, hcb⟩ := Option.ne_none_iff_exists'.mp hcb
  obtain ⟨hkept, hmem⟩ := h.rearm hin (t := refreshTimer (m.heap a) now)
    (Nat.mod_lt _ (Nat.two_pow_pos 64))
  unfold TimerManager.refresh
  simp only [hcb, find_pending hin]
  exact ⟨_, rfl, hkept, rfl, hmem⟩

theorem Kept.resetLocked (h : Kept m) (now ms : Nat) (fromNow : Bool) (ha : m.issued a = true)
    (hcb : (m.heap a).cb ≠ none) :
    ∃ atFront m', m.resetLocked now a ms fromNow = (true, atFront, m') ∧ Kept m' ∧
      m'.heap = Function.update m.heap a (resetTimer (m.heap a) now ms fromNow) ∧
      ∀ b, b ∈ m'.timers ↔ b ∈ m.timers := by
  have hin := h.armed a ha hcb
  obtain ⟨cb, hcb⟩ := Option.ne_none_iff_exists'.mp hcb
  obtain ⟨hkept, hmem⟩ := h.rearm hin (t := resetTimer (m.heap a) now ms fromNow)
    (Nat.mod_lt _ (Nat.two_pow_pos 64))
  unfold TimerManager.resetLocked
  simp only [hcb, find_pending hin]
  exact ⟨_, _, rfl, ⟨hkept.ordered, hkept.issued, hkept.armed, hkept.word⟩, rfl, hmem⟩

/-! ## Expiry -/

/-- The write-locked section keeps the order and brings no timer into the set. -/
theorem Kept.takeExpired (h : Kept m) {now : Nat} {probe : Addr}
    {r : List Addr × List (Option Cb) × TimerManager} (hr : m.takeExpired now probe = .ok r) :
    Kept r.2.2 ∧ r.2.2.issued = m.issued ∧ ∀ a ∈ r.2.2.timers, a ∈ m.timers := by
  rcases takeExpired_ok h.ordered hr with rfl | ⟨rest, hsplit, _, hloop⟩
  · exact ⟨⟨h.ordered, h.issued, h.armed, h.word⟩, rfl, fun _ ha => ha⟩
  · have hmem : ∀ a, a ∈ m.timers ↔ a ∈ r.1 ∨ a ∈ rest := fun a => by
      rw [← hsplit, List.mem_append]
    have hsub : ∀ a ∈ r.2.2.timers, a ∈ m.timers := by
      intro a ha
      rcases (hloop.mem a).mp ha with ha | ⟨ha, _⟩
      · exact (hmem a).mpr (.inr ha)
      · exact (hmem a).mpr (.inl ha)
    have hissued : r.2.2.issued = m.issued := hloop.issued
    refine ⟨⟨hloop.ordered, fun a ha => ?_, fun a ha hcb => ?_, fun a => ?_⟩, hissued, hsub⟩
    · rw [hissued]
      exact h.issued a (hsub a ha)
    · rw [hissued] at ha
      rw [hloop.heap] at hcb
      by_cases hexp : a ∈ r.1
      · rw [if_pos hexp, firedTimer] at hcb
        apply (hloop.mem a).mpr
        right
        refine ⟨hexp, ?_⟩
        by_contra hrec
        rw [if_neg hrec] at hcb
        exact hcb rfl
      · rw [if_neg hexp] at hcb
        apply (hloop.mem a).mpr
        left
        exact ((hmem a).mp (h.armed a ha hcb)).resolve_left hexp
    · rw [hloop.heap]
      split
      · unfold firedTimer
        split
        · exact Nat.mod_lt _ (Nat.two_pow_pos 64)
        · exact h.word a
      · exact h.word a

theorem takeExpired_fails (m : TimerManager) (now : Nat) (probe : Addr) (fault : Fault) :
    m.takeExpired now probe = .error fault ↔
      fault = .emptyBegin ∧ m.timers = [] ∧ (m.detectClockRollover now).1 = false := by
  unfold TimerManager.takeExpired TimerManager.detectClockRollover
  dsimp only
  constructor
  · intro hr
    split at hr <;> cases hr
    rename_i hdue
    split at hdue
    · cases hdue
    · rename_i hback
      refine ⟨rfl, ?_, Bool.eq_false_iff.mpr hback⟩
      simpa using hdue
  · rintro ⟨rfl, hempty, hback⟩
    rw [hback, hempty]
    rfl

/-- In one step the test of the set is the guard of the section. -/
theorem listExpiredCb_succeeds (m : TimerManager) (now : Nat) (probe : Addr) :
    ∃ r, m.listExpiredCb now probe = .ok r := by
  unfold TimerManager.listExpiredCb
  split
  · exact ⟨_, rfl⟩
  · rename_i hne
    cases hrun : m.takeExpired now probe with
    | ok r => exact ⟨r, rfl⟩
    | error fault => exact (hne ((takeExpired_fails m now probe fault).mp hrun).2.1).elim

end Sylar.Timers
