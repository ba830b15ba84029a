import Sylar.Timer.Expiry
import Sylar.Transition.Run

/-! # Delivery over whole runs

A run of the timer operations with a clock that only moves forward. `start` records
when the current arming of a timer began: at its creation, at a `refresh`, at a `reset`
from now, and at each hand-out of a recurring timer; `delivered` lists the timers
whose callbacks were handed out, and `cancelled` those whose `cancel` returned true.
-/

namespace Sylar.Timers

open Transition

structure System where
  mgr : TimerManager
  clock : Nat
  start : Addr → Nat
  delivered : List Addr
  cancelled : Addr → Bool

def System.init (now : Nat) : System := ⟨.init now, now, fun _ => 0, [], fun _ => false⟩

inductive Call where
  | tick (elapsed : Nat)
  | addTimer (a : Addr) (ms : Nat) (cb : Cb) (recurring : Bool)
  | cancel (a : Addr)
  | refresh (a : Addr)
  | reset (a : Addr) (ms : Nat) (fromNow : Bool)
  | getNextTimer
  | listExpiredCb (probe : Addr)

/-- Re-arming moves the start of the arming to the clock when the call says so. -/
def System.rearmed (s : System) (m : TimerManager) (a : Addr) (fromNow : Bool) : System :=
  { s with mgr := m, start := if fromNow then Function.update s.start a s.clock else s.start }

def System.handedOut (s : System) (m : TimerManager) (expired : List Addr) : System :=
  { s with
    mgr := m
    start := fun a => if a ∈ expired then s.clock else s.start a
    delivered := s.delivered ++ expired }

/-- One call: objects are allocated at unused addresses, handles name used ones. -/
def op (s : System) : Call → Option (Except Fault System)
  | .tick elapsed => some (.ok { s with clock := s.clock + elapsed })
  | .addTimer a ms cb recurring =>
      if s.mgr.issued a then none
      else some (.ok (s.rearmed (s.mgr.addTimer s.clock a ms (some cb) recurring).2 a true))
  | .cancel a =>
      if s.mgr.issued a then
        some ((s.mgr.cancel a).map fun r =>
          { s with
            mgr := r.2
            cancelled := if r.1 then Function.update s.cancelled a true else s.cancelled })
      else none
  | .refresh a =>
      if s.mgr.issued a then
        let r := s.mgr.refresh s.clock a
        some (.ok (s.rearmed r.2 a r.1))
      else none
  | .reset a ms fromNow =>
      if s.mgr.issued a then
        let r := s.mgr.reset s.clock a ms fromNow
        some (.ok (s.rearmed r.2.2 a (r.1 && fromNow)))
      else none
  | .getNextTimer => some (.ok { s with mgr := (s.mgr.getNextTimer s.clock).2 })
  | .listExpiredCb probe =>
      if s.mgr.issued probe then none
      else some ((s.mgr.listExpiredCb s.clock probe).map fun r => s.handedOut r.2.2 r.1)

def step : Except Fault System → Call → Option (Except Fault System) := abortable op

/-- No `now + ms` of a call exceeds `2 ^ 64 - 1`. -/
def NoOverflow (s : System) : Call → Prop
  | .addTimer _ ms _ _ => s.clock + ms < 2 ^ 64
  | .refresh a => s.clock + (s.mgr.heap a).ms < 2 ^ 64
  | .reset _ ms _ => s.clock + ms < 2 ^ 64
  | .listExpiredCb _ => ∀ a ∈ s.mgr.due s.clock, (s.mgr.heap a).recurring = true →
      s.clock + (s.mgr.heap a).ms < 2 ^ 64
  | .tick _ | .cancel _ | .getNextTimer => True

/-! ## The invariant -/

/-- An armed timer is due one period after the start of its arming, a timer that does not
recur has been handed out at most once and never while it is pending, and a cancelled
timer is not pending. -/
structure Delivers (s : System) : Prop where
  represents : Represents s.mgr
  deadline : ∀ a ∈ s.mgr.timers, (s.mgr.heap a).next = s.start a + (s.mgr.heap a).ms
  started : ∀ a ∈ s.mgr.timers, s.start a ≤ s.clock
  bounded : ∀ a ∈ s.mgr.timers, (s.mgr.heap a).next < 2 ^ 64
  forward : s.mgr.previouseTime ≤ s.clock
  issued : ∀ a ∈ s.delivered, s.mgr.issued a = true
  once : ∀ a, (s.mgr.heap a).recurring = false →
    s.delivered.count a ≤ 1 ∧ (a ∈ s.mgr.timers → a ∉ s.delivered)
  cancelled : ∀ a, s.cancelled a = true → s.mgr.issued a = true ∧ a ∉ s.mgr.timers

theorem delivers_init (now : Nat) : Delivers (.init now) where
  represents := represents_init now
  deadline := fun a ha => by cases ha
  started := fun a ha => by cases ha
  bounded := fun a ha => by cases ha
  forward := Nat.le_refl now
  issued := fun a ha => by cases ha
  once := fun a _ => ⟨by simp [System.init], fun ha => by cases ha⟩
  cancelled := fun a ha => by cases ha

theorem Delivers.tick {s : System} (h : Delivers s) (elapsed : Nat) :
    Delivers { s with clock := s.clock + elapsed } :=
  { h with
    started := fun a ha => (h.started a ha).trans (Nat.le_add_right _ _)
    forward := h.forward.trans (Nat.le_add_right _ _) }

theorem Delivers.getNextTimer {s : System} (h : Delivers s) :
    Delivers { s with mgr := (s.mgr.getNextTimer s.clock).2 } := by
  rw [getNextTimer_shared]
  exact { h with represents := ⟨h.represents.ordered, h.represents.pending⟩ }

/-- Overwriting one timer with an arming that began at `x`: `addTimer`, `refresh`
and `reset` are this step. -/
theorem Delivers.arm {s : System} (h : Delivers s) {a : Addr} {m : TimerManager} {t : Timer}
    {x : Nat} (hrep : Represents m) (hheap : m.heap = Function.update s.mgr.heap a t)
    (hmem : ∀ b, b ∈ m.timers ↔ b = a ∨ b ∈ s.mgr.timers)
    (hissued : ∀ b, s.mgr.issued b = true → m.issued b = true)
    (htime : m.previouseTime = s.mgr.previouseTime)
    (hnext : t.next = x + t.ms) (hstart : x ≤ s.clock) (hbound : t.next < 2 ^ 64)
    (hlive : s.cancelled a = false) (hfresh : t.recurring = false → a ∉ s.delivered) :
    Delivers { s with mgr := m, start := Function.update s.start a x } := by
  have hself : m.heap a = t := by rw [hheap, Function.update_self]
  have hother : ∀ b, b ≠ a → m.heap b = s.mgr.heap b := fun b hb => by
    rw [hheap, Function.update_of_ne hb]
  have hold : ∀ b ∈ m.timers, b ≠ a → b ∈ s.mgr.timers := fun b hb hne =>
    ((hmem b).mp hb).resolve_left hne
  refine ⟨hrep, fun b hb => ?_, fun b hb => ?_, fun b hb => ?_, ?_, fun b hb => ?_,
    fun b hrec => ?_, fun b hb => ?_⟩
  · by_cases hba : b = a
    · subst hba
      simp only [hself, Function.update_self, hnext]
    · simp only [hother b hba, Function.update_of_ne hba]
      exact h.deadline b (hold b hb hba)
  · by_cases hba : b = a
    · subst hba
      simpa only [Function.update_self] using hstart
    · simp only [Function.update_of_ne hba]
      exact h.started b (hold b hb hba)
  · by_cases hba : b = a
    · subst hba
      simpa only [hself] using hbound
    · simp only [hother b hba]
      exact h.bounded b (hold b hb hba)
  · exact htime ▸ h.forward
  · exact hissued b (h.issued b hb)
  · by_cases hba : b = a
    · subst hba
      have hout := hfresh (hself ▸ hrec)
      exact ⟨by simp [List.count_eq_zero_of_not_mem hout], fun _ => hout⟩
    · obtain ⟨hcount, hpend⟩ := h.once b (hother b hba ▸ hrec)
      exact ⟨hcount, fun hb => hpend (hold b hb hba)⟩
  · obtain ⟨hiss, hout⟩ := h.cancelled b hb
    refine ⟨hissued b hiss, fun hin => ?_⟩
    by_cases hba : b = a
    · subst hba
      rw [hlive] at hb
      cases hb
    · exact hout (hold b hin hba)

theorem Delivers.of_pending {s : System} (h : Delivers s) {a : Addr} (ha : a ∈ s.mgr.timers) :
    s.cancelled a = false ∧ ((s.mgr.heap a).recurring = false → a ∉ s.delivered) := by
  refine ⟨?_, fun hrec => (h.once a hrec).2 ha⟩
  by_contra hne
  exact (h.cancelled a (Bool.eq_true_of_not_eq_false hne)).2 ha

/-! ## One call -/

theorem Delivers.addTimer {s : System} (h : Delivers s) {a : Addr} {ms : Nat} (cb : Cb)
    (recurring : Bool) (hfresh : s.mgr.issued a = false) (hbound : s.clock + ms < 2 ^ 64) :
    Delivers (s.rearmed (s.mgr.addTimer s.clock a ms (some cb) recurring).2 a true) := by
  obtain ⟨hrep, hheap, hmem⟩ := h.represents.addTimer hfresh s.clock ms cb recurring
  have hnext : u64 (s.clock + ms) = s.clock + ms := Nat.mod_eq_of_lt hbound
  refine h.arm hrep hheap hmem (fun b hb => ?_) rfl hnext (Nat.le_refl _)
    (hnext.trans_lt hbound) ?_ (fun _ hin => ?_)
  · change Function.update s.mgr.issued a true b = true
    by_cases hba : b = a
    · rw [hba, Function.update_self]
    · rwa [Function.update_of_ne hba]
  · by_contra hne
    have hissued := (h.cancelled a (Bool.eq_true_of_not_eq_false hne)).1
    rw [hfresh] at hissued
    cases hissued
  · have hissued := h.issued a hin
    rw [hfresh] at hissued
    cases hissued

theorem Delivers.cancel {s : System} (h : Delivers s) {a : Addr}
    (hissued : s.mgr.issued a = true) :
    ∃ r, s.mgr.cancel a = .ok r ∧
      (r.1 = true ↔ a ∈ s.mgr.timers) ∧
      Delivers { s with
        mgr := r.2
        cancelled := if r.1 then Function.update s.cancelled a true else s.cancelled } := by
  obtain ⟨hout, hin⟩ := h.represents.cancel hissued
  by_cases ha : a ∈ s.mgr.timers
  · obtain ⟨m, hrun, hrep, hheap, htimers, hiss, htime, _⟩ := hin ha
    have hmem : ∀ b, b ∈ m.timers ↔ b ∈ s.mgr.timers ∧ b ≠ a := fun b => by
      rw [htimers, h.represents.mem_erase]
    have hother : ∀ b ∈ m.timers, m.heap b = s.mgr.heap b := fun b hb => by
      rw [hheap, Function.update_of_ne ((hmem b).mp hb).2]
    refine ⟨(true, m), hrun, by simp [ha], ⟨hrep, fun b hb => ?_, fun b hb => ?_, fun b hb => ?_,
      htime ▸ h.forward, fun b hb => hiss ▸ h.issued b hb, fun b hrec => ?_, fun b hb => ?_⟩⟩
    · simp only [hother b hb]
      exact h.deadline b ((hmem b).mp hb).1
    · exact h.started b ((hmem b).mp hb).1
    · simp only [hother b hb]
      exact h.bounded b ((hmem b).mp hb).1
    · have hsame : (m.heap b).recurring = (s.mgr.heap b).recurring := by
        rw [hheap]
        by_cases hba : b = a
        · rw [hba, Function.update_self]
        · rw [Function.update_of_ne hba]
      obtain ⟨hcount, hpend⟩ := h.once b (hsame ▸ hrec)
      exact ⟨hcount, fun hin => hpend ((hmem b).mp hin).1⟩
    · simp only [if_true] at hb
      by_cases hba : b = a
      · subst hba
        exact ⟨hiss ▸ hissued, fun hin => ((hmem b).mp hin).2 rfl⟩
      · rw [Function.update_of_ne hba] at hb
        obtain ⟨hbi, hbo⟩ := h.cancelled b hb
        exact ⟨hiss ▸ hbi, fun hin => hbo ((hmem b).mp hin).1⟩
  · exact ⟨(false, s.mgr), hout ha, by simp [ha], h⟩

theorem Delivers.refresh {s : System} (h : Delivers s) {a : Addr}
    (hissued : s.mgr.issued a = true) (hbound : s.clock + (s.mgr.heap a).ms < 2 ^ 64) :
    Delivers (s.rearmed (s.mgr.refresh s.clock a).2 a (s.mgr.refresh s.clock a).1) := by
  obtain ⟨hout, hin⟩ := h.represents.refresh s.clock hissued
  by_cases ha : a ∈ s.mgr.timers
  · obtain ⟨m, hrun, hrep, hheap, hmem, hiss, htime, _⟩ := hin ha
    rw [hrun]
    obtain ⟨hlive, honce⟩ := h.of_pending ha
    have hnext : u64 (s.clock + (s.mgr.heap a).ms) = s.clock + (s.mgr.heap a).ms :=
      Nat.mod_eq_of_lt hbound
    refine h.arm hrep hheap (fun b => ?_) (fun b hb => hiss ▸ hb) htime hnext (Nat.le_refl _)
      (hnext.trans_lt hbound) hlive honce
    rw [hmem]
    exact ⟨.inr, fun hb => hb.elim (fun heq => heq ▸ ha) id⟩
  · rw [hout ha]
    exact h

/-- A `reset` that re-arms measures the period from the start of the arming or from now. -/
theorem Delivers.resetTimer_next {s : System} (h : Delivers s) {a : Addr}
    (ha : a ∈ s.mgr.timers) {ms : Nat} (fromNow : Bool) (hbound : s.clock + ms < 2 ^ 64) :
    (resetTimer (s.mgr.heap a) s.clock ms fromNow).next =
      (if fromNow then s.clock else s.start a) + ms := by
  have hdeadline := h.deadline a ha
  have hstarted := h.started a ha
  have hlt := h.bounded a ha
  have hsub : u64Sub (s.mgr.heap a).next (s.mgr.heap a).ms = s.start a := by
    unfold u64Sub
    omega
  unfold resetTimer
  simp only [hsub]
  cases fromNow
  · exact Nat.mod_eq_of_lt (by simp only [Bool.false_eq_true, if_false]; omega)
  · exact Nat.mod_eq_of_lt (by simpa using hbound)

theorem Delivers.reset {s : System} (h : Delivers s) {a : Addr}
    (hissued : s.mgr.issued a = true) {ms : Nat} (fromNow : Bool)
    (hbound : s.clock + ms < 2 ^ 64) :
    Delivers (s.rearmed (s.mgr.reset s.clock a ms fromNow).2.2 a
      ((s.mgr.reset s.clock a ms fromNow).1 && fromNow)) := by
  obtain ⟨hsame, hout, hin⟩ := h.represents.reset s.clock hissued ms fromNow
  by_cases hne : ms = (s.mgr.heap a).ms ∧ ¬ fromNow
  · rw [hsame hne]
    have hoff : fromNow = false := Bool.eq_false_iff.mpr hne.2
    rw [hoff]
    exact h
  · by_cases ha : a ∈ s.mgr.timers
    · obtain ⟨atFront, m, hrun, hrep, hheap, hmem, hiss, htime⟩ := hin hne ha
      rw [hrun, Bool.true_and]
      obtain ⟨hlive, honce⟩ := h.of_pending ha
      have hnext := h.resetTimer_next ha fromNow hbound
      have hstart : (if fromNow then s.clock else s.start a) ≤ s.clock := by
        split
        · exact Nat.le_refl _
        · exact h.started a ha
      have harm := h.arm hrep hheap (fun b => by
          rw [hmem]
          exact ⟨.inr, fun hb => hb.elim (fun heq => heq ▸ ha) id⟩)
        (fun b hb => hiss ▸ hb) htime hnext hstart (by omega) hlive honce
      cases fromNow
      · simpa [System.rearmed] using harm
      · exact harm
    · rw [hout hne ha]
      exact h

theorem Delivers.handedOut {s : System} (h : Delivers s) {m : TimerManager}
    (hexp : Expires s.mgr m s.clock) (htime : m.previouseTime ≤ s.clock)
    (hbound : ∀ a ∈ s.mgr.due s.clock, (s.mgr.heap a).recurring = true →
      s.clock + (s.mgr.heap a).ms < 2 ^ 64) :
    Delivers (s.handedOut m (s.mgr.due s.clock)) := by
  have hrec : ∀ a, (m.heap a).recurring = (s.mgr.heap a).recurring := by
    intro a
    rw [hexp.heap]
    unfold firedTimer
    split
    · split <;> rfl
    · rfl
  have hfired : ∀ a ∈ m.timers, a ∈ s.mgr.due s.clock →
      (m.heap a).ms = (s.mgr.heap a).ms ∧ (m.heap a).next = s.clock + (s.mgr.heap a).ms ∧
        s.clock + (s.mgr.heap a).ms < 2 ^ 64 := by
    intro a ha hdue
    have hrecur := ((hexp.mem a).mp ha).2 hdue
    have hlt := hbound a hdue hrecur
    rw [hexp.heap, if_pos hdue, firedTimer, if_pos hrecur]
    exact ⟨rfl, Nat.mod_eq_of_lt hlt, hlt⟩
  have hkept : ∀ a, a ∉ s.mgr.due s.clock → m.heap a = s.mgr.heap a := fun a ha => by
    rw [hexp.heap, if_neg ha]
  have hnodup : (s.mgr.due s.clock).Nodup :=
    h.represents.ordered.nodup.sublist (List.takeWhile_sublist _)
  refine ⟨hexp.represents, fun a ha => ?_, fun a ha => ?_, fun a ha => ?_, htime, fun a ha => ?_,
    fun a hr => ?_, fun a ha => ?_⟩
  · simp only [System.handedOut] at ha ⊢
    by_cases hdue : a ∈ s.mgr.due s.clock
    · obtain ⟨hms, hnext, _⟩ := hfired a ha hdue
      rw [if_pos hdue, hms, hnext]
    · rw [if_neg hdue, hkept a hdue]
      exact h.deadline a ((hexp.mem a).mp ha).1
  · simp only [System.handedOut] at ha ⊢
    split
    · exact Nat.le_refl _
    · exact h.started a ((hexp.mem a).mp ha).1
  · simp only [System.handedOut] at ha ⊢
    by_cases hdue : a ∈ s.mgr.due s.clock
    · obtain ⟨_, hnext, hlt⟩ := hfired a ha hdue
      exact hnext ▸ hlt
    · rw [hkept a hdue]
      exact h.bounded a ((hexp.mem a).mp ha).1
  · simp only [System.handedOut, List.mem_append, hexp.issued] at ha ⊢
    rcases ha with ha | ha
    · exact h.issued a ha
    · exact h.represents.issued a (h.represents.mem_due.mp ha).1
  · simp only [System.handedOut, hrec] at hr ⊢
    obtain ⟨hcount, hpend⟩ := h.once a hr
    rw [List.count_append, List.mem_append]
    by_cases hdue : a ∈ s.mgr.due s.clock
    · -- it leaves the set with this hand-out, its first
      have hold := hpend (h.represents.mem_due.mp hdue).1
      refine ⟨?_, fun ha => ?_⟩
      · rw [List.count_eq_zero_of_not_mem hold, Nat.zero_add]
        exact List.nodup_iff_count_le_one.mp hnodup a
      · have hrecur := ((hexp.mem a).mp ha).2 hdue
        rw [hr] at hrecur
        cases hrecur
    · refine ⟨by rwa [List.count_eq_zero_of_not_mem hdue], fun ha => ?_⟩
      have hold := hpend ((hexp.mem a).mp ha).1
      simp [hold, hdue]
  · obtain ⟨hiss, hout⟩ := h.cancelled a ha
    exact ⟨hexp.issued ▸ hiss, fun hin => hout ((hexp.mem a).mp hin).1⟩

theorem op_delivers (s : System) (c : Call) (r : Except Fault System) (h : Delivers s)
    (hbound : NoOverflow s c) (hop : op s c = some r) : Holds Delivers (fun _ => False) r := by
  cases c with
  | tick elapsed =>
      cases hop
      exact h.tick elapsed
  | addTimer a ms cb recurring =>
      simp only [op] at hop
      split at hop
      · cases hop
      · rename_i hfresh
        cases hop
        exact h.addTimer cb recurring (Bool.eq_false_iff.mpr hfresh) hbound
  | cancel a =>
      simp only [op] at hop
      split at hop
      · rename_i hissued
        obtain ⟨r', hrun, _, hdel⟩ := h.cancel hissued
        rw [hrun] at hop
        cases hop
        exact hdel
      · cases hop
  | refresh a =>
      simp only [op] at hop
      split at hop
      · rename_i hissued
        cases hop
        exact h.refresh hissued hbound
      · cases hop
  | reset a ms fromNow =>
      simp only [op] at hop
      split at hop
      · rename_i hissued
        cases hop
        exact h.reset hissued fromNow hbound
      · cases hop
  | getNextTimer =>
      cases hop
      exact h.getNextTimer
  | listExpiredCb probe =>
      simp only [op] at hop
      split at hop
      · cases hop
      · rename_i hprobe
        obtain ⟨m, hrun, hexp, htime⟩ :=
          h.represents.listExpiredCb h.forward (Bool.eq_false_iff.mpr hprobe)
        rw [hrun] at hop
        cases hop
        exact h.handedOut hexp htime hbound

/-! ## What becomes of a pending timer -/

theorem update_cb {heap : Addr → Timer} {a b : Addr} {t : Timer} (ht : t.cb = (heap a).cb) :
    (Function.update heap a t b).cb = (heap b).cb := by
  by_cases hba : b = a
  · rw [hba, Function.update_self, ht]
  · rw [Function.update_of_ne hba]

theorem refresh_keeps {m : TimerManager} (h : Represents m) (now : Nat) {a b : Addr}
    (hb : m.issued b = true) (ha : a ∈ m.timers) :
    a ∈ (m.refresh now b).2.timers ∧ ((m.refresh now b).2.heap a).cb = (m.heap a).cb := by
  obtain ⟨hout, hin⟩ := h.refresh now hb
  by_cases hpending : b ∈ m.timers
  · obtain ⟨m', hrun, -, hheap, hmem, -⟩ := hin hpending
    rw [hrun]
    exact ⟨(hmem a).mpr ha, hheap ▸ update_cb rfl⟩
  · rw [hout hpending]
    exact ⟨ha, rfl⟩

theorem reset_keeps {m : TimerManager} (h : Represents m) (now : Nat) {a b : Addr}
    (hb : m.issued b = true) (ha : a ∈ m.timers) (ms : Nat) (fromNow : Bool) :
    a ∈ (m.reset now b ms fromNow).2.2.timers ∧
      ((m.reset now b ms fromNow).2.2.heap a).cb = (m.heap a).cb := by
  obtain ⟨hsame, hout, hin⟩ := h.reset now hb ms fromNow
  by_cases hne : ms = (m.heap b).ms ∧ ¬ fromNow
  · rw [hsame hne]
    exact ⟨ha, rfl⟩
  · by_cases hpending : b ∈ m.timers
    · obtain ⟨atFront, m', hrun, -, hheap, hmem, -⟩ := hin hne hpending
      rw [hrun]
      exact ⟨(hmem a).mpr ha, hheap ▸ update_cb rfl⟩
    · rw [hout hne hpending]
      exact ⟨ha, rfl⟩

theorem Delivers.kept_cancel {s t : System} (h : Delivers s) {a b : Addr}
    (ht : op s (.cancel b) = some (.ok t)) (ha : a ∈ s.mgr.timers) :
    a ∈ t.mgr.timers ∧ (t.mgr.heap a).cb = (s.mgr.heap a).cb ∨
      b = a ∧ t.cancelled a = true := by
  simp only [op] at ht
  split at ht
  · rename_i hissued
    obtain ⟨hout, hin⟩ := h.represents.cancel hissued
    by_cases hb : b ∈ s.mgr.timers
    · obtain ⟨m, hrun, -, hheap, htimers, -⟩ := hin hb
      rw [hrun] at ht
      cases ht
      by_cases hab : a = b
      · subst hab
        exact .inr ⟨rfl, Function.update_self ..⟩
      · refine .inl ⟨?_, ?_⟩
        · rw [htimers]
          exact h.represents.mem_erase.mpr ⟨ha, hab⟩
        · rw [hheap, Function.update_of_ne hab]
    · rw [hout hb] at ht
      cases ht
      exact .inl ⟨ha, rfl⟩
  · cases ht

theorem Delivers.kept_listExpiredCb {s t : System} (h : Delivers s) {a probe : Addr}
    (ht : op s (.listExpiredCb probe) = some (.ok t)) (ha : a ∈ s.mgr.timers) :
    a ∈ t.mgr.timers ∧ (t.mgr.heap a).cb = (s.mgr.heap a).cb ∨
      t.delivered.count a = s.delivered.count a + 1 := by
  simp only [op] at ht
  split at ht
  · cases ht
  · rename_i hprobe
    obtain ⟨m, hrun, hexp, -⟩ :=
      h.represents.listExpiredCb h.forward (Bool.eq_false_iff.mpr hprobe)
    rw [hrun] at ht
    cases ht
    by_cases hdue : a ∈ s.mgr.due s.clock
    · have hnodup : (s.mgr.due s.clock).Nodup :=
        h.represents.ordered.nodup.sublist (List.takeWhile_sublist _)
      right
      simp only [System.handedOut, List.count_append]
      rw [List.count_eq_one_of_mem hnodup hdue]
    · refine .inl ⟨(hexp.mem a).mpr ⟨ha, fun hin => (hdue hin).elim⟩, ?_⟩
      simp only [System.handedOut, hexp.heap, if_neg hdue]

/-- A pending timer stays so with its callback, or the call cancels it or hands it out. -/
theorem Delivers.kept {s t : System} (h : Delivers s) {c : Call} (ht : op s c = some (.ok t))
    {a : Addr} (ha : a ∈ s.mgr.timers) :
    a ∈ t.mgr.timers ∧ (t.mgr.heap a).cb = (s.mgr.heap a).cb ∨
      c = .cancel a ∧ t.cancelled a = true ∨
      (∃ probe, c = .listExpiredCb probe) ∧
        t.delivered.count a = s.delivered.count a + 1 := by
  cases c with
  | tick elapsed =>
      cases ht
      exact .inl ⟨ha, rfl⟩
  | addTimer b ms cb recurring =>
      simp only [op] at ht
      split at ht <;> cases ht
      rename_i hfresh
      obtain ⟨-, hheap, hmem⟩ :=
        h.represents.addTimer (Bool.eq_false_iff.mpr hfresh) s.clock ms cb recurring
      have hab : a ≠ b := fun heq => hfresh (heq ▸ h.represents.issued a ha)
      refine .inl ⟨(hmem a).mpr (.inr ha), ?_⟩
      simp only [System.rearmed, hheap, Function.update_of_ne hab]
  | cancel b =>
      exact (h.kept_cancel ht ha).imp_right fun ⟨heq, hset⟩ => .inl ⟨heq ▸ rfl, hset⟩
  | refresh b =>
      simp only [op] at ht
      split at ht <;> cases ht
      rename_i hissued
      exact .inl (refresh_keeps h.represents s.clock hissued ha)
  | reset b ms fromNow =>
      simp only [op] at ht
      split at ht <;> cases ht
      rename_i hissued
      exact .inl (reset_keeps h.represents s.clock hissued ha ms fromNow)
  | getNextTimer =>
      cases ht
      rw [getNextTimer_shared]
      exact .inl ⟨ha, rfl⟩
  | listExpiredCb probe =>
      exact (h.kept_listExpiredCb ht ha).imp_right fun hcount => .inr ⟨⟨probe, rfl⟩, hcount⟩

/-- A new timer is pending with its callback. -/
theorem Delivers.added {s : System} (h : Delivers s) {a : Addr} (ha : s.mgr.issued a = false)
    {ms : Nat} (hbound : s.clock + ms < 2 ^ 64) (cb : Cb) (recurring : Bool) :
    ∃ atFront m, s.mgr.addTimer s.clock a ms (some cb) recurring = (atFront, m) ∧ a ∈ m.timers ∧
      m.heap a = ⟨recurring, ms, s.clock + ms, some cb⟩ := by
  obtain ⟨-, hheap, hmem⟩ := h.represents.addTimer ha s.clock ms cb recurring
  have hnext : u64 (s.clock + ms) = s.clock + ms := Nat.mod_eq_of_lt hbound
  refine ⟨_, _, Prod.mk.eta.symm, (hmem a).mpr (.inl rfl), ?_⟩
  rw [hheap, Function.update_self, Timer.new, hnext]

/-! ## Every run -/

/-- What the next call finds: a new timer is pending, one period after the start of its arming,
until `cancel` or `listExpiredCb` takes it; `listExpiredCb` hands out each due timer once, never
early and never after its cancel; a timer that does not recur is handed out once and stays
unarmed; a reset that is not from now keeps the start of the arming. -/
structure Punctual (s : System) : Prop where
  pending : ∀ a, a ∈ s.mgr.timers ↔ s.mgr.issued a = true ∧ (s.mgr.heap a).cb ≠ none
  deadline : ∀ a ∈ s.mgr.timers,
    (s.mgr.heap a).next = s.start a + (s.mgr.heap a).ms ∧ s.start a ≤ s.clock
  added : ∀ a, s.mgr.issued a = false → ∀ ms, s.clock + ms < 2 ^ 64 → ∀ cb recurring,
    ∃ atFront m, s.mgr.addTimer s.clock a ms (some cb) recurring = (atFront, m) ∧ a ∈ m.timers ∧
      m.heap a = ⟨recurring, ms, s.clock + ms, some cb⟩
  kept : ∀ c t, op s c = some (.ok t) → ∀ a ∈ s.mgr.timers,
    a ∈ t.mgr.timers ∧ (t.mgr.heap a).cb = (s.mgr.heap a).cb ∨
      c = .cancel a ∧ t.cancelled a = true ∨
      (∃ probe, c = .listExpiredCb probe) ∧
        t.delivered.count a = s.delivered.count a + 1
  handed_out : ∀ probe, s.mgr.issued probe = false → ∃ expired m,
    s.mgr.listExpiredCb s.clock probe =
      .ok (expired, expired.map fun a => (s.mgr.heap a).cb, m) ∧
    expired.Nodup ∧
    (∀ a ∈ expired, a ∈ s.mgr.timers ∧ s.start a + (s.mgr.heap a).ms ≤ s.clock) ∧
    (∀ a ∈ s.mgr.timers, (s.mgr.heap a).next ≤ s.clock → a ∈ expired) ∧
    (∀ a ∈ expired, (s.mgr.heap a).recurring = true → s.clock + (s.mgr.heap a).ms < 2 ^ 64 →
      a ∈ m.timers ∧ (m.heap a).next = s.clock + (s.mgr.heap a).ms) ∧
    (∀ a, s.cancelled a = true → a ∉ expired)
  once : ∀ a, (s.mgr.heap a).recurring = false → s.delivered.count a ≤ 1
  stays_unarmed : ∀ a ∈ s.delivered, (s.mgr.heap a).recurring = false →
    a ∉ s.mgr.timers ∧ s.mgr.refresh s.clock a = (false, s.mgr) ∧
      ∀ ms fromNow, (s.mgr.reset s.clock a ms fromNow).2.2 = s.mgr
  reset_from_start : ∀ a ∈ s.mgr.timers, ∀ ms, s.clock + ms < 2 ^ 64 → ∃ atFront m,
    s.mgr.reset s.clock a ms false = (true, atFront, m) ∧ (m.heap a).ms = ms ∧
      (m.heap a).next = s.start a + ms ∧ a ∈ m.timers

theorem Delivers.handed_out {s : System} (h : Delivers s) {probe : Addr}
    (hprobe : s.mgr.issued probe = false) : ∃ expired m,
    s.mgr.listExpiredCb s.clock probe =
      .ok (expired, expired.map fun a => (s.mgr.heap a).cb, m) ∧
    expired.Nodup ∧
    (∀ a ∈ expired, a ∈ s.mgr.timers ∧ s.start a + (s.mgr.heap a).ms ≤ s.clock) ∧
    (∀ a ∈ s.mgr.timers, (s.mgr.heap a).next ≤ s.clock → a ∈ expired) ∧
    (∀ a ∈ expired, (s.mgr.heap a).recurring = true → s.clock + (s.mgr.heap a).ms < 2 ^ 64 →
      a ∈ m.timers ∧ (m.heap a).next = s.clock + (s.mgr.heap a).ms) ∧
    (∀ a, s.cancelled a = true → a ∉ expired) := by
  obtain ⟨m, hrun, hexp, _⟩ := h.represents.listExpiredCb h.forward hprobe
  have hdue : ∀ a, a ∈ s.mgr.due s.clock ↔ a ∈ s.mgr.timers ∧ (s.mgr.heap a).next ≤ s.clock :=
    fun a => h.represents.mem_due
  refine ⟨_, m, hrun, h.represents.ordered.nodup.sublist (List.takeWhile_sublist _),
    fun a ha => ?_, fun a ha hle => (hdue a).mpr ⟨ha, hle⟩, fun a ha hrec hlt => ?_,
    fun a ha hin => (h.cancelled a ha).2 ((hdue a).mp hin).1⟩
  · obtain ⟨hin, hle⟩ := (hdue a).mp ha
    exact ⟨hin, h.deadline a hin ▸ hle⟩
  · refine ⟨(hexp.mem a).mpr ⟨((hdue a).mp ha).1, fun _ => hrec⟩, ?_⟩
    rw [hexp.heap, if_pos ha, firedTimer, if_pos hrec]
    exact Nat.mod_eq_of_lt hlt

theorem Delivers.reset_from_start {s : System} (h : Delivers s) {a : Addr}
    (ha : a ∈ s.mgr.timers) {ms : Nat} (hbound : s.clock + ms < 2 ^ 64) : ∃ atFront m,
    s.mgr.reset s.clock a ms false = (true, atFront, m) ∧ (m.heap a).ms = ms ∧
      (m.heap a).next = s.start a + ms ∧ a ∈ m.timers := by
  obtain ⟨hsame, _, hin⟩ := h.represents.reset s.clock (h.represents.issued a ha) ms false
  by_cases hne : ms = (s.mgr.heap a).ms ∧ ¬ (false = true)
  · exact ⟨false, s.mgr, hsame hne, hne.1.symm, by rw [h.deadline a ha, hne.1], ha⟩
  · obtain ⟨atFront, m, hrun, _, hheap, hmem, _⟩ := hin hne ha
    refine ⟨atFront, m, hrun, ?_, ?_, (hmem a).mpr ha⟩
    · rw [hheap, Function.update_self]
      rfl
    · rw [hheap, Function.update_self]
      exact h.resetTimer_next ha false hbound

theorem Delivers.punctual {s : System} (h : Delivers s) : Punctual s where
  pending := h.represents.pending
  deadline := fun a ha => ⟨h.deadline a ha, h.started a ha⟩
  added := fun _ ha _ hbound cb recurring => h.added ha hbound cb recurring
  kept := fun _ _ ht _ ha => h.kept ht ha
  handed_out := fun _ hprobe => h.handed_out hprobe
  once := fun a hrec => (h.once a hrec).1
  stays_unarmed := by
    intro a ha hrec
    have hout : a ∉ s.mgr.timers := fun hin => (h.once a hrec).2 hin ha
    have hissued := h.issued a ha
    refine ⟨hout, (h.represents.refresh s.clock hissued).1 hout, fun ms fromNow => ?_⟩
    obtain ⟨hsame, hreset, _⟩ := h.represents.reset s.clock hissued ms fromNow
    by_cases hne : ms = (s.mgr.heap a).ms ∧ ¬ fromNow
    · rw [hsame hne]
    · rw [hreset hne hout]
  reset_from_start := fun _ ha _ hbound => h.reset_from_start ha hbound

/-- Timer delivery over whole runs. -/
theorem timer_delivery (now : Nat) {r : Except Fault System}
    (h : Reaches step (onOk NoOverflow) (.ok (.init now)) r) : ∃ s, r = .ok s ∧ Punctual s := by
  have hinv := h.invariant (preserves_abortable op_delivers) (delivers_init now)
  cases r with
  | ok s => exact ⟨s, rfl, hinv.punctual⟩
  | error e => exact hinv.elim

instance (s : System) (c : Call) : Decidable (NoOverflow s c) :=
  match c with
  | .addTimer _ _ _ _ | .refresh _ | .reset _ _ _ => inferInstanceAs (Decidable (_ < _))
  | .listExpiredCb _ => inferInstanceAs (Decidable (∀ a ∈ s.mgr.due s.clock, _ → _))
  | .tick _ | .cancel _ | .getNextTimer => inferInstanceAs (Decidable True)

/-- A recurring timer is shortened and fires beside a one-shot timer, then is cancelled. -/
def sampleRun : List Call :=
  [.addTimer 1 100 7 true, .tick 10, .addTimer 2 50 8 false, .reset 1 30 false, .tick 50,
    .listExpiredCb 3, .cancel 1, .tick 100]

theorem timer_delivery_sample :
    ∃ s, Transition.checkedRun step (fun s c => decide (onOk NoOverflow s c))
        (.ok (.init 1000)) sampleRun = some (.ok s) ∧ Punctual s := by
  have hrun : (Transition.checkedRun step (fun s c => decide (onOk NoOverflow s c))
      (.ok (.init 1000)) sampleRun).isSome := by decide
  obtain ⟨r, hr⟩ := Option.isSome_iff_exists.mp hrun
  obtain ⟨s, rfl, hs⟩ := timer_delivery 1000 (.of_decidedRun hr)
  exact ⟨s, hr, hs⟩

end Sylar.Timers
