import Sylar.Collection.Sum
import Sylar.Timer.Deadline
import Sylar.Wakeup.Poller

/-! # Wake-ups for timers

While a worker waits, either somebody is on the way to wake one, or some worker wakes
no later than the earliest deadline. `m_tickled` is cleared by a poll, so as long as it is set
the notification that set it has not been followed by a poll: it is still on its way, or a
worker that it woke has yet to poll.
-/

namespace Sylar.Wakeup

open Timers Transition Collection

variable {n : Nat}

/-! ## Program points -/

/-- The worker polls again before it waits. -/
def Pc.awake : Pc → Bool
  | .stopping timeout _ => decide (epollTimeout timeout = 0)
  | .waiting _ | .leaving | .ended => false
  | _ => true

def Pc.dozes : Pc → Bool
  | .stopping timeout _ => decide (epollTimeout timeout ≠ 0)
  | .waiting _ => true
  | _ => false

/-- When its wait ends by itself; a worker that may still leave has no such time. -/
def Pc.wake : Pc → Option Nat
  | .stopping timeout now =>
      if timeout = 2 ^ 64 - 1 then none else waitUntil now (epollTimeout timeout)
  | .waiting wake => wake
  | _ => none

/-- What it adds to `m_idleThreadCount`. -/
def Pc.counted : Pc → Nat
  | .busy | .ended => 0
  | _ => 1

/-- Readings that a program point or a call holds are not from the future. -/
def Pc.Read (clock : Nat) : Pc → Prop
  | .checkEmpty _ now | .takeExpired _ now => now ≤ clock
  | _ => True

def Stage.Read (clock : Nat) : Stage → Prop
  | .constructed created ms _ _ => created ≤ clock ∧ ms < 2 ^ 31
  | .resetting _ ms _ => ms < 2 ^ 31
  | _ => True

/-- The call is between the unlock of `addTimer` and the end of its `tickle()`. -/
def Stage.notifies : Stage → Bool
  | .tickle true | .write true => true
  | _ => false

theorem epollTimeout_short {timeout : Nat} (h : timeout < 2 ^ 31) :
    epollTimeout timeout = min (timeout : Int) 3000 := by
  have hcast : Int.bmod timeout (2 ^ 32) = timeout := by
    rw [Int.bmod_eq_emod_of_lt] <;> omega
  unfold epollTimeout
  rw [if_pos (by omega), hcast]
  split <;> omega

theorem wake_stopping {timeout now : Nat} (h : timeout < 2 ^ 31) :
    (Pc.stopping timeout now).wake = some (now + min timeout 3000) := by
  have hnat : (min (timeout : Int) 3000).toNat = min timeout 3000 := by omega
  simp only [Pc.wake, waitUntil, epollTimeout_short h, hnat]
  rw [if_neg (by omega), if_neg (by omega)]

/-! ## What a reached state keeps -/

structure Sound (s : State n) : Prop where
  bounded : s.clock + 2 ^ 31 ≤ 2 ^ 64
  arranged : Arranged s.clock s.mgr
  stages : ∀ th, (s.calls th).Read s.clock
  readings : ∀ w, (s.workers w).Read s.clock
  counted : s.idle = ∑ w, (s.workers w).counted

def State.attended (s : State n) : Prop :=
  (∃ th, (s.calls th).notifies = true) ∨ s.pipe ≠ 0 ∨ (∃ w, (s.workers w).awake = true) ∨
    ∀ w, (s.workers w).dozes = false

/-- The flag is set only while a wake-up is under way, and otherwise a worker wakes by the
earliest deadline. -/
structure Heeded (s : State n) : Prop where
  told : s.mgr.tickled = true → s.attended
  covered : s.attended ∨ s.mgr.timers = [] ∨
    ∃ w wake, (s.workers w).wake = some wake ∧ ∀ a ∈ s.mgr.timers, wake ≤ (s.mgr.heap a).next

theorem sound_init {now : Nat} (h : now + 2 ^ 31 ≤ 2 ^ 64) : Sound (.init n now) where
  bounded := h
  arranged := arranged_init now
  stages := fun _ => trivial
  readings := fun _ => trivial
  counted := by simp [State.init, Pc.counted]

theorem heeded_init (now : Nat) : Heeded (.init n now) where
  told := nofun
  covered := .inr (.inl rfl)

variable {s s' : State n}

theorem Sound.none_dozes (h : Sound s) (hidle : s.idle = 0) (w : Fin n) :
    (s.workers w).dozes = false := by
  have hcounted := h.counted
  rw [hidle, eq_comm, Finset.sum_eq_zero_iff] at hcounted
  have hw := hcounted w (Finset.mem_univ w)
  cases hpc : (s.workers w) <;> rw [hpc] at hw <;> first | rfl | cases hw

/-! ## Soundness of a step -/

/-- A worker goes on; the counter follows its program point. -/
theorem Sound.move (h : Sound s) {w : Fin n} {pc : Pc}
    (hs' : s' = { s' with
      workers := Function.update s.workers w pc
      clock := s.clock
      calls := s.calls })
    (hpc : pc.Read s.clock)
    (hidle : s'.idle + (s.workers w).counted = s.idle + pc.counted)
    (hmgr : Arranged s.clock s'.mgr) : Sound s' where
  bounded := by rw [hs']; exact h.bounded
  arranged := by
    have hclock : s'.clock = s.clock := by rw [hs']
    exact hclock ▸ hmgr
  stages := by rw [hs']; exact h.stages
  readings := fun v => by
    have hclock : s'.clock = s.clock := by rw [hs']
    have hworkers : s'.workers = Function.update s.workers w pc := by rw [hs']
    rw [hclock, hworkers]
    by_cases hv : v = w
    · rw [hv, Function.update_self]
      exact hpc
    · rw [Function.update_of_ne hv]
      exact h.readings v
  counted := by
    have hsum := sum_update Pc.counted s.workers w pc
    have hcounted := h.counted
    have hworkers : s'.workers = Function.update s.workers w pc := by rw [hs']
    rw [hworkers]
    omega

theorem Sound.call (h : Sound s) {th : Thread n} {stage : Stage}
    (hs' : s' = { s' with
      calls := Function.update s.calls th stage
      clock := s.clock
      workers := s.workers
      idle := s.idle })
    (hstage : stage.Read s.clock) (hmgr : Arranged s.clock s'.mgr) : Sound s' where
  bounded := by rw [hs']; exact h.bounded
  arranged := by
    have hclock : s'.clock = s.clock := by rw [hs']
    exact hclock ▸ hmgr
  stages := fun t => by
    have hclock : s'.clock = s.clock := by rw [hs']
    have hcalls : s'.calls = Function.update s.calls th stage := by rw [hs']
    rw [hclock, hcalls]
    by_cases ht : t = th
    · rw [ht, Function.update_self]
      exact hstage
    · rw [Function.update_of_ne ht]
      exact h.stages t
  readings := by rw [hs']; exact h.readings
  counted := by rw [hs']; exact h.counted

theorem Sound.tick (h : Sound s) {elapsed : Nat} (hbound : s.clock + elapsed + 2 ^ 31 ≤ 2 ^ 64) :
    Sound { s with clock := s.clock + elapsed } where
  bounded := hbound
  arranged := h.arranged.mono (Nat.le_add_right _ _)
  stages := fun th => by
    have hread := h.stages th
    cases hstage : s.calls th <;> simp only [hstage, Stage.Read] at hread ⊢ <;> omega
  readings := fun w => by
    have hread := h.readings w
    cases hpc : s.workers w <;> simp only [hpc, Pc.Read] at hread ⊢ <;> omega
  counted := h.counted

/-- The write-locked section of a worker takes what the manager hands out. -/
theorem accessAt_takeExpired {w : Fin n} {probe : Addr} {pipe : Bool} {now : Nat}
    (hr : s.accessAt w probe (.takeExpired pipe now) = some (.ok s')) :
    ∃ r, s.mgr.takeExpired now probe = .ok r ∧
      s' = { s with mgr := r.2.2 }.goto w (.dispatch pipe) := by
  simp only [State.accessAt] at hr
  split at hr
  · cases hr
  · have hmap := Option.some.inj hr
    cases hrun : s.mgr.takeExpired now probe with
    | error e =>
        rw [hrun] at hmap
        cases hmap
    | ok r =>
        rw [hrun] at hmap
        exact ⟨r, rfl, (Except.ok.inj hmap).symm⟩

/-- What an access does to the manager keeps it arranged; the counter is decremented only
by a worker that is counted. -/
theorem Sound.accessAt (h : Sound s) {w : Fin n} {probe : Addr}
    (hr : s.accessAt w probe (s.workers w) = some (.ok s')) : Sound s' := by
  have hread := h.readings w
  have hpos : (s.workers w).counted ≤ s.idle := by
    rw [h.counted]
    exact Finset.single_le_sum (f := fun v => (s.workers v).counted) (fun _ _ => Nat.zero_le _)
      (Finset.mem_univ w)
  have hdec : ∀ pc : Pc, (s.workers w).counted = 1 → pc.counted = 0 →
      sizeDec s.idle + (s.workers w).counted = s.idle + pc.counted := by
    intro pc hone hzero
    obtain ⟨idle, hidle⟩ := Nat.exists_eq_succ_of_ne_zero (n := s.idle) (by omega)
    rw [hone, hzero, hidle, Nat.succ_eq_add_one, sizeDec_succ]
  cases hpc : s.workers w <;> rw [hpc] at hr hread hdec
  case busy =>
    cases hr
    refine h.move rfl trivial ?_ h.arranged
    rw [hpc]
    rfl
  case poll =>
    cases hr
    refine h.move rfl trivial ?_ ?_
    · rw [hpc]
      rfl
    · rw [getNextTimer_shared]
      exact ⟨h.arranged.ordered, h.arranged.issued, h.arranged.armed⟩
  case stopping timeout now => cases hr
  case waiting wake => cases hr
  case returned pipe =>
    cases hr
    refine h.move rfl (Nat.le_refl _) ?_ h.arranged
    rw [hpc]
    rfl
  case checkEmpty pipe now =>
    cases hr
    refine h.move rfl ?_ ?_ h.arranged
    · split
      · trivial
      · exact hread
    · rw [hpc]
      split <;> rfl
  case takeExpired pipe now =>
    obtain ⟨r, hrun, rfl⟩ := accessAt_takeExpired hr
    refine h.move rfl trivial ?_ (h.arranged.takeExpired h.bounded hread hrun)
    rw [hpc]
    rfl
  case dispatch pipe =>
    cases pipe <;> cases hr <;> refine h.move rfl trivial ?_ h.arranged <;> rw [hpc] <;> rfl
  case idleDec =>
    cases hr
    refine h.move rfl trivial ?_ h.arranged
    rw [hpc]
    exact hdec .busy rfl rfl
  case leaving =>
    cases hr
    refine h.move rfl trivial ?_ h.arranged
    rw [hpc]
    exact hdec .ended rfl rfl
  case ended => cases hr

theorem Sound.stopping (h : Sound s) {w : Fin n} {timeout now : Nat} (quiet pipe : Bool)
    (hpc : s.workers w = .stopping timeout now) : Sound (s.stopping w timeout now quiet pipe) := by
  unfold State.stopping
  split
  · refine h.move rfl trivial ?_ h.arranged
    rw [hpc]
    rfl
  · split
    · refine h.move rfl trivial ?_ h.arranged
      rw [hpc]
      rfl
    · refine h.move rfl trivial ?_ h.arranged
      rw [hpc]
      rfl

theorem afterInsert_read (clock : Nat) (atFront : Bool) : (afterInsert atFront).Read clock := by
  cases atFront <;> trivial

/-! ## Wake-ups through a step -/

theorem Heeded.of_attended (h : s.attended) : Heeded s := ⟨fun _ => h, .inl h⟩

/-- Whatever else the step does, its worker is awake afterwards. -/
theorem Heeded.of_awake {w : Fin n} {pc : Pc}
    (hworkers : s'.workers = Function.update s.workers w pc) (hpc : pc.awake = true) :
    Heeded s' := by
  refine .of_attended (.inr (.inr (.inl ⟨w, ?_⟩)))
  rw [hworkers, Function.update_self]
  exact hpc

theorem Heeded.heeds (h : Heeded s) (hattended : s.attended → s'.attended)
    (hheeds : Heeds s.mgr false s'.mgr) (hworkers : s'.workers = s.workers) : Heeded s' := by
  obtain ⟨htickled, hrest⟩ := hheeds.resolve_left Bool.false_ne_true
  rcases hrest with hset | hlater
  · exact .of_attended (hattended (h.told hset))
  · refine ⟨fun hset => hattended (h.told (htickled ▸ hset)), ?_⟩
    rcases h.covered with hatt | hnil | ⟨w, wake, hw, hle⟩
    · exact .inl (hattended hatt)
    · refine .inr (.inl (List.eq_nil_iff_forall_not_mem.mpr fun b hb => ?_))
      obtain ⟨a, ha, _⟩ := hlater b hb
      rw [hnil] at ha
      cases ha
    · refine .inr (.inr ⟨w, wake, hworkers ▸ hw, fun b hb => ?_⟩)
      obtain ⟨a, ha, hnext⟩ := hlater b hb
      exact (hle a ha).trans hnext

theorem attended_setCall {th : Thread n} {stage : Stage} (h : s.attended)
    (hs' : s' = { s' with
      calls := Function.update s.calls th stage
      pipe := s.pipe
      workers := s.workers })
    (hth : (s.calls th).notifies = true → stage.notifies = true) : s'.attended := by
  have hcalls : s'.calls = Function.update s.calls th stage := by rw [hs']
  have hpipe : s'.pipe = s.pipe := by rw [hs']
  have hworkers : s'.workers = s.workers := by rw [hs']
  rcases h with ⟨t, ht⟩ | hp | hw | hw
  · refine .inl ⟨t, ?_⟩
    rw [hcalls]
    by_cases heq : t = th
    · rw [heq, Function.update_self]
      exact hth (heq ▸ ht)
    · rwa [Function.update_of_ne heq]
  · exact .inr (.inl (hpipe ▸ hp))
  · exact .inr (.inr (.inl (hworkers ▸ hw)))
  · exact .inr (.inr (.inr (hworkers ▸ hw)))

/-- The start or the end of a call, which leaves the timers alone. -/
theorem Heeded.setCall (h : Heeded s) {th : Thread n} {stage : Stage}
    (hth : (s.calls th).notifies = true → stage.notifies = true) :
    Heeded (s.setCall th stage) :=
  h.heeds (fun hatt => attended_setCall hatt rfl hth) (.inr ⟨rfl, .inr (Later.refl _)⟩) rfl

/-- A locked section that ends in `addTimer(val, lock)`. -/
theorem Heeded.insert (h : Heeded s) {th : Thread n} (hth : (s.calls th).notifies = false)
    {m : TimerManager} {atFront : Bool} (hheeds : Heeds s.mgr atFront m) :
    Heeded ({ s with mgr := m }.setCall th (afterInsert atFront)) := by
  cases atFront with
  | true =>
      refine .of_attended (.inl ⟨th, ?_⟩)
      simp [State.setCall, afterInsert, Stage.notifies]
  | false =>
      refine h.heeds (fun hatt => attended_setCall hatt rfl ?_) hheeds rfl
      rw [hth]
      exact nofun

/-- A worker that is not awake goes on, without a time at which it wakes or with the old one. -/
theorem Heeded.doze (h : Heeded s) {w : Fin n} {pc : Pc}
    (hs' : s' = { s' with
      workers := Function.update s.workers w pc
      mgr := s.mgr
      pipe := s.pipe
      calls := s.calls })
    (hawake : (s.workers w).awake = false)
    (hdozes : pc.dozes = true → (s.workers w).dozes = true)
    (hwake : ∀ wake, (s.workers w).wake = some wake → pc.wake = some wake) : Heeded s' := by
  have hworkers : s'.workers = Function.update s.workers w pc := by rw [hs']
  have hmgr : s'.mgr = s.mgr := by rw [hs']
  have hpipe : s'.pipe = s.pipe := by rw [hs']
  have hcalls : s'.calls = s.calls := by rw [hs']
  have hattended : s.attended → s'.attended := by
    rintro (ht | hp | ⟨v, hv⟩ | hnone)
    · exact .inl (hcalls ▸ ht)
    · exact .inr (.inl (hpipe ▸ hp))
    · have hvw : v ≠ w := by
        rintro rfl
        rw [hawake] at hv
        cases hv
      exact .inr (.inr (.inl ⟨v, by rwa [hworkers, Function.update_of_ne hvw]⟩))
    · refine .inr (.inr (.inr fun v => ?_))
      rw [hworkers]
      by_cases hvw : v = w
      · rw [hvw, Function.update_self]
        by_contra hpc
        have hold := hdozes (Bool.eq_true_of_not_eq_false hpc)
        rw [hnone w] at hold
        cases hold
      · rw [Function.update_of_ne hvw]
        exact hnone v
  refine ⟨fun hset => hattended (h.told (hmgr ▸ hset)), ?_⟩
  rw [hmgr]
  rcases h.covered with hatt | hnil | ⟨v, wake, hv, hle⟩
  · exact .inl (hattended hatt)
  · exact .inr (.inl hnil)
  · refine .inr (.inr ⟨v, wake, ?_, hle⟩)
    rw [hworkers]
    by_cases hvw : v = w
    · rw [hvw, Function.update_self]
      exact hwake wake (hvw ▸ hv)
    · rwa [Function.update_of_ne hvw]

/-- The poll clears the flag, and its worker waits no longer than to the earliest deadline. -/
theorem Heeded.poll (hs : Sound s) (w : Fin n) :
    Heeded ({ s with mgr := (s.mgr.getNextTimer s.clock).2 }.goto w
      (.stopping (s.mgr.getNextTimer s.clock).1 s.clock)) := by
  have hmgr := getNextTimer_shared s.mgr s.clock
  rcases hs.arranged.getNextTimer with ⟨hnil, _⟩ | hzero | ⟨_, hshort, hle⟩
  · refine ⟨fun hset => ?_, .inr (.inl ?_)⟩
    · change (s.mgr.getNextTimer s.clock).2.tickled = true at hset
      rw [hmgr] at hset
      cases hset
    · change (s.mgr.getNextTimer s.clock).2.timers = []
      rw [hmgr]
      exact hnil
  · rw [hzero]
    exact .of_awake rfl rfl
  · refine ⟨fun hset => ?_, .inr (.inr
      ⟨w, s.clock + min (s.mgr.getNextTimer s.clock).1 3000, ?_, fun a ha => ?_⟩)⟩
    · change (s.mgr.getNextTimer s.clock).2.tickled = true at hset
      rw [hmgr] at hset
      cases hset
    · simp only [State.goto, Function.update_self]
      exact wake_stopping hshort
    · change a ∈ (s.mgr.getNextTimer s.clock).2.timers at ha
      change _ ≤ ((s.mgr.getNextTimer s.clock).2.heap a).next
      rw [hmgr] at ha ⊢
      have hnext := hle a ha
      dsimp only
      omega

theorem Heeded.accessAt (h : Heeded s) (hs : Sound s) {w : Fin n} {probe : Addr}
    (hr : s.accessAt w probe (s.workers w) = some (.ok s')) : Heeded s' := by
  cases hpc : s.workers w <;> rw [hpc] at hr
  case poll =>
    cases hr
    exact .poll hs w
  case stopping timeout now => cases hr
  case waiting wake => cases hr
  case ended => cases hr
  case leaving =>
    cases hr
    refine h.doze rfl (by rw [hpc]; rfl) nofun fun wake hwake => ?_
    rw [hpc] at hwake
    cases hwake
  case checkEmpty pipe now =>
    cases hr
    exact .of_awake (s := s) (w := w) rfl (by split <;> rfl)
  case takeExpired pipe now =>
    obtain ⟨r, _, rfl⟩ := accessAt_takeExpired hr
    exact .of_awake (s := s) (w := w) rfl rfl
  case dispatch pipe =>
    cases pipe <;> cases hr <;> exact .of_awake (s := s) (w := w) rfl rfl
  all_goals
    cases hr
    exact .of_awake (s := s) (w := w) rfl rfl

theorem epollTimeout_forever : epollTimeout (2 ^ 64 - 1) = 3000 := rfl

theorem Heeded.stopping (h : Heeded s) {w : Fin n} {timeout now : Nat} (quiet pipe : Bool)
    (hpc : s.workers w = .stopping timeout now) : Heeded (s.stopping w timeout now quiet pipe) := by
  unfold State.stopping
  split
  · -- the worker leaves: it polled an empty set and vouches for no deadline
    rename_i hquiet
    refine h.doze (w := w) rfl ?_ nofun fun wake hwake => ?_
    · rw [hpc, Pc.awake, hquiet.1, epollTimeout_forever]
      rfl
    · rw [hpc, Pc.wake, if_pos hquiet.1] at hwake
      cases hwake
  · split
    · exact .of_awake (s := s) (w := w) rfl rfl
    · rename_i hne
      refine h.doze (w := w) rfl ?_ (fun _ => ?_) fun wake hwake => ?_
      · rw [hpc]
        exact decide_eq_false hne
      · rw [hpc]
        exact decide_eq_true hne
      · rw [hpc, Pc.wake] at hwake
        split at hwake
        · cases hwake
        · exact hwake

/-! ## Every run -/

structure SoundlyHeeded (s : State n) : Prop where
  sound : Sound s
  heeded : Heeded s

theorem SoundlyHeeded.insert (h : SoundlyHeeded s) {th : Thread n} {a : Addr}
    (hr : s.insert th a = some s') : SoundlyHeeded s' := by
  have hstage := h.sound.stages th
  unfold State.insert at hr
  split at hr
  · rename_i created ms cb recurring hth
    rw [hth] at hstage
    split at hr <;> cases hr
    rename_i hfresh
    obtain ⟨harranged, hheeds⟩ := h.sound.arranged.addTimer h.sound.bounded
      (Bool.eq_false_iff.mpr hfresh) hstage.1 hstage.2 cb recurring
    exact ⟨h.sound.call rfl (afterInsert_read _ _) harranged,
      h.heeded.insert (by rw [hth]; rfl) hheeds⟩
  · cases hr

theorem SoundlyHeeded.rearm (h : SoundlyHeeded s) {th : Thread n}
    (hr : s.rearm th = some s') : SoundlyHeeded s' := by
  have hstage := h.sound.stages th
  unfold State.rearm at hr
  split at hr <;> cases hr
  rename_i a ms fromNow hth
  rw [hth] at hstage
  obtain ⟨harranged, hheeds⟩ :=
    h.sound.arranged.resetLocked h.sound.bounded a hstage fromNow
  exact ⟨h.sound.call rfl (afterInsert_read _ _) harranged,
    h.heeded.insert (by rw [hth]; rfl) hheeds⟩

/-- A load that finds no idle worker means that every worker polls before it waits. -/
theorem SoundlyHeeded.notify (h : SoundlyHeeded s) {th : Thread n}
    (hr : s.notify th = some s') : SoundlyHeeded s' := by
  unfold State.notify at hr
  split at hr <;> cases hr
  · rename_i front hth
    by_cases hidle : s.idle = 0
    · rw [if_pos hidle]
      exact ⟨h.sound.call rfl trivial h.sound.arranged,
        .of_attended (.inr (.inr (.inr (h.sound.none_dozes hidle))))⟩
    · rw [if_neg hidle]
      exact ⟨h.sound.call rfl trivial h.sound.arranged,
        h.heeded.setCall fun hn => by rw [hth] at hn; cases front <;> first | rfl | cases hn⟩
  · exact ⟨h.sound.call rfl trivial h.sound.arranged,
      .of_attended (.inr (.inl (Nat.succ_ne_zero _)))⟩

theorem op_soundlyHeeded (s : State n) (a : Action n) (r : Except Fault (State n))
    (h : SoundlyHeeded s) (hbound : Bounded s a) (hr : op s a = some r) :
    Holds SoundlyHeeded (fun _ => True) r := by
  cases a with
  | tick elapsed =>
      cases hr
      exact ⟨h.sound.tick hbound, h.heeded.told, h.heeded.covered⟩
  | addTimer th ms cb recurring =>
      simp only [op] at hr
      split at hr <;> cases hr
      rename_i hready
      exact ⟨h.sound.call rfl ⟨le_rfl, hbound⟩ h.sound.arranged,
        h.heeded.setCall fun hn => by rw [hready.1] at hn; cases hn⟩
  | insert th a =>
      obtain ⟨t, ht, rfl⟩ := Option.map_eq_some_iff.mp hr
      exact h.insert ht
  | reset th a ms fromNow =>
      simp only [op] at hr
      split at hr <;> cases hr
      rename_i hready
      split
      · exact h
      · exact ⟨h.sound.call rfl hbound h.sound.arranged,
          h.heeded.setCall fun hn => by rw [hready.1.1] at hn; cases hn⟩
  | rearm th =>
      obtain ⟨t, ht, rfl⟩ := Option.map_eq_some_iff.mp hr
      exact h.rearm ht
  | refresh th a =>
      simp only [op] at hr
      split at hr <;> cases hr
      obtain ⟨harranged, hlater, htickled⟩ := h.sound.arranged.refresh h.sound.bounded a
      exact ⟨⟨h.sound.bounded, harranged, h.sound.stages, h.sound.readings, h.sound.counted⟩,
        h.heeded.heeds id (.inr ⟨htickled, .inr hlater⟩) rfl⟩
  | cancel th a =>
      simp only [op] at hr
      split at hr
      · have hmap := Option.some.inj hr
        cases hrun : s.mgr.cancel a with
        | error e =>
            rw [hrun] at hmap
            cases hmap
            trivial
        | ok q =>
            rw [hrun] at hmap
            cases hmap
            obtain ⟨harranged, hlater, htickled⟩ := h.sound.arranged.cancel hrun
            exact ⟨⟨h.sound.bounded, harranged, h.sound.stages, h.sound.readings,
              h.sound.counted⟩, h.heeded.heeds id (.inr ⟨htickled, .inr hlater⟩) rfl⟩
      · cases hr
  | tickle th =>
      simp only [op] at hr
      split at hr <;> cases hr
      rename_i hready
      exact ⟨h.sound.call rfl trivial h.sound.arranged,
        h.heeded.setCall fun hn => by rw [hready.1] at hn; cases hn⟩
  | notify th =>
      obtain ⟨t, ht, rfl⟩ := Option.map_eq_some_iff.mp hr
      exact h.notify ht
  | worker w probe =>
      simp only [op] at hr
      split at hr
      · cases r with
        | error e => trivial
        | ok t => exact ⟨h.sound.accessAt hr, h.heeded.accessAt h.sound hr⟩
      · cases hr
  | stopping w quiet pipe =>
      simp only [op] at hr
      split at hr
      · rename_i timeout now hpc
        split at hr <;> cases hr
        exact ⟨h.sound.stopping quiet pipe hpc, h.heeded.stopping quiet pipe hpc⟩
      · cases hr
  | wake w pipe =>
      simp only [op] at hr
      split at hr
      · rename_i wake hpc
        split at hr <;> cases hr
        refine ⟨h.sound.move rfl trivial ?_ h.sound.arranged, .of_awake (s := s) (w := w) rfl rfl⟩
        rw [hpc]
        rfl
      · cases hr

/-- Every worker waits or has ended its idle fiber, no notification is on its way, and some
timer is due before any waiting worker wakes. -/
def Stalled (s : State n) : Prop :=
  (∀ w, (∃ wake, s.workers w = .waiting wake) ∨ s.workers w = .ended) ∧
    (∃ w wake, s.workers w = .waiting wake) ∧ s.pipe = 0 ∧
    (∀ th, (s.calls th).notifies = false) ∧
    ∃ a ∈ s.mgr.timers, ∀ w wake, s.workers w = .waiting (some wake) → (s.mgr.heap a).next < wake

theorem Heeded.not_stalled (h : Heeded s) : ¬ Stalled s := by
  rintro ⟨hworkers, ⟨w, wake, hw⟩, hpipe, hcalls, a, ha, hearly⟩
  have hattended : ¬ s.attended := by
    rintro (⟨th, hth⟩ | hp | ⟨v, hv⟩ | hnone)
    · rw [hcalls th] at hth
      cases hth
    · exact hp hpipe
    · rcases hworkers v with ⟨u, hpc⟩ | hpc <;> rw [hpc] at hv <;> cases hv
    · have hdozes := hnone w
      rw [hw] at hdozes
      cases hdozes
  rcases h.covered with hatt | hnil | ⟨v, u, hv, hle⟩
  · exact hattended hatt
  · rw [hnil] at ha
    cases ha
  · rcases hworkers v with ⟨u', hpc⟩ | hpc <;> rw [hpc] at hv <;> cases hv
    exact absurd (hearly v u hpc) (Nat.not_lt.mpr (hle a ha))

/-- No wake-up for a timer is lost. A set flag means that a wake-up is under way, and
neither `refresh` nor the return of recurring timers makes the earliest deadline earlier. -/
theorem timer_wakeup_kept {now : Nat} (hnow : now + 2 ^ 31 ≤ 2 ^ 64)
    (h : Reaches step (onOk Bounded) (.ok (.init n now)) (.ok s)) :
    ¬ Stalled s ∧ (s.mgr.tickled = true → s.attended) ∧
      (∀ a, Later s.mgr (s.mgr.refresh s.clock a).2) ∧
      ∀ reading probe r, reading ≤ s.clock → s.mgr.issued probe = false →
        (s.mgr.detectClockRollover reading).1 = false →
        s.mgr.takeExpired reading probe = .ok r → Later s.mgr r.2.2 := by
  have hinv : SoundlyHeeded s :=
    h.invariant (preserves_abortable op_soundlyHeeded)
      (⟨sound_init hnow, heeded_init now⟩ : SoundlyHeeded (.init n now))
  have hbounded := hinv.sound.bounded
  have harranged := hinv.sound.arranged
  exact ⟨hinv.heeded.not_stalled, hinv.heeded.told,
    fun a => (harranged.refresh hbounded a).2.1,
    fun reading probe r hreading hprobe hrollover hr =>
      harranged.takeExpired_later hbounded hreading hprobe hrollover hr⟩

def timerRun : List (Action 2) :=
  [.addTimer (.other 0) 2000 (some 5) false, .insert (.other 0) 0, .notify (.other 0),
    .worker 0 9, .worker 0 9, .stopping 0 false false, .worker 1 9, .worker 1 9,
    .stopping 1 false false, .addTimer (.other 1) 10 (some 6) true, .tick 3, .insert (.other 1) 1,
    .notify (.other 1), .notify (.other 1), .tick 2]

theorem timer_wakeup_kept_sample :
    ∃ s, checkedRun step (fun s a => decide (onOk Bounded s a)) (.ok (.init 2 100)) timerRun =
        some (.ok s) ∧ s.workers 0 = .waiting (some 2100) ∧ (s.mgr.heap 1).next = 110 ∧
      ¬ Stalled s := by
  have hrun : (checkedRun step (fun s a => decide (onOk Bounded s a)) (.ok (.init 2 100))
      timerRun).any (okAnd fun s =>
        decide (s.workers 0 = .waiting (some 2100) ∧ (s.mgr.heap 1).next = 110)) := by
    decide
  obtain ⟨s, hr, hw, hnext⟩ := exists_ok_of_any hrun
  exact ⟨s, hr, hw, hnext, (timer_wakeup_kept (by decide) (.of_decidedRun hr)).1⟩

end Sylar.Wakeup
