import Sylar.Scheduler.WellFormed

/-! # Wake-ups for tasks

`IOManager::tickle` writes to the pipe only if it finds a worker counted as idle, and
`schedule` calls it only for a push onto an empty queue. A worker that has searched the queue
in vain and is not yet counted is missed by the first test, and an entry that no worker may
take hides a later one from the second. Where neither happens, no entry is left waiting.
-/

namespace Sylar.Scheduler

open Transition

variable {n : Nat}

/-! ## Wake-ups under way -/

/-- The worker searches the queue again before it waits. -/
def Pc.awake : Pc → Bool
  | .noTask | .idleCheck | .blocked | .exited => false
  | _ => true

/-- A worker is awake, the pipe is not empty, or a `tickle()` has not ended. -/
def State.attended (s : State n) : Prop :=
  (∃ w, (s.workers w).pc.awake = true) ∨ s.pipe ≠ 0 ∨ (∃ i, s.outside i ≠ .none) ∨
    ∃ w, (s.workers w).tickle ≠ .none

/-- A worker that has not left `run` may take an entry. -/
def State.waiting (s : State n) : Prop :=
  ∃ w, (s.workers w).pc ≠ .exited ∧ ∃ e ∈ s.queue, takeable s.states w e

/-- An entry that may be taken has a wake-up under way. -/
def Attended (s : State n) : Prop := s.waiting → s.attended

/-- A push from outside onto a queue that is not empty, and a `tickle()` that finds no idle
worker, happen only while another wake-up is under way or no entry may be taken. -/
def Timely (s : State n) : Action n → Prop
  | .outside _ c => c.tasks ≠ [] → s.queue ≠ [] → s.attended ∨ ¬ (s.call c).2.waiting
  | .outsideTickle i => s.outside i = .call → s.idle = 0 →
      { s with outside := Function.update s.outside i .none }.attended ∨ ¬ s.waiting
  | .worker w => (s.workers w).tickle = .call → s.idle = 0 →
      (s.setWorker w { s.workers w with tickle := .none }).attended ∨ ¬ s.waiting
  | _ => True

theorem attended_init (n : Nat) : Attended (.init n) := by
  rintro ⟨w, _, e, he, _⟩
  cases he

/-! ## Steps of a worker -/

/-- Whatever else the step does, its worker is awake afterwards. -/
theorem Attended.of_awake {s s' : State n} {w : Fin n} {x : Worker}
    (hworkers : s'.workers = Function.update s.workers w x) (hx : x.pc.awake = true) :
    Attended s' := by
  refine fun _ => .inl ⟨w, ?_⟩
  rw [hworkers, Function.update_self]
  exact hx

/-- A worker that is not awake goes on; the other wake-ups are those of before. -/
theorem Attended.rest {s s' : State n} (h : Attended s) {w : Fin n} {x : Worker} {pc : Pc}
    (hs' : s' = { s' with
      workers := Function.update s.workers w x
      queue := s.queue
      states := s.states
      pipe := s.pipe
      outside := s.outside })
    (hpc : (s.workers w).pc = pc) (hawake : pc.awake = false) (hlive : pc ≠ .exited)
    (htickle : x.tickle = (s.workers w).tickle) : Attended s' := by
  have hworkers : s'.workers = Function.update s.workers w x := by rw [hs']
  have hqueue : s'.queue = s.queue := by rw [hs']
  have hstates : s'.states = s.states := by rw [hs']
  have hpipe : s'.pipe = s.pipe := by rw [hs']
  have houtside : s'.outside = s.outside := by rw [hs']
  rintro ⟨v, hv, e, he, hte⟩
  have hwaiting : s.waiting := by
    refine ⟨v, ?_, e, hqueue ▸ he, hstates ▸ hte⟩
    by_cases hvw : v = w
    · rw [hvw, hpc]
      exact hlive
    · rwa [hworkers, Function.update_of_ne hvw] at hv
  rcases h hwaiting with ⟨u, hu⟩ | hp | ho | ⟨u, hu⟩
  · have huw : u ≠ w := by
      rintro rfl
      rw [hpc, hawake] at hu
      cases hu
    exact .inl ⟨u, by rwa [hworkers, Function.update_of_ne huw]⟩
  · exact .inr (.inl (hpipe ▸ hp))
  · exact .inr (.inr (.inl (houtside ▸ ho)))
  · refine .inr (.inr (.inr ⟨u, ?_⟩))
    rw [hworkers]
    by_cases huw : u = w
    · rw [huw, Function.update_self, htickle, ← huw]
      exact hu
    · rwa [Function.update_of_ne huw]

/-- An entry that others may take and a fruitless scan passes over is pinned, so the scan
tickles. -/
theorem Attended.scans {s s' : State n} {w : Fin n} (hs : Scans s w s') : Attended s' := by
  cases hs with
  | nothing tickle hnone htickle =>
      rintro ⟨v, _, e, he, hte⟩
      have hpin : pinnedElsewhere w e := by
        by_contra hpin
        exact hnone e he ⟨hpin, hte.2⟩
      refine .inr (.inr (.inr ⟨w, ?_⟩))
      simp [State.takeNothing, htickle e he hpin]
  | took tickle pre post e pc hqueue hpre he hstart =>
      cases hstart <;> exact .of_awake rfl rfl

theorem Attended.accessAt {s s' : State n} (h : Attended s) (hcons : Conserves s) {w : Fin n}
    (hr : s.accessAt w (s.workers w).pc = some (.ok s')) : Attended s' := by
  cases hpc : (s.workers w).pc <;> rw [hpc] at hr
  case scan =>
    obtain ⟨t, ht, hscan⟩ := scan_scans s w hcons.queue_nonEmpty
    cases ht.symm.trans (Option.some.inj hr)
    exact .scans hscan
  -- the only step from a fruitless scan to the wait
  case noTask =>
    obtain ⟨_, rfl⟩ | ⟨_, rfl⟩ := accessAt_noTask hr <;>
      exact h.rest rfl hpc rfl (fun hpc => by cases hpc) rfl
  case running b f => cases hr
  case idleCheck => cases hr
  case blocked => cases hr
  case exited => cases hr
  case prepare cb =>
    obtain ⟨_, rfl⟩ | ⟨f, _, _, rfl⟩ := accessAt_prepare hr <;> exact .of_awake rfl rfl
  case requeue b f =>
    cases hr
    rw [State.requeue, requeue_eq]
    exact .of_awake rfl rfl
  case swapAssert b f =>
    obtain ⟨_, rfl⟩ := accessAt_swapAssert hr
    exact .of_awake rfl rfl
  case recycle f =>
    obtain ⟨_, rfl⟩ := accessAt_recycle hr
    exact .of_awake rfl rfl
  case woken pipe => cases pipe <;> cases hr <;> exact .of_awake rfl rfl
  case checkTerm f | checkExcept f =>
    cases hr
    exact .of_awake rfl (by dsimp only; split <;> rfl)
  case postReady b f | post1 b f | post2 b f =>
    cases hr
    exact .of_awake rfl (by cases b <;> dsimp only <;> split <;> rfl)
  all_goals
    cases hr
    exact .of_awake rfl rfl

theorem Attended.fiberOp {s s' : State n} (h : Attended s) {w : Fin n} {b : Branch} {f : FiberId}
    {fop : FiberOp} (hr : s.fiberOp w b f fop = some (.ok s')) : Attended s' := by
  unfold State.fiberOp at hr
  split at hr
  · cases hr
  · cases fop with
    | register =>
        cases hr
        exact h
    | yieldToReady | yieldToHold =>
        simp only [State.runFiber, Option.some.injEq] at hr
        split at hr <;> cases hr
        exact .of_awake rfl rfl
    | finish | throw =>
        cases hr
        exact .of_awake rfl rfl

/-- The queue is not empty while an entry waits, so no worker decides to stop. -/
theorem Attended.idleCheck {s : State n} (h : Attended s) {w : Fin n} (quiet : Bool)
    (hpc : (s.workers w).pc = .idleCheck) : Attended (s.idleCheck .io w quiet) := by
  unfold State.idleCheck
  split
  · exact .of_awake rfl rfl
  · exact h.rest rfl hpc rfl nofun rfl

theorem Attended.workerTickle {s : State n} {w : Fin n}
    (htimely : Timely s (.worker w)) (htickle : (s.workers w).tickle ≠ .none) :
    Attended ((s.tickleStep .io (s.workers w).tickle).1.setWorker w
      { s.workers w with tickle := (s.tickleStep .io (s.workers w).tickle).2 }) := by
  cases hstage : (s.workers w).tickle with
  | none => exact (htickle hstage).elim
  | write => exact fun _ => .inr (.inl (Nat.succ_ne_zero _))
  | call =>
      by_cases hidle : s.idle = 0
      · simp only [State.tickleStep, if_pos hidle]
        intro hwaiting
        refine (htimely hstage hidle).resolve_right fun hnone => hnone ?_
        obtain ⟨v, hv, hrest⟩ := hwaiting
        refine ⟨v, ?_, hrest⟩
        by_cases hvw : v = w
        · rwa [hvw, setWorker_workers, Function.update_self, ← hvw] at hv
        · rwa [setWorker_workers, Function.update_of_ne hvw] at hv
      · simp only [State.tickleStep, if_neg hidle]
        exact fun _ => .inr (.inr (.inr ⟨w, by simp⟩))

/-! ## Steps of other threads -/

theorem needTickle_of_empty {s : State n} {c : Call} (hqueue : s.queue = [])
    (hwaiting : (s.call c).2.waiting) : (s.call c).1 = true := by
  obtain ⟨w, _, e, he, _⟩ := hwaiting
  rw [call_eq] at he ⊢
  have hsettle : (s.settle c).queue = [] := (settle_shared s c).1.trans hqueue
  have hentries : c.entries ≠ [] := by
    intro hnil
    simp only [State.push, hsettle, Call.tasks, hnil, List.filter_nil] at he
    cases he
  simp [hsettle, hentries]

theorem call_outside (s : State n) (c : Call) :
    (s.call c).2.outside = s.outside ∧ (s.call c).2.pipe = s.pipe := by
  rw [call_eq]
  cases c <;> exact ⟨rfl, rfl⟩

/-- A call that pushes nothing makes no entry takeable. -/
theorem WellFormed.waiting_of_settle {s : State n} (h : WellFormed s) {c : Call}
    (htasks : c.tasks = []) (hwaiting : (s.call c).2.waiting) : s.waiting := by
  obtain ⟨w, hw, e, he, hpin, hexec⟩ := hwaiting
  rw [call_workers] at hw
  rw [call_eq] at he hexec
  have hmem : e ∈ s.queue := by
    simpa [State.push, htasks, (settle_shared s c).1] using he
  refine ⟨w, hw, e, hmem, hpin, ?_⟩
  rintro ⟨f, hf, hstate⟩
  refine hexec ⟨f, hf, ?_⟩
  change (s.settle c).states f = .exec
  cases c
  case newFiber cb =>
    -- the new number is not that of a queued fiber
    have hne : f ≠ s.lastFiber + 1 := by
      rintro rfl
      exact Nat.not_succ_le_self _ (h.queue e hmem _ hf)
    exact (Function.update_of_ne hne _ _).trans hstate
  all_goals exact hstate

theorem Attended.outside {s : State n} (h : Attended s) (hwf : WellFormed s) {i : Nat} {c : Call}
    (htimely : Timely s (.outside i c)) (hidle : s.outside i = .none) :
    Attended { (s.call c).2 with
      outside := Function.update s.outside i (needTickle (s.call c).1) } := by
  rintro ⟨w, hw, hrest⟩
  have hwaiting : (s.call c).2.waiting := ⟨w, hw, hrest⟩
  by_cases hqueue : s.queue = []
  · refine .inr (.inr (.inl ⟨i, ?_⟩))
    simp [needTickle, needTickle_of_empty hqueue hwaiting]
  · have hattended : s.attended := by
      by_cases htasks : c.tasks = []
      · exact h (hwf.waiting_of_settle htasks hwaiting)
      · exact (htimely htasks hqueue).resolve_right (not_not.mpr hwaiting)
    rw [State.attended, ← call_workers s c, ← (call_outside s c).2] at hattended
    rcases hattended with hw | hp | ⟨j, hj⟩ | hw
    · exact .inl hw
    · exact .inr (.inl hp)
    · have hji : j ≠ i := by
        rintro rfl
        exact hj hidle
      refine .inr (.inr (.inl ⟨j, ?_⟩))
      change Function.update s.outside i _ j ≠ .none
      rwa [Function.update_of_ne hji]
    · exact .inr (.inr (.inr hw))

theorem Attended.outsideTickle {s : State n} {i : Nat}
    (htimely : Timely s (.outsideTickle i)) (htickle : s.outside i ≠ .none) :
    Attended { (s.tickleStep .io (s.outside i)).1 with
      outside := Function.update s.outside i (s.tickleStep .io (s.outside i)).2 } := by
  cases hstage : s.outside i with
  | none => exact (htickle hstage).elim
  | write => exact fun _ => .inr (.inl (Nat.succ_ne_zero _))
  | call =>
      by_cases hidle : s.idle = 0
      · simp only [State.tickleStep, if_pos hidle]
        exact fun hwaiting => (htimely hstage hidle).resolve_right (not_not.mpr hwaiting)
      · simp only [State.tickleStep, if_neg hidle]
        exact fun _ => .inr (.inr (.inl ⟨i, by simp⟩))

/-! ## Every run -/

structure SoundlyAttended (s : State n) : Prop where
  sound : Sound s
  attended : Attended s

theorem op_attended (s : State n) (a : Action n) (t : State n) (h : SoundlyAttended s)
    (htimely : Timely s a) (hr : op .io s a = some (.ok t)) : Attended t := by
  cases a with
  | outside i c =>
      simp only [op] at hr
      split at hr <;> cases hr
      rename_i hen
      exact h.attended.outside h.sound.wellFormed htimely hen.1
  | outsideTickle i =>
      simp only [op] at hr
      split at hr <;> cases hr
      rename_i htickle
      exact .outsideTickle htimely htickle
  | start | autoStop | stop =>
      cases hr
      exact h.attended
  | worker w =>
      simp only [op] at hr
      split at hr
      · exact h.attended.accessAt h.sound.conserves hr
      · cases hr
        rename_i htickle
        exact .workerTickle htimely htickle
  | call w c =>
      simp only [op] at hr
      split at hr <;> cases hr
      rename_i hen
      have hawake : (s.workers w).pc.awake = true := by
        have hmay := hen.1
        cases hpc : (s.workers w).pc <;> rw [hpc] at hmay <;> first | rfl | cases hmay
      exact .of_awake rfl hawake
  | fiber w fop =>
      simp only [op] at hr
      split at hr
      · split at hr
        · exact h.attended.fiberOp hr
        · cases hr
      · cases hr
  | idleCheck w quiet =>
      simp only [op] at hr
      split at hr <;> cases hr
      rename_i hpc
      exact h.attended.idleCheck quiet hpc.1
  | wake w pipe =>
      simp only [op] at hr
      split at hr <;> cases hr
      exact .of_awake rfl rfl

theorem op_soundlyAttended (s : State n) (a : Action n) (r : Except Fault (State n))
    (h : SoundlyAttended s) (htimely : Timely s a) (hr : op .io s a = some r) :
    Holds SoundlyAttended (fun _ => True) r := by
  cases r with
  | error e => trivial
  | ok t => exact ⟨op_sound s a (.ok t) h.sound hr, op_attended s a t h htimely hr⟩

/-- Every worker waits or has left, nothing is on its way to wake one, and a waiting worker
may take an entry. -/
def Stalled (s : State n) : Prop :=
  (∀ w, (s.workers w).pc = .blocked ∨ (s.workers w).pc = .exited) ∧ s.pipe = 0 ∧
    (∀ i, s.outside i = .none) ∧ (∀ w, (s.workers w).tickle = .none) ∧
    ∃ w, (s.workers w).pc = .blocked ∧ ∃ e ∈ s.queue, takeable s.states w e

/-- No wake-up for a task is lost in a run whose steps are all timely. -/
theorem timely_never_stalled {s : State n}
    (h : Reaches (step .io) (onOk Timely) (.ok (.init n)) (.ok s)) : ¬ Stalled s := by
  rintro ⟨hworkers, hpipe, houtside, htickle, w, hw, hrest⟩
  have hinv : SoundlyAttended s :=
    h.invariant (preserves_abortable op_soundlyAttended)
      (⟨sound_init n, attended_init n⟩ : SoundlyAttended (.init n))
  rcases hinv.attended ⟨w, by rw [hw]; nofun, hrest⟩ with ⟨v, hv⟩ | hp | ⟨i, hi⟩ | ⟨v, hv⟩
  · rcases hworkers v with hpc | hpc <;> rw [hpc] at hv <;> cases hv
  · exact hp hpipe
  · exact hi (houtside i)
  · exact hv (htickle v)

/-! ## A condition that is enough -/

/-- Each push from outside finds the queue empty, and each `tickle()` a worker that is counted
or awake. -/
def Counted (s : State n) : Action n → Prop
  | .outside _ c => c.tasks = [] ∨ s.queue = []
  | .outsideTickle _ => s.idle ≠ 0 ∨ ∃ w, (s.workers w).pc.awake = true
  | .worker _ => s.idle ≠ 0 ∨ ∃ w, (s.workers w).pc.awake = true
  | _ => True

instance (s : State n) : (a : Action n) → Decidable (Counted s a)
  | .outside _ c => inferInstanceAs (Decidable (c.tasks = [] ∨ s.queue = []))
  | .outsideTickle _ | .worker _ =>
      inferInstanceAs (Decidable (s.idle ≠ 0 ∨ ∃ w, (s.workers w).pc.awake = true))
  | .start | .autoStop | .stop | .call _ _ | .fiber _ _ | .idleCheck _ _ | .wake _ _ =>
      isTrue trivial

theorem Counted.timely {s : State n} {a : Action n} (h : Counted s a) : Timely s a := by
  cases a
  case outside i c => exact fun htasks hqueue => (h.elim htasks hqueue).elim
  case outsideTickle i => exact fun _ hidle => .inl (.inl (h.resolve_left (not_not.mpr hidle)))
  case worker w =>
    intro _ hidle
    obtain ⟨v, hv⟩ := h.resolve_left (not_not.mpr hidle)
    refine .inl (.inl ⟨v, ?_⟩)
    by_cases hvw : v = w
    · subst hvw
      simpa using hv
    · simpa [Function.update_of_ne hvw] using hv
  all_goals trivial

/-- Both workers wait; a push finds them counted and writes to the pipe. -/
def wakeRun : List (Action 2) :=
  [.worker 0, .worker 0, .idleCheck 0 true, .worker 1, .worker 1, .idleCheck 1 true,
    .outside 0 (.schedule (.callback (some 5)) (-1)), .outsideTickle 0, .outsideTickle 0]

theorem timely_never_stalled_sample :
    ∃ s, checkedRun (step .io) (fun s a => decide (onOk Counted s a)) (.ok (.init 2))
        wakeRun = some (.ok s) ∧ (∀ w, (s.workers w).pc = .blocked) ∧ s.queue ≠ [] ∧
      ¬ Stalled s := by
  have hrun : (checkedRun (step .io) (fun s a => decide (onOk Counted s a)) (.ok (.init 2))
      wakeRun).any (okAnd fun s => decide ((∀ w, (s.workers w).pc = .blocked) ∧ s.queue ≠ [])) := by
    decide
  obtain ⟨s, hr, hpc, hqueue⟩ := exists_ok_of_any hrun
  refine ⟨s, hr, hpc, hqueue, timely_never_stalled (Reaches.of_checkedRun ?_ hr)⟩
  intro x a hc
  have hcounted : onOk Counted x a := of_decide_eq_true hc
  cases x with
  | ok x => exact Counted.timely hcounted
  | error e => trivial

/-! ## A lost wake-up -/

/-- The push and its `tickle()` fall between the fruitless scan and `++m_idleThreadCount`. -/
def stallRun : List (Action 1) :=
  [.worker 0, .outside 0 (.schedule (.callback (some 5)) (-1)), .outsideTickle 0, .worker 0,
    .idleCheck 0 true]

/-- The only worker waits while an entry that it may take is in the queue. -/
theorem missed_tickle_stalls :
    ∃ s, Reaches (step .io) (onOk Free) (.ok (.init 1)) (.ok s) ∧ Stalled s := by
  have hrun : ∃ s, checkedRun (step .io) (fun s a => decide (onOk Free s a)) (.ok (.init 1))
      stallRun = some (.ok s) ∧ Stalled s := by
    refine ⟨_, rfl, by decide, rfl, fun i => ?_, by decide, by decide⟩
    cases i <;> rfl
  obtain ⟨s, hr, hs⟩ := hrun
  exact ⟨s, .of_decidedRun hr, hs⟩

end Sylar.Scheduler
