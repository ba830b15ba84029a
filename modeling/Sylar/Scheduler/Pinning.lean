import Sylar.Scheduler.Conservation

/-! # Threads that tasks are pinned to

A task is what one `schedule` queues: it begins with that entry and continues with every entry
that resumes its fiber, until the fiber ends. Its pin is the thread it was scheduled with. The
code keeps the thread in the entry only, so the pin is recorded here beside the run. An entry
with the thread of its task is taken by that thread; `run` and the wake-ups queue the fiber
with `-1`.
-/

namespace Sylar.Pinning

open Scheduler Transition

variable {n : Nat} {k : Kind}

/-! ## The record -/

/-- `pins` are the pins of the tasks of the submitted entries, `handling` the pin of the task a
worker took last, `suspended` the pin of the task a fiber runs or is suspended in, and
`switched` lists the switches into a fiber, the pin of the task with the worker. -/
structure Pinned (n : Nat) where
  sched : State n
  pins : List Int
  handling : Fin n → Int
  suspended : FiberId → Int
  switched : List (Int × Fin n)

def Pinned.init (n : Nat) : Pinned n where
  sched := .init n
  pins := []
  handling := fun _ => -1
  suspended := fun _ => -1
  switched := []

/-- The pin of the task an entry of call `c` belongs to: a wake-up continues the task of its
fiber, `schedule` begins a task. -/
def Pinned.taskPin (p : Pinned n) (c : Call) (ft : FiberAndThread) : Int :=
  match c with
  | .fire f => p.suspended f
  | _ => ft.thread

def Pinned.entryPin (p : Pinned n) : Option Nat → Int
  | none => -1
  | some ticket => p.pins.getD ticket (-1)

/-- What the record keeps of an access of worker `w`. -/
def Pinned.access (p : Pinned n) (w : Fin n) (t : State n) : Pc → Pinned n
  | .scan =>
      { p with
        sched := t
        handling := Function.update p.handling w (p.entryPin (t.workers w).held) }
  | .swapCtx _ f =>
      { p with
        sched := t
        suspended := Function.update p.suspended f (p.handling w)
        switched := p.switched ++ [(p.handling w, w)] }
  -- the entry of a fiber that yielded in `READY` continues the task
  | .requeue _ _ => { p with sched := t, pins := p.pins ++ [p.handling w] }
  | _ => { p with sched := t }

def Pinned.fiberOp (p : Pinned n) (t : State n) : Pc → FiberOp → Pinned n
  | .running _ f, .finish | .running _ f, .throw =>
      { p with sched := t, suspended := Function.update p.suspended f (-1) }
  | _, _ => { p with sched := t }

def Pinned.next (p : Pinned n) (t : State n) : Action n → Pinned n
  | .worker w =>
      if (p.sched.workers w).tickle = .none then p.access w t (p.sched.workers w).pc
      else { p with sched := t }
  | .outside _ c | .call _ c =>
      { p with sched := t, pins := p.pins ++ c.tasks.map (p.taskPin c) }
  | .fiber w fop => p.fiberOp t (p.sched.workers w).pc fop
  | _ => { p with sched := t }

def op (k : Kind) (p : Pinned n) (a : Action n) : Option (Except Fault (Pinned n)) :=
  (Scheduler.op k p.sched a).map fun r => r.map fun t => p.next t a

def step (k : Kind) : Except Fault (Pinned n) → Action n → Option (Except Fault (Pinned n)) :=
  abortable (op k)

/-! ## Pins that are kept -/

/-- A task with this pin may run on worker `w`. -/
def Respects (pin : Int) (w : Fin n) : Prop := pin = -1 ∨ pin = (w : Nat)

instance (pin : Int) (w : Fin n) : Decidable (Respects pin w) :=
  inferInstanceAs (Decidable (_ ∨ _))

def Carried (p : Pinned n) : Prop := p.pins = p.sched.submitted.map FiberAndThread.thread

def requeues : Pc → Bool
  | .requeue _ _ => true
  | _ => false

/-- Call `c` is no wake-up of a fiber whose task has a pin. -/
def CallKept (p : Pinned n) : Call → Prop
  | .fire f => p.suspended f = -1
  | _ => True

/-- No task with a pin is queued again: not by `run` after a `YieldToReady`, not by a wake-up. -/
def PinKept (p : Pinned n) : Action n → Prop
  | .worker w =>
      (p.sched.workers w).tickle = .none → requeues (p.sched.workers w).pc = true →
        p.handling w = -1
  | .outside _ c | .call _ c => CallKept p c
  | _ => True

/-- Every entry carries its pin, and the tasks run where they were pinned. -/
structure Pins (p : Pinned n) : Prop where
  conserves : Conserves p.sched
  carried : Carried p
  handling : ∀ w, Respects (p.handling w) w
  switched : ∀ x ∈ p.switched, Respects x.1 x.2

theorem pins_init (n : Nat) : Pins (.init n) where
  conserves := conserves_init n
  carried := rfl
  handling := fun _ => .inl rfl
  switched := by
    intro x hx
    cases hx

/-! ## What is queued -/

theorem accessAt_submitted {s t : State n} (h : Conserves s) {w : Fin n}
    (hr : s.accessAt w (s.workers w).pc = some (.ok t))
    (hpc : requeues (s.workers w).pc = false) : t.submitted = s.submitted := by
  cases hw : (s.workers w).pc <;> rw [hw] at hr hpc
  case scan =>
    obtain ⟨s', hs', hscan⟩ := scan_scans s w h.queue_nonEmpty
    simp only [State.accessAt, hs', Option.some.injEq, Except.ok.injEq] at hr
    subst hr
    cases hscan <;> rfl
  case requeue b f => cases hpc
  case running b f => cases hr
  case idleCheck => cases hr
  case blocked => cases hr
  case exited => cases hr
  case swapAssert b f =>
    obtain ⟨_, rfl⟩ := accessAt_swapAssert hr
    rfl
  case recycle f =>
    obtain ⟨_, rfl⟩ := accessAt_recycle hr
    rfl
  case prepare cb => obtain ⟨_, rfl⟩ | ⟨f, _, _, rfl⟩ := accessAt_prepare hr <;> rfl
  case noTask => obtain ⟨_, rfl⟩ | ⟨_, rfl⟩ := accessAt_noTask hr <;> rfl
  case woken pipe => cases pipe <;> cases hr <;> rfl
  all_goals
    cases hr
    rfl

theorem fiberOp_submitted {s t : State n} {w : Fin n} {b : Branch} {f : FiberId} {fop : FiberOp}
    (hr : s.fiberOp w b f fop = some (.ok t)) : t.submitted = s.submitted := by
  unfold State.fiberOp at hr
  split at hr
  · cases hr
  · cases fop with
    | register | finish | throw =>
        cases hr
        rfl
    | yieldToReady | yieldToHold =>
        simp only [State.runFiber, Option.some.injEq] at hr
        split at hr <;> cases hr
        rfl

theorem call_carried (p : Pinned n) (c : Call) :
    c.tasks.map (p.taskPin c) = c.tasks.map FiberAndThread.thread ↔ CallKept p c := by
  cases c with
  | fire f => simp [Call.tasks, Call.entries, Task.entry, FiberAndThread.nonEmpty,
      Pinned.taskPin, CallKept]
  | newFiber cb | schedule t thread | scheduleAll ts | tickle =>
      exact iff_of_true (List.map_congr_left fun ft _ => rfl) trivial

theorem call_submitted (s : State n) (c : Call) :
    (s.call c).2.submitted = s.submitted ++ c.tasks := by
  obtain ⟨_, hsubmitted, _⟩ := settle_shared s c
  rw [call_eq]
  simp only [State.push, hsubmitted]

theorem requeue_submitted (s : State n) (w : Fin n) (b : Branch) (f : FiberId) :
    (s.requeue w b f).submitted = s.submitted ++ [⟨some f, none, -1⟩] := by
  rw [State.requeue, requeue_eq]
  rfl

theorem Carried.frame {p q : Pinned n} (h : Carried p) (hpins : q.pins = p.pins)
    (hsubmitted : q.sched.submitted = p.sched.submitted) : Carried q := by
  unfold Carried
  rw [hpins, hsubmitted]
  exact h

theorem Carried.call {p : Pinned n} (h : Carried p) (c : Call) {t : State n}
    (ht : t.submitted = p.sched.submitted ++ c.tasks) :
    Carried { p with sched := t, pins := p.pins ++ c.tasks.map (p.taskPin c) } ↔
      CallKept p c := by
  unfold Carried at h ⊢
  rw [ht, List.map_append, h, List.append_right_inj]
  exact call_carried p c

theorem next_sched (p : Pinned n) (t : State n) (a : Action n) : (p.next t a).sched = t := by
  unfold Pinned.next Pinned.access Pinned.fiberOp
  split
  · split
    · split <;> rfl
    · rfl
  · rfl
  · rfl
  · split <;> rfl
  · rfl

theorem Pins.access_carried {p : Pinned n} (h : Pins p) {w : Fin n} {t : State n}
    (hr : p.sched.accessAt w (p.sched.workers w).pc = some (.ok t)) :
    Carried (p.access w t (p.sched.workers w).pc) ↔
      (requeues (p.sched.workers w).pc = true → p.handling w = -1) := by
  cases hpc : requeues (p.sched.workers w).pc with
  | true =>
      cases hw : (p.sched.workers w).pc <;> rw [hw] at hr hpc <;> cases hpc
      rename_i b f
      cases hr
      have hcarried := h.carried
      unfold Carried at hcarried ⊢
      simp only [Pinned.access]
      rw [requeue_submitted, List.map_append, hcarried, List.append_right_inj]
      simp
  | false =>
      refine iff_of_true ?_ fun hfalse => by cases hfalse
      apply h.carried.frame
      · cases hw : (p.sched.workers w).pc <;> rw [hw] at hpc <;> first | rfl | cases hpc
      · have hsched : (p.access w t (p.sched.workers w).pc).sched = t := by
          cases (p.sched.workers w).pc <;> rfl
        rw [hsched]
        exact accessAt_submitted h.conserves hr hpc

/-- A step queues entries with the pins of their tasks exactly if it queues no pinned task
again. -/
theorem Pins.carried_iff {p : Pinned n} (h : Pins p) {a : Action n} {t : State n}
    (ht : Scheduler.op k p.sched a = some (.ok t)) : Carried (p.next t a) ↔ PinKept p a := by
  cases a with
  | outside i c =>
      simp only [Scheduler.op] at ht
      split at ht <;> cases ht
      exact h.carried.call c (call_submitted _ c)
  | call w c =>
      simp only [Scheduler.op] at ht
      split at ht <;> cases ht
      exact h.carried.call c (call_submitted _ c)
  | worker w =>
      simp only [Scheduler.op] at ht
      simp only [Pinned.next, PinKept]
      split at ht
      · rename_i htickle
        rw [if_pos htickle, h.access_carried ht]
        exact ⟨fun hkept _ => hkept, fun hkept => hkept htickle⟩
      · rename_i htickle
        rw [if_neg htickle]
        refine iff_of_true (h.carried.frame rfl ?_) fun hnone => (htickle hnone).elim
        cases ht
        exact (notifies_tickleStep p.sched k _).submitted
  | outsideTickle i =>
      simp only [Scheduler.op] at ht
      split at ht <;> cases ht
      exact iff_of_true (h.carried.frame rfl (notifies_tickleStep p.sched k _).submitted) trivial
  | start | autoStop | stop =>
      cases ht
      exact iff_of_true (h.carried.frame rfl rfl) trivial
  | fiber w fop =>
      simp only [Scheduler.op] at ht
      split at ht
      · split at ht
        · refine iff_of_true (h.carried.frame ?_ ?_) trivial
          · simp only [Pinned.next, Pinned.fiberOp]
            split <;> rfl
          · rw [next_sched]
            exact fiberOp_submitted ht
        · cases ht
      · cases ht
  | idleCheck w quiet =>
      simp only [Scheduler.op] at ht
      split at ht <;> cases ht
      refine iff_of_true (h.carried.frame rfl ?_) trivial
      rw [next_sched]
      unfold State.idleCheck
      split
      · rfl
      · cases k <;> rfl
  | wake w pipe =>
      simp only [Scheduler.op] at ht
      split at ht <;> cases ht
      exact iff_of_true (h.carried.frame rfl rfl) trivial

/-! ## What is taken and switched in -/

theorem Pins.scan_respects {p : Pinned n} (h : Pins p) {w : Fin n} {t : State n}
    (ht : p.sched.scan w = .ok t) : Respects (p.entryPin (t.workers w).held) w := by
  obtain ⟨s', hs', hscan⟩ := scan_scans p.sched w h.conserves.queue_nonEmpty
  rw [ht] at hs'
  cases hs'
  cases hscan with
  | nothing tickle hnone htickle =>
      simp only [State.takeNothing, setWorker_workers, Function.update_self]
      exact .inl rfl
  | took tickle pre post e pc hqueue hpre he hstart =>
      simp only [State.take, setWorker_workers, Function.update_self]
      have hpin : p.entryPin (some e.ticket) = e.task.thread := by
        have hmem : e ∈ p.sched.queue := by
          rw [hqueue]
          exact List.mem_append_right pre List.mem_cons_self
        have hcontent := h.conserves.content e hmem
        have hcarried := h.carried
        unfold Carried at hcarried
        simp only [Pinned.entryPin, hcarried, List.getD_eq_getElem?_getD, List.getElem?_map,
          hcontent, Option.map_some, Option.getD_some]
      rw [hpin]
      have hnot := he.1
      unfold pinnedElsewhere at hnot
      unfold Respects
      tauto

theorem Pins.access_respects {p : Pinned n} (h : Pins p) {w : Fin n} {t : State n}
    (hr : p.sched.accessAt w (p.sched.workers w).pc = some (.ok t)) :
    (∀ v, Respects ((p.access w t (p.sched.workers w).pc).handling v) v) ∧
      ∀ x ∈ (p.access w t (p.sched.workers w).pc).switched, Respects x.1 x.2 := by
  cases hpc : (p.sched.workers w).pc <;> rw [hpc] at hr
  case scan =>
    refine ⟨fun v => ?_, h.switched⟩
    have ht : p.sched.scan w = .ok t := Option.some.inj hr
    by_cases hv : v = w
    · subst hv
      simp only [Pinned.access, Function.update_self]
      exact h.scan_respects ht
    · simp only [Pinned.access, Function.update_of_ne hv]
      exact h.handling v
  case swapCtx b f =>
    refine ⟨h.handling, fun x hx => ?_⟩
    rcases List.mem_append.mp hx with hx | hx
    · exact h.switched x hx
    · rw [List.mem_singleton.mp hx]
      exact h.handling w
  all_goals exact ⟨h.handling, h.switched⟩

theorem Pins.next_respects {p : Pinned n} (h : Pins p) {a : Action n} {t : State n}
    (ht : Scheduler.op k p.sched a = some (.ok t)) :
    (∀ v, Respects ((p.next t a).handling v) v) ∧
      ∀ x ∈ (p.next t a).switched, Respects x.1 x.2 := by
  cases a with
  | worker w =>
      simp only [Scheduler.op] at ht
      simp only [Pinned.next]
      split at ht
      · rename_i htickle
        rw [if_pos htickle]
        exact h.access_respects ht
      · rename_i htickle
        rw [if_neg htickle]
        exact ⟨h.handling, h.switched⟩
  | fiber w fop =>
      simp only [Pinned.next, Pinned.fiberOp]
      split <;> exact ⟨h.handling, h.switched⟩
  | outside i c => exact ⟨h.handling, h.switched⟩
  | call w c => exact ⟨h.handling, h.switched⟩
  | outsideTickle i => exact ⟨h.handling, h.switched⟩
  | start | autoStop | stop => exact ⟨h.handling, h.switched⟩
  | idleCheck w quiet => exact ⟨h.handling, h.switched⟩
  | wake w pipe => exact ⟨h.handling, h.switched⟩

theorem Pins.next {p : Pinned n} (h : Pins p) {a : Action n} {t : State n}
    (ht : Scheduler.op k p.sched a = some (.ok t)) (ha : PinKept p a) : Pins (p.next t a) where
  conserves := by
    rw [next_sched]
    exact op_conserves p.sched a _ h.conserves ht
  carried := (h.carried_iff ht).mpr ha
  handling := (h.next_respects ht).1
  switched := (h.next_respects ht).2

/-! ## Every run -/

theorem op_eq {p q : Pinned n} {a : Action n} (hq : op k p a = some (.ok q)) :
    ∃ t, Scheduler.op k p.sched a = some (.ok t) ∧ q = p.next t a := by
  unfold op at hq
  obtain ⟨r, hr, hrq⟩ := Option.map_eq_some_iff.mp hq
  cases r with
  | error e => cases hrq
  | ok t =>
      cases hrq
      exact ⟨t, hr, rfl⟩

/-- As long as no pinned task is queued again, every task runs on the thread it was scheduled
with, in all its slices. A step that queues one again drops its pin. -/
theorem pinning_respected {p : Pinned n}
    (h : Reaches (step k) (onOk PinKept) (.ok (.init n)) (.ok p)) :
    (∀ x ∈ p.switched, Respects x.1 x.2) ∧
      ∀ a q, op k p a = some (.ok q) →
        (Carried q ↔ PinKept p a) ∧ ∀ x ∈ q.switched, Respects x.1 x.2 := by
  have hpins : Holds Pins (fun _ => True) (.ok p : Except Fault (Pinned n)) := by
    apply h.invariant
    · apply preserves_abortable
      intro p a r hp ha hr
      cases r with
      | error e => trivial
      | ok q =>
          obtain ⟨t, ht, rfl⟩ := op_eq hr
          exact hp.next ht ha
    · exact pins_init n
  have hp : Pins p := hpins
  refine ⟨hp.switched, fun a q hq => ?_⟩
  obtain ⟨t, ht, rfl⟩ := op_eq hq
  exact ⟨hp.carried_iff ht, (hp.next_respects ht).2⟩

instance (p : Pinned n) (c : Call) : Decidable (CallKept p c) :=
  match c with
  | .fire f => inferInstanceAs (Decidable (p.suspended f = -1))
  | .newFiber _ | .schedule _ _ | .scheduleAll _ | .tickle => isTrue trivial

instance (p : Pinned n) (a : Action n) : Decidable (PinKept p a) :=
  match a with
  | .worker _ => inferInstanceAs (Decidable (_ → _ → _))
  | .outside _ c | .call _ c => inferInstanceAs (Decidable (CallKept p c))
  | .outsideTickle _ | .start | .autoStop | .stop | .fiber _ _ | .idleCheck _ _ | .wake _ _ =>
      isTrue trivial

def pinnedRun : List (Action 2) :=
  [.outside 0 (.newFiber (some 5)), .outside 0 (.schedule (.fiber (some 1)) 1), .worker 0,
    .worker 1, .worker 1, .worker 1, .worker 1, .worker 1, .worker 1, .fiber 1 .finish]

theorem pinning_respected_sample :
    ∃ p : Pinned 2, checkedRun (step .base) (fun s a => decide (onOk PinKept s a))
        (.ok (.init 2)) pinnedRun = some (.ok p) ∧
      p.switched = [(1, 1)] ∧ ∀ x ∈ p.switched, Respects x.1 x.2 := by
  have hrun : (checkedRun (step .base) (fun s a => decide (onOk PinKept s a))
      (.ok (.init 2)) pinnedRun).any
        (okAnd fun p : Pinned 2 => decide (p.switched = [(1, 1)])) := by decide
  obtain ⟨p, hp, hswitched⟩ := exists_ok_of_any hrun
  exact ⟨p, hp, hswitched, (pinning_respected (.of_decidedRun hp)).1⟩

/-- A fiber pinned to worker 0 yields there in `READY` and continues on worker 1. -/
def movedRun : List (Action 2) :=
  [.outside 0 (.newFiber (some 5)), .outside 0 (.schedule (.fiber (some 1)) 0), .worker 0,
    .worker 0, .worker 0, .worker 0, .worker 0, .worker 0, .fiber 0 .yieldToReady, .worker 0,
    .worker 0, .worker 0, .worker 0, .worker 0, .worker 1, .worker 1, .worker 1, .worker 1,
    .worker 1, .worker 1]

theorem moved_after_yield :
    ¬ ∀ p : Pinned 2, Reaches (step .base) Free (.ok (.init 2)) (.ok p) →
      ∀ x ∈ p.switched, Respects x.1 x.2 := by
  intro h
  have hrun : (run (step .base) (.ok (.init 2)) movedRun).any
      (okAnd fun p : Pinned 2 => decide (p.switched = [(0, 0), (0, 1)])) := by decide
  obtain ⟨p, hp, hswitched⟩ := exists_ok_of_any hrun
  have hmoved := h p (.of_run hp) (0, 1) (by rw [hswitched]; simp)
  exact absurd hmoved (by decide)

end Sylar.Pinning
