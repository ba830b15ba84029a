import Sylar.Scheduler.Queue

/-! # What an action can do

The actions of the system reduce to six kinds of steps. Notifications change nothing but the
`tickle()` calls, the pipe and the two flags of `stop`, so an invariant that does not mention
these needs one lemma for all of them.
-/

namespace Sylar.Scheduler

variable {n : Nat} {k : Kind}

/-- `t` differs from `s` in notifications at most. -/
structure Notifies (s t : State n) : Prop where
  queue : t.queue = s.queue
  states : t.states = s.states
  callbacks : t.callbacks = s.callbacks
  lastFiber : t.lastFiber = s.lastFiber
  active : t.active = s.active
  fresh : t.fresh = s.fresh
  source : t.source = s.source
  submitted : t.submitted = s.submitted
  taken : t.taken = s.taken
  resumed : t.resumed = s.resumed
  workers : ∀ w, t.workers w = { s.workers w with tickle := (t.workers w).tickle }

theorem Notifies.pc {s t : State n} (h : Notifies s t) (w : Fin n) :
    (t.workers w).pc = (s.workers w).pc := by rw [h.workers w]

theorem Notifies.cbFiber {s t : State n} (h : Notifies s t) (w : Fin n) :
    (t.workers w).cbFiber = (s.workers w).cbFiber := by rw [h.workers w]

theorem Notifies.held {s t : State n} (h : Notifies s t) (w : Fin n) :
    (t.workers w).held = (s.workers w).held := by rw [h.workers w]

theorem Notifies.idle {s t : State n} (h : Notifies s t) (w : Fin n) :
    (t.workers w).idle = (s.workers w).idle := by rw [h.workers w]

theorem notifies_setWorker (s : State n) (w : Fin n) (t : Tickle) :
    Notifies s (s.setWorker w { s.workers w with tickle := t }) where
  queue := rfl
  states := rfl
  callbacks := rfl
  lastFiber := rfl
  active := rfl
  fresh := rfl
  source := rfl
  submitted := rfl
  taken := rfl
  resumed := rfl
  workers := fun v => by
    by_cases hv : v = w
    · subst hv
      simp
    · simp [Function.update_of_ne hv]

inductive Acts (s : State n) : Action n → Except Fault (State n) → Prop
  | call (a : Action n) (c : Call) (t : State n)
      (ha : (∃ i, a = .outside i c) ∨ ∃ w, a = .call w c) (hc : c.enabled s)
      (ht : Notifies (s.call c).2 t) : Acts s a (.ok t)
  | notify (a : Action n) (t : State n) (ht : Notifies s t) : Acts s a (.ok t)
  | access (w : Fin n) (r : Except Fault (State n)) (htickle : (s.workers w).tickle = .none)
      (hr : s.accessAt w (s.workers w).pc = some r) : Acts s (.worker w) r
  | fiber (w : Fin n) (b : Branch) (f : FiberId) (fop : FiberOp) (r : Except Fault (State n))
      (hpc : (s.workers w).pc = .running b f) (hr : s.fiberOp w b f fop = some r) :
      Acts s (.fiber w fop) r
  | idleCheck (k : Kind) (w : Fin n) (quiet : Bool) (hpc : (s.workers w).pc = .idleCheck) :
      Acts s (.idleCheck w quiet) (.ok (s.idleCheck k w quiet))
  | wake (w : Fin n) (pipe : Bool) (hpc : (s.workers w).pc = .blocked) :
      Acts s (.wake w pipe) (.ok (s.goto w (.woken pipe)))

theorem notifies_outside (s : State n) (outside : Nat → Tickle) :
    Notifies s { s with outside := outside } :=
  ⟨rfl, rfl, rfl, rfl, rfl, rfl, rfl, rfl, rfl, rfl, fun _ => rfl⟩

theorem notifies_tickleStep (s : State n) (k : Kind) (t : Tickle) :
    Notifies s (s.tickleStep k t).1 := by
  cases k <;> cases t <;> exact ⟨rfl, rfl, rfl, rfl, rfl, rfl, rfl, rfl, rfl, rfl, fun _ => rfl⟩

theorem Notifies.trans {s t u : State n} (hst : Notifies s t) (htu : Notifies t u) :
    Notifies s u where
  queue := htu.queue.trans hst.queue
  states := htu.states.trans hst.states
  callbacks := htu.callbacks.trans hst.callbacks
  lastFiber := htu.lastFiber.trans hst.lastFiber
  active := htu.active.trans hst.active
  fresh := htu.fresh.trans hst.fresh
  source := htu.source.trans hst.source
  submitted := htu.submitted.trans hst.submitted
  taken := htu.taken.trans hst.taken
  resumed := htu.resumed.trans hst.resumed
  workers := fun w => by rw [htu.workers w, hst.workers w]

theorem tickleStep_workers (s : State n) (k : Kind) (t : Tickle) :
    (s.tickleStep k t).1.workers = s.workers := by
  cases k <;> cases t <;> rfl

theorem call_workers (s : State n) (c : Call) : (s.call c).2.workers = s.workers := by
  rw [call_eq]
  exact (settle_shared s c).2.2.2.2

theorem op_acts {s : State n} {a : Action n} {r : Except Fault (State n)}
    (hr : op k s a = some r) : Acts s a r := by
  cases a with
  | outside i c =>
      simp only [op] at hr
      split at hr <;> cases hr
      rename_i hen
      exact .call _ c _ (.inl ⟨i, rfl⟩) hen.2 (notifies_outside _ _)
  | outsideTickle i =>
      simp only [op] at hr
      split at hr <;> cases hr
      exact .notify _ _ ((notifies_tickleStep s k _).trans (notifies_outside _ _))
  | start | autoStop | stop =>
      cases hr
      exact .notify _ _ ⟨rfl, rfl, rfl, rfl, rfl, rfl, rfl, rfl, rfl, rfl, fun _ => rfl⟩
  | worker w =>
      simp only [op] at hr
      split at hr
      · rename_i htickle
        exact .access w r htickle hr
      · cases hr
        refine .notify _ _ ((notifies_tickleStep s k (s.workers w).tickle).trans ?_)
        have hset := notifies_setWorker (s.tickleStep k (s.workers w).tickle).1 w
          (s.tickleStep k (s.workers w).tickle).2
        rwa [tickleStep_workers] at hset
  | call w c =>
      simp only [op] at hr
      split at hr <;> cases hr
      rename_i hen
      have hset := notifies_setWorker (s.call c).2 w (needTickle (s.call c).1)
      rw [call_workers] at hset
      exact .call _ c _ (.inr ⟨w, rfl⟩) hen.2.2 hset
  | fiber w fop =>
      simp only [op] at hr
      split at hr
      · rename_i b f hpc
        split at hr
        · exact .fiber w b f fop r hpc hr
        · cases hr
      · cases hr
  | idleCheck w quiet =>
      simp only [op] at hr
      split at hr <;> cases hr
      rename_i hpc
      exact .idleCheck k w quiet hpc.1
  | wake w pipe =>
      simp only [op] at hr
      split at hr <;> cases hr
      rename_i hpc
      exact .wake w pipe hpc.1

/-! ## Accesses that test before they go on

What is known after an access that failed no assertion.
-/

section Access

variable {s t : State n} {w : Fin n}

theorem accessAt_swapAssert {b : Branch} {f : FiberId}
    (hr : s.accessAt w (.swapAssert b f) = some (.ok t)) :
    s.states f ≠ .exec ∧ t = s.goto w (.swapExec b f) := by
  simp only [State.accessAt, Option.some.injEq] at hr
  split at hr
  · cases hr
  · rename_i hexec
    cases hr
    exact ⟨hexec, rfl⟩

theorem accessAt_recycle {f : FiberId} (hr : s.accessAt w (.recycle f) = some (.ok t)) :
    resettable (s.states f) ∧ t = s.goto w (.recycleWrite f) := by
  simp only [State.accessAt, Option.some.injEq] at hr
  split at hr
  · rename_i hreset
    cases hr
    exact ⟨hreset, rfl⟩
  · cases hr

/-- A callback runs in a new fiber, or in the one that is kept. -/
theorem accessAt_prepare {cb : Cb} (hr : s.accessAt w (.prepare cb) = some (.ok t)) :
    ((s.workers w).cbFiber = none ∧
      t = (s.newFiber (some cb)).setWorker w { s.workers w with
        cbFiber := some (s.lastFiber + 1)
        pc := .swapAssert .cb (s.lastFiber + 1) }) ∨
    ∃ f, (s.workers w).cbFiber = some f ∧ resettable (s.states f) ∧
      t = s.goto w (.prepareWrite cb f) := by
  simp only [State.accessAt, State.prepare, Option.some.injEq] at hr
  split at hr
  · rename_i hnone
    cases hr
    exact .inl ⟨hnone, rfl⟩
  · rename_i f hsome
    split at hr
    · rename_i hreset
      cases hr
      exact .inr ⟨f, hsome, hreset, rfl⟩
    · cases hr

theorem accessAt_noTask (hr : s.accessAt w .noTask = some (.ok t)) :
    ((s.workers w).idle = .term ∧ t = s.goto w .exited) ∨
    ((s.workers w).idle ≠ .exec ∧
      t = { s with idle := s.idle + 1 }.setWorker w { s.workers w with
        idle := .exec
        pc := .idleCheck }) := by
  simp only [State.accessAt, State.noTask, Option.some.injEq] at hr
  split at hr
  · rename_i hterm
    cases hr
    exact .inl ⟨hterm, rfl⟩
  · cases hr
  · rename_i hexec
    cases hr
    exact .inr ⟨hexec, rfl⟩

end Access

end Sylar.Scheduler
