import Sylar.Scheduler.Task

/-! # The workers of `Scheduler::run`

Every worker executes `Scheduler::run` one shared access at a time: a section under
`m_mutex`, a load or a store of a fiber's state, or an operation on a counter. The
program counter carries the local variables that are still live, `ft` and the fiber being
handled. Switching into a fiber and switching out of it are steps of their own; between them
the fiber's code may do anything that the class offers.
-/

namespace Sylar.Scheduler

/-! ## Program counters -/

/-- `Scheduler` itself, or `IOManager` with its own `tickle`, `stopping` and `idle`. -/
inductive Kind where
  | base | io
  deriving DecidableEq, Repr

/-- The two branches of `run` that switch into a fiber: `ft.fiber` and `cb_fiber`. -/
inductive Branch where
  | fiber | cb
  deriving DecidableEq, Repr

/-- Where a worker stands in `run`; the names are those of the next access. -/
inductive Pc where
  /-- the section that searches `m_fibers` -/
  | scan
  /-- `ft.fiber->getState() != Fiber::TERM` -/
  | checkTerm (f : FiberId)
  /-- `ft.fiber->getState() != Fiber::EXCEPT` -/
  | checkExcept (f : FiberId)
  /-- `Fiber::swapIn`: the assertion, the store of `EXEC`, the switch -/
  | swapAssert (b : Branch) (f : FiberId)
  | swapExec (b : Branch) (f : FiberId)
  | swapCtx (b : Branch) (f : FiberId)
  /-- the fiber's own code -/
  | running (b : Branch) (f : FiberId)
  /-- `YieldToReady` after its assertion -/
  | yieldReady (b : Branch) (f : FiberId)
  /-- `Fiber::swapOut` -/
  | swapOut (b : Branch) (f : FiberId)
  /-- `--m_activeThreadCount` after `swapIn` -/
  | decActive (b : Branch) (f : FiberId)
  /-- `getState() == Fiber::READY` -/
  | postReady (b : Branch) (f : FiberId)
  /-- `schedule(ft.fiber)` or `schedule(cb_fiber)` -/
  | requeue (b : Branch) (f : FiberId)
  /-- the two loads that look for `TERM` and `EXCEPT` -/
  | post1 (b : Branch) (f : FiberId)
  | post2 (b : Branch) (f : FiberId)
  /-- `m_state = Fiber::HOLD` -/
  | writeHold (b : Branch) (f : FiberId)
  /-- `cb_fiber->reset(ft.cb)` up to its assertion, or `new Fiber(ft.cb)` -/
  | prepare (cb : Cb)
  | prepareWrite (cb : Cb) (f : FiberId)
  /-- `cb_fiber->reset(nullptr)`, the assertion and the stores -/
  | recycle (f : FiberId)
  | recycleWrite (f : FiberId)
  /-- `--m_activeThreadCount` for an entry whose fiber has ended -/
  | deadDec (f : FiberId)
  /-- no task was taken: the test of `idle_fiber`, then `++m_idleThreadCount` -/
  | noTask
  /-- `stopping()` in `idle` -/
  | idleCheck
  /-- in `epoll_wait` -/
  | blocked
  /-- after `epoll_wait`; the flag says that its report names the tickle pipe -/
  | woken (pipe : Bool)
  /-- `--m_idleThreadCount` -/
  | idleDec
  | exited
  deriving DecidableEq, Repr

/-- The part of a `tickle()` call that is still to be executed: the load of
`m_idleThreadCount`, then the `write`. -/
inductive Tickle where
  | none | call | write
  deriving DecidableEq, Repr

/-- A worker: its program counter, `cb_fiber`, the state of `idle_fiber`, the `tickle()` it is
in, and the ticket of the entry it took and has not yet paid for with its decrement. -/
structure Worker where
  pc : Pc
  cbFiber : Option FiberId
  idle : FiberState
  tickle : Tickle
  held : Option Nat
  deriving DecidableEq, Repr

/-! ## Shared state -/

/-- An element of `m_fibers` with its ticket, the number of entries pushed before it. -/
structure Entry where
  ticket : Nat
  task : FiberAndThread
  deriving DecidableEq, Repr

/-- `queue` is `m_fibers`, `active` and `idle` are the two thread counters, `pipe` counts the
bytes in the tickle pipe, `states` and `callbacks` are `m_state` and `m_cb` of the fibers up to
`lastFiber`, and `outside` are the `tickle()` calls of threads that are not workers.

The rest is history: `fresh` fibers were created and never scheduled, `source` fibers
have registered a wake-up that has not fired, `submitted` lists the entries pushed in order,
`taken` the tickets erased by a scan, `resumed` those that led to a switch, with the fiber. -/
structure State (n : Nat) where
  queue : List Entry
  states : FiberId → FiberState
  callbacks : FiberId → Option Cb
  lastFiber : Nat
  active : Nat
  idle : Nat
  pipe : Nat
  autoStop : Bool
  stopping : Bool
  workers : Fin n → Worker
  outside : Nat → Tickle
  fresh : FiberId → Bool
  source : FiberId → Bool
  submitted : List FiberAndThread
  taken : List Nat
  resumed : List (Nat × FiberId)

/-- A scheduler whose workers are about to enter the loop of `run`. -/
def State.init (n : Nat) : State n where
  queue := []
  states := fun _ => .init
  callbacks := fun _ => none
  lastFiber := 0
  active := 0
  idle := 0
  pipe := 0
  autoStop := false
  stopping := true
  workers := fun _ => ⟨.scan, none, .init, .none, none⟩
  outside := fun _ => .none
  fresh := fun _ => false
  source := fun _ => false
  submitted := []
  taken := []
  resumed := []

inductive Fault where
  /-- `it->fiber || it->cb` in the scan -/
  | scan
  /-- `m_state != EXEC` in `swapIn` -/
  | swapIn
  /-- `TERM`, `EXCEPT` or `INIT` in `reset` -/
  | reset
  /-- `cur->m_state == EXEC` in the two yields -/
  | yield
  deriving DecidableEq, Repr

variable {n : Nat}

/-! ## Updates -/

def State.setWorker (s : State n) (w : Fin n) (x : Worker) : State n :=
  { s with workers := Function.update s.workers w x }

/-- Worker `w` proceeds to `pc`. -/
def State.goto (s : State n) (w : Fin n) (pc : Pc) : State n :=
  s.setWorker w { s.workers w with pc := pc }

@[simp] theorem setWorker_workers (s : State n) (w : Fin n) (x : Worker) :
    (s.setWorker w x).workers = Function.update s.workers w x := rfl

def State.setState (s : State n) (f : FiberId) (x : FiberState) : State n :=
  { s with states := Function.update s.states f x }

def State.setCallback (s : State n) (f : FiberId) (cb : Option Cb) : State n :=
  { s with callbacks := Function.update s.callbacks f cb }

/-- `Fiber::Fiber(cb)`: the new fiber is `lastFiber` of the result. -/
def State.newFiber (s : State n) (cb : Option Cb) : State n :=
  { s with
    lastFiber := s.lastFiber + 1
    states := Function.update s.states (s.lastFiber + 1) .init
    callbacks := Function.update s.callbacks (s.lastFiber + 1) cb }

/-! ## Scheduling -/

/-- `Scheduler::schedulerNoLock`: whether to tickle, and the queue afterwards. -/
def State.schedulerNoLock (s : State n) (ft : FiberAndThread) : Bool × State n :=
  (s.queue.isEmpty,
    if ft.nonEmpty then
      { s with
        queue := s.queue ++ [⟨s.submitted.length, ft⟩]
        submitted := s.submitted ++ [ft] }
    else s)

/-- The locked loop of the batch `schedule`. -/
def State.scheduleLoop (s : State n) (needTickle : Bool) : List FiberAndThread → Bool × State n
  | [] => (needTickle, s)
  | ft :: fts =>
      let r := s.schedulerNoLock ft
      r.2.scheduleLoop (r.1 || needTickle) fts

/-- The locked section of both `schedule` functions; the single one is a batch of one. -/
def State.schedule (s : State n) (fts : List FiberAndThread) : Bool × State n :=
  s.scheduleLoop false fts

/-! ## The search for a task -/

/-- `ft`, the queue after the section, and `tickle_me`. -/
structure Scan where
  ft : Option Entry
  queue : List Entry
  tickleMe : Bool

def pinnedElsewhere (w : Fin n) (e : Entry) : Prop := e.task.thread ≠ -1 ∧ e.task.thread ≠ (w : Nat)

instance (w : Fin n) (e : Entry) : Decidable (pinnedElsewhere w e) :=
  inferInstanceAs (Decidable (_ ∧ _))

def executing (states : FiberId → FiberState) (e : Entry) : Prop :=
  ∃ f, e.task.fiber = some f ∧ states f = .exec

instance (states : FiberId → FiberState) (e : Entry) : Decidable (executing states e) :=
  match h : e.task.fiber with
  | none => isFalse (by rintro ⟨f, hf, _⟩; rw [h] at hf; cases hf)
  | some f =>
      if hs : states f = .exec then isTrue ⟨f, h, hs⟩
      else isFalse (by rintro ⟨g, hg, hx⟩; rw [h] at hg; cases hg; exact hs hx)

/-- The loop over `m_fibers` in `run`. -/
def scanLoop (states : FiberId → FiberState) (w : Fin n) : List Entry → Except Fault Scan
  | [] => .ok ⟨none, [], false⟩
  | e :: rest =>
      if pinnedElsewhere w e then
        (scanLoop states w rest).map fun r => ⟨r.ft, e :: r.queue, true⟩
      else if ¬ e.task.nonEmpty then .error .scan
      else if executing states e then
        (scanLoop states w rest).map fun r => ⟨r.ft, e :: r.queue, r.tickleMe⟩
      else .ok ⟨some e, rest, decide (rest ≠ [])⟩

/-- The branch of `run` that `ft` selects. No entry has both a fiber and a callback. -/
def branchPc (ft : Option Entry) : Pc :=
  match ft with
  | none => .noTask
  | some e =>
      match e.task.fiber, e.task.cb with
      | some f, _ => .checkTerm f
      | none, some cb => .prepare cb
      | none, none => .noTask

/-- The locked section at the head of the loop. -/
def State.scan (s : State n) (w : Fin n) : Except Fault (State n) :=
  (scanLoop s.states w s.queue).map fun r =>
    { s with
      queue := r.queue
      active := s.active + if r.ft.isSome then 1 else 0
      taken := s.taken ++ (r.ft.map Entry.ticket).toList
      workers := Function.update s.workers w
        { s.workers w with
          pc := branchPc r.ft
          held := r.ft.map Entry.ticket
          tickle := if r.tickleMe then .call else .none } }

/-! ## Stopping and notification -/

/-- `Scheduler::stopping`. -/
def State.isStopping (s : State n) : Bool :=
  s.autoStop && s.stopping && s.queue.isEmpty && decide (s.active = 0)

/-- What `tickle()` does next: `Scheduler::tickle` only logs. -/
def State.tickleStep (s : State n) : Kind → Tickle → State n × Tickle
  | _, .none => (s, .none)
  | .base, .call => (s, .none)
  | .io, .call => (s, if s.idle = 0 then .none else .write)
  | _, .write => ({ s with pipe := s.pipe + 1 }, .none)

def needTickle (need : Bool) : Tickle := if need then .call else .none

end Sylar.Scheduler
