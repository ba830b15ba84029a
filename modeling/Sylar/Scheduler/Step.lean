import Sylar.Scheduler.State
import Sylar.Transition.Run

/-! # Steps of the scheduler

A worker step is determined by its program counter; the environment chooses what fiber
code, threads outside the scheduler and the kernel do. A thread that is inside a `tickle()` call
finishes it first.
-/

namespace Sylar.Scheduler

open Transition

variable {n : Nat}

/-! ## Calls -/

/-- What any thread may call: create a fiber, `schedule` one task or a batch, let a
registered wake-up of a fiber fire, or `tickle()` (`stop`, `onTimerInsertedAtFront`). -/
inductive Call where
  | newFiber (cb : Option Cb)
  | schedule (t : Task) (thread : Int)
  | scheduleAll (ts : List Task)
  | fire (f : FiberId)
  | tickle
  deriving DecidableEq, Repr

def Call.entries : Call → List FiberAndThread
  | .newFiber _ => []
  | .schedule t thread => [t.entry thread]
  | .scheduleAll ts => ts.map fun t => t.entry (-1)
  | .fire f => [(Task.fiber (some f)).entry (-1)]
  | .tickle => []

/-- Fibers are pointers to objects that exist, and a wake-up fires if it was registered. -/
def Call.enabled (s : State n) (c : Call) : Prop :=
  (∀ ft ∈ c.entries, ∀ f, ft.fiber = some f → 0 < f ∧ f ≤ s.lastFiber) ∧
    ∀ f, c = .fire f → s.source f = true

instance (s : State n) (c : Call) : Decidable (c.enabled s) :=
  have : Decidable (∀ f, c = .fire f → s.source f = true) :=
    match c with
    | .fire f =>
        if h : s.source f = true then isTrue (by rintro g hg; cases hg; exact h)
        else isFalse (fun hall => h (hall f rfl))
    | .newFiber _ => isTrue nofun
    | .schedule _ _ => isTrue nofun
    | .scheduleAll _ => isTrue nofun
    | .tickle => isTrue nofun
  have : ∀ ft : FiberAndThread, Decidable (∀ f, ft.fiber = some f → 0 < f ∧ f ≤ s.lastFiber) :=
    fun ft => decidable_of_iff (∀ f ∈ ft.fiber, 0 < f ∧ f ≤ s.lastFiber) Iff.rfl
  inferInstanceAs (Decidable (_ ∧ _))

def State.consume (s : State n) (ts : List Task) : State n :=
  { s with fresh := fun f => s.fresh f && !decide (Task.fiber (some f) ∈ ts) }

/-- What a call does before its section: allocate a fiber, or consume the fired wake-up. -/
def State.settle (s : State n) : Call → State n
  | .newFiber cb =>
      { s.newFiber cb with fresh := Function.update s.fresh (s.lastFiber + 1) true }
  | .schedule t _ => s.consume [t]
  | .scheduleAll ts => s.consume ts
  | .fire f => { s with source := Function.update s.source f false }
  | .tickle => s

/-- A call up to the `tickle()` that may follow; a creation and a bare `tickle()`
schedule nothing. -/
def State.call (s : State n) (c : Call) : Bool × State n :=
  let r := (s.settle c).schedule c.entries
  (r.1 || decide (c = .tickle), r.2)

/-- What the code of a running fiber does to the fiber itself: register a wake-up source,
`YieldToReady`, `YieldToHold`, return from `m_cb` or throw out of it. -/
inductive FiberOp where
  | register | yieldToReady | yieldToHold | finish | throw
  deriving DecidableEq, Repr

/-- `f` runs on worker `w` in branch `b`. -/
def State.runFiber (s : State n) (w : Fin n) (b : Branch) (f : FiberId) :
    FiberOp → Except Fault (State n)
  | .register => .ok { s with source := Function.update s.source f true }
  | .yieldToReady => if s.states f = .exec then .ok (s.goto w (.yieldReady b f)) else .error .yield
  | .yieldToHold => if s.states f = .exec then .ok (s.goto w (.swapOut b f)) else .error .yield
  | .finish => .ok (((s.setCallback f none).setState f .term).goto w (.swapOut b f))
  | .throw => .ok ((s.setState f .except).goto w (.swapOut b f))

/-- An empty `m_cb` can only throw. -/
def State.fiberOp (s : State n) (w : Fin n) (b : Branch) (f : FiberId) (fop : FiberOp) :
    Option (Except Fault (State n)) :=
  if s.callbacks f = none ∧ fop ≠ .throw then none else some (s.runFiber w b f fop)

/-! ## Worker steps -/

/-- `cb_fiber` when the handling of a suspended fiber ends: the branch that owns it lets it go. -/
def dropFiber : Branch → Option FiberId → Option FiberId
  | .fiber, cbFiber => cbFiber
  | .cb, _ => none

/-- `--m_activeThreadCount` of worker `w`. -/
def State.decActive (s : State n) (w : Fin n) (pc : Pc) : State n :=
  { s with active := sizeDec s.active }.setWorker w { s.workers w with held := none, pc := pc }

def firstEnd : Branch → FiberState
  | .fiber => .term
  | .cb => .except

def secondEnd : Branch → FiberState
  | .fiber => .except
  | .cb => .term

def endPc : Branch → FiberId → Pc
  | .fiber, _ => .scan
  | .cb, f => .recycle f

/-- `Fiber::reset` requires one of these. -/
def resettable (x : FiberState) : Prop := x = .term ∨ x = .except ∨ x = .init

instance (x : FiberState) : Decidable (resettable x) := inferInstanceAs (Decidable (_ ∨ _ ∨ _))

/-- `idle_fiber` after its `swapIn`: `HOLD` unless it has ended. -/
def idleAfter (x : FiberState) : FiberState := if x = .term ∨ x = .except then x else .hold

/-- `cb_fiber->reset(ft.cb)` up to its assertion, or a new `cb_fiber`. -/
def State.prepare (s : State n) (w : Fin n) (cb : Cb) : Except Fault (State n) :=
  match (s.workers w).cbFiber with
  | none =>
      .ok ((s.newFiber (some cb)).setWorker w { s.workers w with
        cbFiber := some (s.lastFiber + 1)
        pc := .swapAssert .cb (s.lastFiber + 1) })
  | some f =>
      if resettable (s.states f) then .ok (s.goto w (.prepareWrite cb f)) else .error .reset

/-- Nothing was taken: leave `run` if `idle_fiber` has ended, otherwise count this worker
as idle and switch into `idle_fiber`. -/
def State.noTask (s : State n) (w : Fin n) : Except Fault (State n) :=
  match (s.workers w).idle with
  | .term => .ok (s.goto w .exited)
  | .exec => .error .swapIn
  | _ =>
      .ok ({ s with idle := s.idle + 1 }.setWorker w { s.workers w with
        idle := .exec
        pc := .idleCheck })

/-- `schedule` of a fiber that was switched out in `READY`. -/
def State.requeue (s : State n) (w : Fin n) (b : Branch) (f : FiberId) : State n :=
  let r := s.schedule [(Task.fiber (some f)).entry (-1)]
  r.2.setWorker w { s.workers w with
    pc := .scan
    cbFiber := dropFiber b (s.workers w).cbFiber
    tickle := needTickle r.1 }

/-- The access at a program counter that leaves the environment no choice. -/
def State.accessAt (s : State n) (w : Fin n) : Pc → Option (Except Fault (State n))
  | .scan => some (s.scan w)
  | .checkTerm f =>
      some (.ok (s.goto w (if s.states f = .term then .deadDec f else .checkExcept f)))
  | .checkExcept f =>
      some (.ok (s.goto w (if s.states f = .except then .deadDec f else .swapAssert .fiber f)))
  | .swapAssert b f =>
      some (if s.states f = .exec then .error .swapIn else .ok (s.goto w (.swapExec b f)))
  | .swapExec b f => some (.ok ((s.setState f .exec).goto w (.swapCtx b f)))
  | .swapCtx b f =>
      some (.ok ({ s with
        resumed := s.resumed ++ (s.workers w).held.toList.map fun t => (t, f) }.goto w
        (.running b f)))
  | .running _ _ => none
  | .yieldReady b f => some (.ok ((s.setState f .ready).goto w (.swapOut b f)))
  | .swapOut b f => some (.ok (s.goto w (.decActive b f)))
  | .decActive b f => some (.ok (s.decActive w (.postReady b f)))
  | .postReady b f =>
      some (.ok (s.goto w (if s.states f = .ready then .requeue b f else .post1 b f)))
  | .requeue b f => some (.ok (s.requeue w b f))
  | .post1 b f =>
      some (.ok (s.goto w (if s.states f = firstEnd b then endPc b f else .post2 b f)))
  | .post2 b f =>
      some (.ok (s.goto w (if s.states f = secondEnd b then endPc b f else .writeHold b f)))
  | .writeHold b f =>
      some (.ok ((s.setState f .hold).setWorker w { s.workers w with
        pc := .scan
        cbFiber := dropFiber b (s.workers w).cbFiber }))
  | .prepare cb => some (s.prepare w cb)
  | .prepareWrite cb f =>
      some (.ok (((s.setCallback f (some cb)).setState f .init).goto w (.swapAssert .cb f)))
  | .recycle f =>
      some (if resettable (s.states f) then .ok (s.goto w (.recycleWrite f)) else .error .reset)
  | .recycleWrite f => some (.ok (((s.setCallback f none).setState f .init).goto w .scan))
  | .deadDec _ => some (.ok (s.decActive w .scan))
  | .noTask => some (s.noTask w)
  | .idleCheck => none
  | .blocked => none
  | .woken true => some (.ok ({ s with pipe := 0 }.goto w (.woken false)))
  | .woken false => some (.ok (s.goto w .idleDec))
  | .idleDec =>
      some (.ok ({ s with idle := sizeDec s.idle }.setWorker w { s.workers w with
        idle := idleAfter (s.workers w).idle
        pc := .scan }))
  | .exited => none

/-- `stopping()` in `idle`: true ends the idle fiber; otherwise `Scheduler::idle` yields
and `IOManager::idle` waits. `quiet` says that `IOManager::stopping` found no timer and no
pending event. -/
def State.idleCheck (s : State n) (k : Kind) (w : Fin n) (quiet : Bool) : State n :=
  if s.isStopping && (quiet || decide (k = .base)) then
    s.setWorker w { s.workers w with idle := .term, pc := .idleDec }
  else
    match k with
    | .base => s.goto w .idleDec
    | .io => s.goto w .blocked

/-! ## The system -/

inductive Action (n : Nat) where
  /-- a thread outside the scheduler makes a call -/
  | outside (i : Nat) (c : Call)
  /-- it continues with its `tickle()` -/
  | outsideTickle (i : Nat)
  /-- `start()` and the two stores of `stop()` -/
  | start | autoStop | stop
  /-- a worker proceeds -/
  | worker (w : Fin n)
  /-- the fiber on `w`, or `idle()` after its wait, makes a call -/
  | call (w : Fin n) (c : Call)
  | fiber (w : Fin n) (op : FiberOp)
  | idleCheck (w : Fin n) (quiet : Bool)
  /-- `epoll_wait` returns: an event, a timeout, or the tickle pipe -/
  | wake (w : Fin n) (pipe : Bool)

def Pc.mayCall : Pc → Bool
  | .running _ _ => true
  | .woken _ => true
  | _ => false

def op (k : Kind) (s : State n) : Action n → Option (Except Fault (State n))
  | .outside i c =>
      if s.outside i = .none ∧ c.enabled s then
        let r := s.call c
        some (.ok { r.2 with outside := Function.update s.outside i (needTickle r.1) })
      else none
  | .outsideTickle i =>
      if s.outside i = .none then none
      else
        let r := s.tickleStep k (s.outside i)
        some (.ok { r.1 with outside := Function.update s.outside i r.2 })
  | .start => some (.ok { s with stopping := false })
  | .autoStop => some (.ok { s with autoStop := true })
  | .stop => some (.ok { s with stopping := true })
  | .worker w =>
      if (s.workers w).tickle = .none then s.accessAt w (s.workers w).pc
      else
        let r := s.tickleStep k (s.workers w).tickle
        some (.ok (r.1.setWorker w { s.workers w with tickle := r.2 }))
  | .call w c =>
      if (s.workers w).pc.mayCall ∧ (s.workers w).tickle = .none ∧ c.enabled s then
        let r := s.call c
        some (.ok (r.2.setWorker w { s.workers w with tickle := needTickle r.1 }))
      else none
  | .fiber w fop =>
      match (s.workers w).pc with
      | .running b f => if (s.workers w).tickle = .none then s.fiberOp w b f fop else none
      | _ => none
  | .idleCheck w quiet =>
      if (s.workers w).pc = .idleCheck ∧ (s.workers w).tickle = .none then
        some (.ok (s.idleCheck k w quiet))
      else none
  | .wake w pipe =>
      if (s.workers w).pc = .blocked ∧ (s.workers w).tickle = .none ∧ (pipe → s.pipe ≠ 0) then
        some (.ok (s.goto w (.woken pipe)))
      else none

def step (k : Kind) : Except Fault (State n) → Action n → Option (Except Fault (State n)) :=
  abortable (op k)

end Sylar.Scheduler
