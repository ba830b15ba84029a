import Sylar.Timer.Manager
import Sylar.Transition.Run

/-! # The idle loop of `IOManager`

Workers poll the timers before they wait in `epoll_wait`; other threads, and the tasks that
workers run, add and change timers and notify through the tickle pipe. Locked sections are
single steps, and so are the accesses between them. What a worker does between two visits
to its idle fiber is one program counter here.
-/

namespace Sylar.Wakeup

open Timers Transition

/-! ## Timeouts -/

/-- What `idle` passes to `epoll_wait` for the result of `getNextTimer`: both casts to `int`
and the cap `MAX_TIMEOUT`. -/
def epollTimeout (timeout : Nat) : Int :=
  if timeout ≠ 2 ^ 64 - 1 then
    if Int.bmod timeout (2 ^ 32) > 3000 then 3000 else Int.bmod timeout (2 ^ 32)
  else 3000

def waitUntil (now : Nat) (timeout : Int) : Option Nat :=
  if timeout < 0 then none else some (now + timeout.toNat)

/-! ## State -/

/-- Where a worker stands; the flag of a report says that it names the tickle pipe. -/
inductive Pc where
  /-- in `run`, up to `++m_idleThreadCount` -/
  | busy
  /-- `getNextTimer` in `stopping` -/
  | poll
  /-- the rest of `stopping`, with the timeout and the reading it was computed from -/
  | stopping (timeout now : Nat)
  /-- in `epoll_wait` -/
  | waiting (wake : Option Nat)
  /-- the clock reading of `listExpiredCb` -/
  | returned (pipe : Bool)
  /-- its read-locked test and its write-locked section -/
  | checkEmpty (pipe : Bool) (now : Nat)
  | takeExpired (pipe : Bool) (now : Nat)
  /-- the schedules and the handling of the report -/
  | dispatch (pipe : Bool)
  /-- `--m_idleThreadCount` -/
  | idleDec
  /-- the same after `stopping` was true -/
  | leaving
  /-- in `run` with an idle fiber that has ended -/
  | ended
  deriving DecidableEq, Repr

inductive Thread (n : Nat) where
  | worker (w : Fin n) | other (i : Nat)
  deriving DecidableEq, Repr

/-- Where a thread stands in a call; `front` marks the `tickle()` of
`onTimerInsertedAtFront`. -/
inductive Stage where
  | none
  /-- `addTimer` with its `Timer` constructed -/
  | constructed (created ms : Nat) (cb : Option Cb) (recurring : Bool)
  /-- `reset` past the test without the lock -/
  | resetting (a : Addr) (ms : Nat) (fromNow : Bool)
  /-- the load of `m_idleThreadCount`, then the `write` -/
  | tickle (front : Bool)
  | write (front : Bool)
  deriving DecidableEq, Repr

structure State (n : Nat) where
  mgr : TimerManager
  clock : Nat
  idle : Nat
  pipe : Nat
  workers : Fin n → Pc
  calls : Thread n → Stage

def State.init (n now : Nat) : State n :=
  ⟨.init now, now, 0, 0, fun _ => .busy, fun _ => .none⟩

variable {n : Nat}

def State.goto (s : State n) (w : Fin n) (pc : Pc) : State n :=
  { s with workers := Function.update s.workers w pc }

def State.setCall (s : State n) (th : Thread n) (stage : Stage) : State n :=
  { s with calls := Function.update s.calls th stage }

/-! ## Steps -/

def Pc.mayCall : Pc → Bool
  | .busy | .dispatch _ | .ended => true
  | _ => false

def State.ready (s : State n) (th : Thread n) : Prop :=
  s.calls th = .none ∧ ∀ w, th = .worker w → (s.workers w).mayCall = true

instance (s : State n) (th : Thread n) : Decidable (s.ready th) :=
  have : Decidable (∀ w, th = .worker w → (s.workers w).mayCall = true) :=
    match th with
    | .worker w =>
        if h : (s.workers w).mayCall = true then isTrue (by rintro v hv; cases hv; exact h)
        else isFalse fun hall => h (hall w rfl)
    | .other _ => isTrue nofun
  inferInstanceAs (Decidable (_ ∧ _))

inductive Action (n : Nat) where
  | tick (elapsed : Nat)
  /-- `addTimer` up to the lock, and its locked section -/
  | addTimer (th : Thread n) (ms : Nat) (cb : Option Cb) (recurring : Bool)
  | insert (th : Thread n) (a : Addr)
  /-- `reset` up to the lock, and its locked section -/
  | reset (th : Thread n) (a : Addr) (ms : Nat) (fromNow : Bool)
  | rearm (th : Thread n)
  | refresh (th : Thread n) (a : Addr)
  | cancel (th : Thread n) (a : Addr)
  /-- a `tickle()` on behalf of a task, and the next access of any `tickle()` -/
  | tickle (th : Thread n)
  | notify (th : Thread n)
  /-- a worker proceeds; `probe` is the address of `now_timer` -/
  | worker (w : Fin n) (probe : Addr)
  /-- the rest of `stopping`: `quiet` says that no event is pending and
  `Scheduler::stopping` holds -/
  | stopping (w : Fin n) (quiet pipe : Bool)
  /-- `epoll_wait` returns: an event, the timeout, or the tickle pipe -/
  | wake (w : Fin n) (pipe : Bool)

/-- The stage after the unlock of `addTimer(val, lock)`. -/
def afterInsert (atFront : Bool) : Stage := if atFront then .tickle true else .none

def State.insert (s : State n) (th : Thread n) (a : Addr) : Option (State n) :=
  match s.calls th with
  | .constructed created ms cb recurring =>
      if s.mgr.issued a = true then none
      else
        let r := s.mgr.addTimer created a ms cb recurring
        some ({ s with mgr := r.2 }.setCall th (afterInsert r.1))
  | _ => none

def State.rearm (s : State n) (th : Thread n) : Option (State n) :=
  match s.calls th with
  | .resetting a ms fromNow =>
      let r := s.mgr.resetLocked s.clock a ms fromNow
      some ({ s with mgr := r.2.2 }.setCall th (afterInsert r.2.1))
  | _ => none

/-- `IOManager::tickle`. -/
def State.notify (s : State n) (th : Thread n) : Option (State n) :=
  match s.calls th with
  | .tickle front => some (s.setCall th (if s.idle = 0 then .none else .write front))
  | .write _ => some ({ s with pipe := s.pipe + 1 }.setCall th .none)
  | _ => none

def State.accessAt (s : State n) (w : Fin n) (probe : Addr) :
    Pc → Option (Except Fault (State n))
  | .busy => some (.ok ({ s with idle := s.idle + 1 }.goto w .poll))
  | .poll =>
      let r := s.mgr.getNextTimer s.clock
      some (.ok ({ s with mgr := r.2 }.goto w (.stopping r.1 s.clock)))
  | .stopping _ _ => none
  | .waiting _ => none
  | .returned pipe => some (.ok (s.goto w (.checkEmpty pipe s.clock)))
  | .checkEmpty pipe now =>
      some (.ok (s.goto w (if s.mgr.timers = [] then .dispatch pipe else .takeExpired pipe now)))
  | .takeExpired pipe now =>
      if s.mgr.issued probe = true then none
      else
        some ((s.mgr.takeExpired now probe).map fun r => { s with mgr := r.2.2 }.goto w
          (.dispatch pipe))
  | .dispatch true => some (.ok ({ s with pipe := 0 }.goto w (.dispatch false)))
  | .dispatch false => some (.ok (s.goto w .idleDec))
  | .idleDec => some (.ok ({ s with idle := sizeDec s.idle }.goto w .busy))
  | .leaving => some (.ok ({ s with idle := sizeDec s.idle }.goto w .ended))
  | .ended => none

/-- `stopping` ends the idle fiber, or `epoll_wait` is entered; with a timeout of 0 it
returns at once. -/
def State.stopping (s : State n) (w : Fin n) (timeout now : Nat) (quiet pipe : Bool) : State n :=
  if timeout = 2 ^ 64 - 1 ∧ quiet then s.goto w .leaving
  else if epollTimeout timeout = 0 then s.goto w (.returned pipe)
  else s.goto w (.waiting (waitUntil now (epollTimeout timeout)))

def op (s : State n) : Action n → Option (Except Fault (State n))
  | .tick elapsed => some (.ok { s with clock := s.clock + elapsed })
  | .addTimer th ms cb recurring =>
      if s.ready th then some (.ok (s.setCall th (.constructed s.clock ms cb recurring))) else none
  | .insert th a => (s.insert th a).map .ok
  | .reset th a ms fromNow =>
      if s.ready th ∧ s.mgr.issued a = true then
        some (.ok (if ms = (s.mgr.heap a).ms ∧ ¬ fromNow then s
          else s.setCall th (.resetting a ms fromNow)))
      else none
  | .rearm th => (s.rearm th).map .ok
  | .refresh th a =>
      if s.ready th ∧ s.mgr.issued a = true then
        some (.ok { s with mgr := (s.mgr.refresh s.clock a).2 })
      else none
  | .cancel th a =>
      if s.ready th ∧ s.mgr.issued a = true then
        some ((s.mgr.cancel a).map fun r => { s with mgr := r.2 })
      else none
  | .tickle th => if s.ready th then some (.ok (s.setCall th (.tickle false))) else none
  | .notify th => (s.notify th).map .ok
  | .worker w probe =>
      if s.calls (.worker w) = .none then s.accessAt w probe (s.workers w) else none
  | .stopping w quiet pipe =>
      match s.workers w with
      | .stopping timeout now =>
          if pipe = true ∧ s.pipe = 0 then none
          else some (.ok (s.stopping w timeout now quiet pipe))
      | _ => none
  | .wake w pipe =>
      match s.workers w with
      | .waiting _ =>
          if pipe = true ∧ s.pipe = 0 then none else some (.ok (s.goto w (.returned pipe)))
      | _ => none

def step : Except Fault (State n) → Action n → Option (Except Fault (State n)) := abortable op

/-- Delays are below `2 ^ 31` ms, and clock readings are such that no deadline wraps. -/
def Bounded (s : State n) : Action n → Prop
  | .tick elapsed => s.clock + elapsed + 2 ^ 31 ≤ 2 ^ 64
  | .addTimer _ ms _ _ => ms < 2 ^ 31
  | .reset _ _ ms _ => ms < 2 ^ 31
  | _ => True

instance (s : State n) (a : Action n) : Decidable (Bounded s a) := by
  cases a <;> unfold Bounded <;> infer_instance

end Sylar.Wakeup
