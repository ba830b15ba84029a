import Sylar.Epoll.Rouse
import Sylar.Timer.Expiry

/-! # Waiting for a descriptor with a timeout

`do_io` and `connect_with_timeout` from their first system call on, for a socket in blocking
mode and one shared access at a time: the condition timer in `TimerManager`, the event in
`IOManager`, and the suspension that an entry for the fiber in `m_fibers` ends. Other workers
take the expired timers, run the callbacks that were handed out and handle reports. Clock
readings are arguments, in no order.
-/

namespace Sylar.Timeout

open Transition Epoll Timers

/-! ## State -/

/-- What the callback of a condition timer captures: `winfo`, `fd` and the event. -/
structure Closure where
  tinfo : Nat
  fd : Nat
  event : Event
  deriving DecidableEq, Repr

inductive JobPc where
  /-- `weak_cond.lock()` -/
  | lock
  /-- `t->cancelled` -/
  | test
  /-- `t->cancelled = ETIMEDOUT` -/
  | set
  /-- `cancelEvent` -/
  | cancel
  deriving DecidableEq, Repr

/-- A callback that was handed out and has not finished. -/
structure Job where
  closure : Closure
  pc : JobPc
  deriving DecidableEq, Repr

inductive CallPc where
  /-- `fun(fd, ..)` or `connect_f` -/
  | issue
  /-- `addConditionTimer` -/
  | arm
  /-- `addEvent` -/
  | register
  /-- `timer->cancel()` after an `addEvent` that failed -/
  | failed
  /-- `YieldToHold` -/
  | yield
  | suspended
  /-- `timer->cancel()` -/
  | resumed
  /-- `tinfo->cancelled` -/
  | test
  deriving DecidableEq, Repr

inductive Routine where
  | doIo (writes : Bool)
  | connectWithTimeout
  deriving DecidableEq, Repr

def Routine.event : Routine → Event
  | .doIo writes => if writes then .write else .read
  | .connectWithTimeout => .write

/-- `(uint64_t)-1` -/
def noTimeout : Nat := 2 ^ 64 - 1

/-- `tinfo` is the number of the call's `timer_info`, and `timer` the timer that was added last. -/
structure Call where
  routine : Routine
  fd : Nat
  timeout : Nat
  tinfo : Nat
  timer : Option Addr
  pc : CallPc
  deriving DecidableEq, Repr

def Call.event (call : Call) : Event := call.routine.event

def Call.closure (call : Call) : Closure := ⟨call.tinfo, call.fd, call.event⟩

/-- `closures` are the callbacks of the condition timers; the other callbacks up to `lastCb`
belong to other timers. `cancelled` is the field of every `timer_info`, and `queued` counts
the entries of a fiber in `m_fibers`. -/
structure State (n : Nat) where
  iom : IOManager
  timers : TimerManager
  closures : Cb → Option Closure
  lastCb : Nat
  cancelled : Nat → Bool
  lastInfo : Nat
  calls : Fin n → Option Call
  queued : Fin n → Nat
  jobs : List Job

def State.init (n now : Nat) : State n where
  iom := .init
  timers := .init now
  closures := fun _ => none
  lastCb := 0
  cancelled := fun _ => false
  lastInfo := 0
  calls := fun _ => none
  queued := fun _ => 0
  jobs := []

inductive Failed where
  | epoll (failure : Failure)
  | timers (fault : Fault)
  deriving DecidableEq, Repr

variable {n : Nat}

/-! ## Updates -/

def State.become (s : State n) (f : Fin n) (call : Option Call) : State n :=
  { s with calls := Function.update s.calls f call }

def State.at (s : State n) (f : Fin n) (call : Call) (pc : CallPc) : State n :=
  s.become f (some { call with pc := pc })

/-- `IOManager` after an operation; the scheduled fibers are queued. -/
def State.afterEvents (s : State n) (iom : IOManager) : State n :=
  { s with
    iom := iom
    queued := fun f => s.queued f + (iom.scheduled.drop s.iom.scheduled.length).countP fun x =>
      decide (x.task.fiber = some (f : Nat)) }

def State.endJob (s : State n) (job : Job) : State n := { s with jobs := s.jobs.erase job }

def State.moveJob (s : State n) (job : Job) (pc : JobPc) : State n :=
  { s with jobs := { job with pc := pc } :: s.jobs.erase job }

/-- `winfo.lock()` succeeds: the call has not returned, or a callback holds the pointer. -/
def State.Alive (s : State n) (tinfo : Nat) : Prop :=
  (∃ f, (s.calls f).map Call.tinfo = some tinfo) ∨
    ∃ job ∈ s.jobs, job.closure.tinfo = tinfo ∧ job.pc ≠ .lock

instance (s : State n) (tinfo : Nat) : Decidable (s.Alive tinfo) :=
  inferInstanceAs (Decidable (_ ∨ _))

/-! ## Steps -/

inductive Access where
  /-- the system call; `again` says that it failed with `EAGAIN` or `EINPROGRESS` -/
  | issue (again : Bool)
  | arm (now : Nat) (timer : Addr)
  | register (granted : Bool)
  | yield
  /-- a worker takes an entry for the fiber and switches it in -/
  | resume
  | cancelTimer
  | test
  deriving DecidableEq, Repr

inductive Action (n : Nat) where
  | begin (f : Fin n) (routine : Routine) (fd timeout : Nat)
  | fiber (f : Fin n) (access : Access)
  /-- a worker's `listExpiredCb` -/
  | expire (now : Nat) (probe : Addr)
  | job (job : Job) (granted : Bool)
  /-- a worker handles a report -/
  | dispatch (fd : Nat) (report : Mask) (granted : Bool)
  /-- another fiber closes the descriptor -/
  | cancelAll (fd : Nat) (granted : Bool)
  /-- a timer with another callback -/
  | addTimer (now : Nat) (timer : Addr) (ms : Nat) (recurring : Bool)

/-- `to` was read and `tinfo` is new. -/
def State.begin (s : State n) (f : Fin n) (routine : Routine) (fd timeout : Nat) : State n :=
  { s with
    lastInfo := s.lastInfo + 1
    cancelled := Function.update s.cancelled (s.lastInfo + 1) false }.become f
      (some ⟨routine, fd, timeout, s.lastInfo + 1, none, .issue⟩)

/-- `addConditionTimer`, unless there is no timeout. -/
def State.arm (s : State n) (f : Fin n) (call : Call) (now : Nat) (timer : Addr) :
    Option (State n) :=
  if call.timeout = noTimeout then some (s.at f { call with timer := none } .register)
  else if s.timers.issued timer then none
  else
    some ({ s with
      timers := (s.timers.addTimer now timer call.timeout (some (s.lastCb + 1)) false).2
      closures := Function.update s.closures (s.lastCb + 1) (some call.closure)
      lastCb := s.lastCb + 1 }.at f { call with timer := some timer } .register)

def State.register (s : State n) (f : Fin n) (call : Call) (granted : Bool) :
    Except Failed (State n) :=
  match s.iom.addEvent ⟨some 0, f, .exec⟩ call.fd call.event none granted with
  | .error e => .error (.epoll e)
  | .ok r => .ok ({ s with iom := r.2 }.at f call (if r.1 = 0 then .yield else .failed))

/-- `if (timer) timer->cancel();`; after a failed `addEvent` the call is over. -/
def State.cancelTimer (s : State n) (f : Fin n) (call : Call) : Except Failed (State n) :=
  let next (s : State n) := if call.pc = .failed then s.become f none else s.at f call .test
  match call.timer with
  | none => .ok (next s)
  | some timer =>
      match s.timers.cancel timer with
      | .error e => .error (.timers e)
      | .ok r => .ok (next { s with timers := r.2 })

/-- A resumed `do_io` tries again, while `connect_with_timeout` is over. -/
def State.test (s : State n) (f : Fin n) (call : Call) : State n :=
  if s.cancelled call.tinfo ∨ call.routine = .connectWithTimeout then s.become f none
  else s.at f call .issue

def State.access (s : State n) (f : Fin n) (call : Call) :
    Access → Option (Except Failed (State n))
  | .issue again =>
      if call.pc = .issue then
        some (.ok (if again then s.at f call .arm else s.become f none))
      else none
  | .arm now timer => if call.pc = .arm then (s.arm f call now timer).map .ok else none
  | .register granted => if call.pc = .register then some (s.register f call granted) else none
  | .yield => if call.pc = .yield then some (.ok (s.at f call .suspended)) else none
  | .resume =>
      if call.pc = .suspended ∧ 0 < s.queued f then
        some (.ok ({ s with
          queued := Function.update s.queued f (s.queued f - 1) }.at f call .resumed))
      else none
  | .cancelTimer =>
      if call.pc = .failed ∨ call.pc = .resumed then some (s.cancelTimer f call) else none
  | .test => if call.pc = .test then some (.ok (s.test f call)) else none

/-- `OnTimer` and the callback of a condition timer. -/
def State.runJob (s : State n) (job : Job) (granted : Bool) : Except Failed (State n) :=
  match job.pc with
  | .lock => .ok (if s.Alive job.closure.tinfo then s.moveJob job .test else s.endJob job)
  | .test =>
      .ok (if s.cancelled job.closure.tinfo then s.endJob job else s.moveJob job .set)
  | .set =>
      .ok ({ s with
        cancelled := Function.update s.cancelled job.closure.tinfo true }.moveJob job .cancel)
  | .cancel =>
      match s.iom.cancelEvent job.closure.fd job.closure.event granted with
      | .error e => .error (.epoll e)
      | .ok r => .ok ((s.afterEvents r.2).endJob job)

/-- The callbacks that `listExpiredCb` returned are handed out. -/
def State.handOut (s : State n) (cbs : List (Option Cb)) (timers : TimerManager) : State n :=
  { s with
    timers := timers
    jobs := s.jobs ++ (cbs.filterMap fun cb => cb.bind s.closures).map fun closure =>
      ⟨closure, .lock⟩ }

def op (s : State n) : Action n → Option (Except Failed (State n))
  | .begin f routine fd timeout =>
      if s.calls f = none then some (.ok (s.begin f routine fd timeout)) else none
  | .fiber f access => (s.calls f).bind fun call => s.access f call access
  | .expire now probe =>
      if s.timers.issued probe then none
      else
        some (match s.timers.listExpiredCb now probe with
          | .error e => .error (.timers e)
          | .ok r => .ok (s.handOut r.2.1 r.2.2))
  | .job job granted => if job ∈ s.jobs then some (s.runJob job granted) else none
  | .dispatch fd report granted =>
      some (match s.iom.dispatch fd report granted with
        | .error e => .error (.epoll e)
        | .ok iom => .ok (s.afterEvents iom))
  | .cancelAll fd granted =>
      some (match s.iom.cancelAll fd granted with
        | .error e => .error (.epoll e)
        | .ok r => .ok (s.afterEvents r.2))
  | .addTimer now timer ms recurring =>
      if s.timers.issued timer then none
      else
        some (.ok { s with
          timers := (s.timers.addTimer now timer ms (some (s.lastCb + 1)) recurring).2
          closures := Function.update s.closures (s.lastCb + 1) none
          lastCb := s.lastCb + 1 })

def step : Except Failed (State n) → Action n → Option (Except Failed (State n)) := abortable op

end Sylar.Timeout
