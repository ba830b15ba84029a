import Sylar.Sync.Lock

/-! # The locks of the framework

Every function that takes a lock, as the program of its lock operations and of its accesses to
the members that some function touches under a lock. Branches are arguments of a call: what a call
finds is not determined by the locks. Assertions hold, what the users' callbacks own takes no lock
when it is destroyed, and the listeners of a variable are the two that the framework registers.

A file stream that writes out its buffer calls `write`, which is hooked: on a worker `do_io` then
logs, under the locks of the appender and of its logger (`std::cout` ends in the C library, which
calls its own). The wait of a `Thread` for the thread it creates is left out; that thread takes no
lock before the wait is over.
-/

namespace Sylar.Hierarchy

open Sync Transition

/-! ## Locks and data -/

/-- `ConfigVar<T>`, by the number of its type and its own. -/
structure Var where
  type : Nat
  number : Nat
  deriving DecidableEq, Repr

/-- Loggers go by name, and other objects by number. -/
inductive Lock where
  /-- `Config::GetMutex()` -/
  | config
  | configVar (v : Var)
  | semaphore (f : Nat)
  /-- `FdContext::mutex` of a descriptor of an `IOManager` -/
  | fdContext (i fd : Nat)
  | scheduler (s : Nat)
  | ioManager (i : Nat)
  | timerManager (i : Nat)
  | fdManager
  | loggerManager
  | logger (name : String)
  | appender (a : Nat)
  deriving DecidableEq, Repr

inductive Datum where
  /-- `GetDatas()` -/
  | configDatas
  | val (v : Var)
  | cbs (v : Var)
  /-- `s_fun_id` of `ConfigVar<T>::addListener` -/
  | funId (type : Nat)
  /-- `s_connect_timeout`, which a listener writes -/
  | connectTimeout
  /-- `m_concurrency` and `m_waiters` -/
  | permits (f : Nat)
  /-- `events`, `read` and `write` of an `FdContext` -/
  | events (i fd : Nat)
  | fibers (s : Nat)
  | threads (s : Nat)
  /-- `m_stopping` and `m_autoStop` -/
  | stopping (s : Nat)
  | fdContexts (i : Nat)
  /-- `m_timers`, with the timers in it, and `m_previouseTime` -/
  | timers (i : Nat)
  | tickled (i : Nat)
  /-- `m_datas` -/
  | fdDatas
  | loggers
  | appenders (name : String)
  | loggerFormatter (name : String)
  | level (name : String)
  /-- `m_level` of an appender -/
  | appenderLevel (a : Nat)
  /-- `m_formatter` and `m_hasFormatter` of an appender -/
  | appenderFormatter (a : Nat)
  | filestream (a : Nat)
  | lastTime (a : Nat)
  deriving DecidableEq, Repr

/-- A lock is only taken under locks of smaller rank; the root logger comes behind the others. -/
def Lock.rank : Lock → Nat
  | .config => 0
  | .configVar _ => 1
  | .semaphore _ => 2
  | .fdContext _ _ => 2
  | .scheduler _ => 3
  | .ioManager _ => 3
  | .timerManager _ => 3
  | .loggerManager => 4
  | .logger name => if name = "root" then 6 else 5
  | .appender _ => 7
  | .fdManager => 8

/-- No one lock is meant for the static counter and timeout, the levels and `m_lastTime`. -/
def Datum.guard : Datum → Option Lock
  | .configDatas => some .config
  | .val v => some (.configVar v)
  | .cbs v => some (.configVar v)
  | .funId _ => none
  | .connectTimeout => none
  | .permits f => some (.semaphore f)
  | .events i fd => some (.fdContext i fd)
  | .fibers s => some (.scheduler s)
  | .threads s => some (.scheduler s)
  | .stopping s => some (.scheduler s)
  | .fdContexts i => some (.ioManager i)
  | .timers i => some (.timerManager i)
  | .tickled i => some (.timerManager i)
  | .fdDatas => some .fdManager
  | .loggers => some .loggerManager
  | .appenders name => some (.logger name)
  | .loggerFormatter name => some (.logger name)
  | .level _ => none
  | .appenderLevel _ => none
  | .appenderFormatter a => some (.appender a)
  | .filestream a => some (.appender a)
  | .lastTime _ => none

abbrev Program := List (Op Lock Datum)

def read (d : Datum) : Program := [.access d false]

def write (d : Datum) : Program := [.access d true]

/-- `MutexType::Lock` and `RWMutexType::WriteLock`. -/
def alone (l : Lock) (body : Program) : Program := locked l .exclusive body

/-- `RWMutexType::ReadLock`. -/
def readers (l : Lock) (body : Program) : Program := locked l .shared body

/-- `FdManager::get`. -/
def fdGet (creates : Bool) : Program :=
  readers .fdManager (read .fdDatas) ++ if creates then alone .fdManager (write .fdDatas) else []

/-- `FdManager::del`. -/
def fdDel : Program := alone .fdManager (write .fdDatas)

/-! ## Logging -/

mutual

/-- An appender that `Logger::log` comes to: whether the event passes its level, whether it is a
`FileLogAppender`, whether the second has changed, and the hooked writes that closing the stream
and writing to it make, with what their message finds. -/
structure AppenderRun where
  appender : Nat
  passes : Bool
  file : Bool
  reopens : Bool
  closing : Option LogRun
  writing : Option LogRun

/-- What a call of `Logger::log` finds: the level tests and the appenders of the logger and of its
root. -/
structure LogRun where
  passes : Bool
  own : List AppenderRun
  rootPasses : Bool
  root : List AppenderRun

end

def reopen (a : Nat) (closing : Program) : Program :=
  alone (.appender a) (write (.filestream a) ++ closing)

/-- `FileLogAppender::log` behind its level test. -/
def fileLog (a : Nat) (reopens : Bool) (closing writing : Program) : Program :=
  read (.lastTime a) ++ (if reopens then reopen a closing ++ write (.lastTime a) else []) ++
    alone (.appender a) (read (.appenderFormatter a) ++ write (.filestream a) ++ writing)

/-- `StdoutLogAppender::log` behind its level test. -/
def stdoutLog (a : Nat) : Program := alone (.appender a) (read (.appenderFormatter a))

/-- The locked part of `Logger::log`. -/
def loop (name : String) (body : Program) : Program :=
  alone (.logger name) (read (.appenders name) ++ body)

mutual

/-- The `write` of a stream. A thread with hooks logs in `do_io` and looks its descriptor up;
`loud` says whether `system` lets this message pass. -/
def flush (loud : Bool) : Option LogRun → Program
  | none => []
  | some x => (if loud then log loud "system" x else read (.level "system")) ++ fdGet false

def appenderLog (loud : Bool) : AppenderRun → Program
  | ⟨a, passes, file, reopens, closing, writing⟩ =>
      read (.appenderLevel a) ++ if passes then
        if file then fileLog a reopens (flush loud closing) (flush loud writing) else stdoutLog a
      else []

def appendersLog (loud : Bool) : List AppenderRun → Program
  | [] => []
  | a :: as => appenderLog loud a ++ appendersLog loud as

/-- `Logger::log`, which the logging macros call behind the same level test. The root logger has
no `m_root`. -/
def log (loud : Bool) (name : String) : LogRun → Program
  | ⟨passes, own, rootPasses, root⟩ =>
      read (.level name) ++ if passes then
        loop name (if own.isEmpty && decide (name ≠ "root") then
          read (.level "root") ++
            if rootPasses then loop "root" (appendersLog loud root) else []
          else appendersLog loud own)
      else []

end

section Programs

variable (loud : Bool)

/-- `SYLAR_LOG_*(g_logger)` of the classes, and a logging statement that may not be reached. -/
def logSystem (x : LogRun) : Program := log loud "system" x

def logIf (name : String) : Option LogRun → Program
  | none => []
  | some x => log loud name x

def setLevel (name : String) : Program := write (.level name)

/-- `Logger::delAppender` and `Logger::clearAppenders`, which may destroy appenders and close their
streams. -/
def removeAppenders (name : String) (closed : List (Option LogRun)) : Program :=
  alone (.logger name) (write (.appenders name) ++ closed.flatMap (flush loud))

/-- `LogAppender::getFormatter`. -/
def getOwnFormatter (a : Nat) : Program := alone (.appender a) (read (.appenderFormatter a))

/-- `Logger::addAppender`; `bare` says that the appender has no formatter. -/
def addAppender (name : String) (a : Nat) (bare : Bool) : Program :=
  alone (.logger name) (getOwnFormatter a ++
    (if bare then
      alone (.appender a) (read (.loggerFormatter name) ++ write (.appenderFormatter a))
    else []) ++
    write (.appenders name))

/-- `Logger::setFormatter(LogFormatter::ptr)`; an appender is written unless it has a formatter
of its own. -/
def setFormatter (name : String) (attached : List (Nat × Bool)) : Program :=
  alone (.logger name) (write (.loggerFormatter name) ++ read (.appenders name) ++
    attached.flatMap fun a =>
      alone (.appender a.1) [.access (.appenderFormatter a.1) (!a.2)])

def getFormatter (name : String) : Program := alone (.logger name) (read (.loggerFormatter name))

/-- `StdoutLogAppender::toYamlString` and `FileLogAppender::toYamlString`. -/
def appenderToYamlString (a : Nat) : Program :=
  alone (.appender a) (read (.appenderLevel a) ++ read (.appenderFormatter a))

/-- `LogAppender::setFormatter`. -/
def setOwnFormatter (a : Nat) : Program := alone (.appender a) (write (.appenderFormatter a))

def toYamlString (name : String) (attached : List Nat) : Program :=
  alone (.logger name) (read (.level name) ++ read (.loggerFormatter name) ++
    read (.appenders name) ++ attached.flatMap appenderToYamlString)

def getLogger (new : Bool) : Program := alone .loggerManager [.access .loggers new]

/-- `LoggerManager::toYamlString`. -/
def managerToYamlString (loggers : List (String × List Nat)) : Program :=
  alone .loggerManager (read .loggers ++ loggers.flatMap fun l => toYamlString l.1 l.2)

/-! ## Config variables -/

/-- What the listener of `logs` does for a new or changed definition: the logger, the appenders
that `setFormatter` finds where the definition has a formatter, the streams that are closed, and
for every new appender whether it is a file and whether it has a formatter. -/
structure LogsChange where
  name : String
  new : Bool
  formatter : Option (List (Nat × Bool))
  closed : List (Option LogRun)
  appenders : List (Nat × Bool × Bool)

/-- `new FileLogAppender`, `setLevel`, `setFormatter` and `addAppender` of one appender. -/
def LogsChange.attach (name : String) (a : Nat × Bool × Bool) : Program :=
  (if a.2.1 then reopen a.1 [] else []) ++ write (.appenderLevel a.1) ++
    (if a.2.2 then setOwnFormatter a.1 else []) ++ addAppender name a.1 (!a.2.2)

def LogsChange.program (c : LogsChange) : Program :=
  getLogger c.new ++ setLevel c.name ++ (match c.formatter with
    | none => []
    | some attached => setFormatter c.name attached) ++
    removeAppenders loud c.name c.closed ++ c.appenders.flatMap (LogsChange.attach c.name)

/-- The listeners of `tcp.connect.timeout` and of `logs`. -/
inductive Listener where
  | connectTimeout (x : LogRun)
  | logs (x : LogRun) (changes : List LogsChange) (removed : List (String × List (Option LogRun)))

def Listener.program : Listener → Program
  | .connectTimeout x => logSystem loud x ++ write .connectTimeout
  | .logs x changes removed =>
      log loud "root" x ++ changes.flatMap (LogsChange.program loud) ++
        removed.flatMap fun l =>
          getLogger false ++ setLevel l.1 ++ removeAppenders loud l.1 l.2

/-- A call of `setValue`: whether the value is the old one, the listeners, and whether the last of
them throws. -/
structure SetRun where
  same : Bool
  listeners : List Listener
  throws : Bool

/-- `ConfigVar::setValue`. -/
def SetRun.program (v : Var) (x : SetRun) : Program :=
  readers (.configVar v) (read (.val v) ++
    if x.same then [] else read (.cbs v) ++ x.listeners.flatMap (Listener.program loud)) ++
    if x.same || x.throws then [] else alone (.configVar v) (write (.val v))

/-- `ConfigVar::toString`; what it catches is logged. -/
def toString (v : Var) (caught : Option LogRun) : Program :=
  readers (.configVar v) (read (.val v)) ++ logIf loud "root" caught

/-- `ConfigVar::fromString`, where the conversion succeeds or fails. -/
def fromString (v : Var) (converted : Option SetRun) (caught : Option LogRun) : Program :=
  (match converted with
    | none => []
    | some x => x.program loud v) ++ logIf loud "root" caught

def addListener (v : Var) : Program :=
  alone (.configVar v) (write (.funId v.type) ++ write (.cbs v))

/-- The cases of `Config::Lookup` with a default value. -/
inductive LookupCase where
  | exists (x : LogRun)
  | otherType (v : Var) (caught : Option LogRun) (x : LogRun)
  | invalid (x : LogRun)
  | new

def LookupCase.program : LookupCase → Program
  | .exists x => log loud "root" x
  -- the message is built first, and only if the level passes
  | .otherType v caught x =>
      (if x.passes then toString loud v caught else []) ++ log loud "root" x
  | .invalid x => log loud "root" x
  | .new => write .configDatas

/-- `Config::Lookup` with a default value. -/
def lookup (c : LookupCase) : Program := alone .config (read .configDatas ++ c.program loud)

/-- `Config::Lookup` without one, and `Config::LookupBase`. -/
def lookupBase : Program := readers .config (read .configDatas)

/-- `Config::Visit` with a callback that logs the variables. -/
def visit (vars : List (Var × Option LogRun × LogRun)) : Program :=
  readers .config (read .configDatas ++ vars.flatMap fun x =>
    (if x.2.2.passes then toString loud x.1 x.2.1 else []) ++ log loud "root" x.2.2)

/-- `Config::LoadFromYaml`: the names that are refused, then the entries, with the variable that
is found. -/
def loadFromYaml (refused : List LogRun)
    (entries : List (Option (Var × Option SetRun × Option LogRun))) : Program :=
  refused.flatMap (log loud "root") ++ entries.flatMap fun e =>
    lookupBase ++ match e with
      | none => []
      | some x => fromString loud x.1 x.2.1 x.2.2

/-! ## Scheduling -/

/-- `Scheduler::tickle`, and `IOManager::tickle` without idle threads or with its hooked write. -/
inductive TickleRun where
  | base (x : LogRun)
  | asleep
  | write (hooked : Option LogRun)

def TickleRun.program : TickleRun → Program
  | .base x => logSystem loud x
  | .asleep => []
  | .write none => []
  | .write (some x) => logSystem loud x ++ fdGet false

/-- A call of `schedule`: the scheduler, and the `tickle()` that follows. -/
structure ScheduleRun where
  scheduler : Nat
  tickle : Option TickleRun

/-- Both `Scheduler::schedule` functions. -/
def ScheduleRun.program (x : ScheduleRun) : Program :=
  alone (.scheduler x.scheduler) (write (.fibers x.scheduler)) ++ match x.tickle with
    | none => []
    | some t => t.program loud

/-- The section of `Scheduler::run` that searches `m_fibers`. -/
def scan (s : Nat) : Program := alone (.scheduler s) (write (.fibers s))

/-- `Scheduler::stopping`; `flagged` says that the flags are set. -/
def stopping (s : Nat) (flagged : Bool) : Program :=
  alone (.scheduler s) (read (.stopping s) ++ if flagged then read (.fibers s) else [])

/-- `Scheduler::start`, which returns if the scheduler runs, and logs if `pthread_create` fails. -/
def start (s : Nat) (runs : Bool) (failed : Option LogRun) : Program :=
  alone (.scheduler s) (read (.stopping s) ++ if runs then [] else
    write (.stopping s) ++ write (.threads s) ++ logIf loud "system" failed)

/-- The flags that `Scheduler::stop` sets. -/
def setStopping (s : Nat) : Program := write (.stopping s)

/-- The section of `Scheduler::stop`. -/
def stop (s : Nat) : Program := alone (.scheduler s) (write (.threads s))

/-- `Fiber::Fiber(cb, stacksize)`, with the variable of the stack size where it is asked. -/
def newFiber (stackSize : Option Var) (x : LogRun) : Program :=
  (match stackSize with
    | none => []
    | some v => readers (.configVar v) (read (.val v))) ++ logSystem loud x

def tryWait (f : Nat) : Program := alone (.semaphore f) (write (.permits f))

/-- The section of `FiberSemaphore::wait`; `Fiber::GetThis()` may create a main fiber, which
logs. -/
def wait (f : Nat) (created : Option LogRun) : Program :=
  alone (.semaphore f) (read (.permits f) ++ logIf loud "system" created ++ write (.permits f))

/-- `FiberSemaphore::notify`; the fiber that is scheduled may end and be destroyed here. -/
def notify (f : Nat) (next : Option (ScheduleRun × Option LogRun)) : Program :=
  alone (.semaphore f) (write (.permits f) ++ match next with
    | none => []
    | some x => x.1.program loud ++ logIf loud "system" x.2)

/-! ## Events -/

/-- The end of a section under `FdContext::mutex`: nothing to do, a refused `epoll_ctl`, an event
added or deleted, where a fiber may be created or destroyed, or events fired. -/
inductive EventRun where
  | nothing
  | refused (x : LogRun)
  | stored (logged : Option LogRun)
  | fired (calls : List ScheduleRun)

def EventRun.program (i fd : Nat) : EventRun → Program
  | .nothing => read (.events i fd)
  | .refused x => read (.events i fd) ++ logSystem loud x
  | .stored logged => write (.events i fd) ++ logIf loud "system" logged
  | .fired calls => write (.events i fd) ++ calls.flatMap (ScheduleRun.program loud)

/-- One dispatch section of `IOManager::idle`. -/
def dispatch (i fd : Nat) (x : EventRun) : Program :=
  alone (.fdContext i fd) (x.program loud i fd)

def addEvent (i fd : Nat) (grows : Bool) (x : EventRun) : Program :=
  readers (.ioManager i) (read (.fdContexts i)) ++
    (if grows then alone (.ioManager i) (write (.fdContexts i)) else []) ++ dispatch loud i fd x

/-- `IOManager::delEvent`, `cancelEvent` and `cancelAll`; the descriptor may be outside the
table. -/
def endEvents (i fd : Nat) (x : Option EventRun) : Program :=
  readers (.ioManager i) (read (.fdContexts i)) ++ match x with
    | none => []
    | some x => dispatch loud i fd x

/-! ## Timers -/

/-- `Timer::cancel` and `Timer::refresh`. -/
def changeTimer (i : Nat) : Program := alone (.timerManager i) (write (.timers i))

/-- `TimerManager::addTimer`; at the front `onTimerInsertedAtFront` follows behind the lock. -/
def addTimer (i : Nat) (front : Option (LogRun × TickleRun)) : Program :=
  alone (.timerManager i) (write (.timers i) ++ [.access (.tickled i) front.isSome]) ++
    match front with
    | none => []
    | some x => logSystem loud x.1 ++ x.2.program loud

/-- How `Timer::reset` ends: with the period as it is, with no timer to move, or with the timer
back in the set. -/
inductive ResetRun where
  | same
  | gone
  | moved (front : Option (LogRun × TickleRun))

/-- `Timer::reset`, which compares `m_ms` before it takes the lock. -/
def reset (i : Nat) (x : ResetRun) : Program :=
  read (.timers i) ++ match x with
    | .same => []
    | .gone => alone (.timerManager i) (read (.timers i))
    | .moved front => addTimer loud i front

def hasTimer (i : Nat) : Program := readers (.timerManager i) (read (.timers i))

def getNextTimer (i : Nat) : Program :=
  readers (.timerManager i) (write (.tickled i) ++ read (.timers i))

def listExpiredCb (i : Nat) (empty : Bool) : Program :=
  readers (.timerManager i) (read (.timers i)) ++
    if empty then [] else alone (.timerManager i) (write (.timers i))

/-! ## Calls -/

end Programs

/-- The functions that take a lock, and those without one that touch the same members. What several
functions do alike is one call. -/
inductive Call where
  | reopen (a : Nat) (closing : Option LogRun)
  | log (name : String) (x : LogRun)
  | setLevel (name : String)
  | setAppenderLevel (a : Nat)
  | addAppender (name : String) (a : Nat) (bare : Bool)
  | removeAppenders (name : String) (closed : List (Option LogRun))
  | setFormatter (name : String) (attached : List (Nat × Bool))
  | getFormatter (name : String)
  | getOwnFormatter (a : Nat)
  | setOwnFormatter (a : Nat)
  | appenderToYamlString (a : Nat)
  | toYamlString (name : String) (attached : List Nat)
  | getLogger (new : Bool)
  | managerToYamlString (loggers : List (String × List Nat))
  | getValue (v : Var)
  | setValue (v : Var) (x : SetRun)
  | toString (v : Var) (caught : Option LogRun)
  | fromString (v : Var) (converted : Option SetRun) (caught : Option LogRun)
  | addListener (v : Var)
  | delListener (v : Var)
  | getListener (v : Var)
  | clearListener (v : Var)
  | lookup (c : LookupCase)
  | lookupBase
  | visit (vars : List (Var × Option LogRun × LogRun))
  | loadFromYaml (refused : List LogRun)
      (entries : List (Option (Var × Option SetRun × Option LogRun)))
  /-- what `connect` reads before it calls `connect_with_timeout` -/
  | connect
  | fdGet (creates : Bool)
  | fdDel
  | tickle (x : TickleRun)
  | schedule (x : ScheduleRun)
  | scan (s : Nat)
  | stopping (s : Nat) (flagged : Bool)
  | start (s : Nat) (runs : Bool) (failed : Option LogRun)
  | setStopping (s : Nat)
  | stop (s : Nat)
  | newFiber (stackSize : Option Var) (x : LogRun)
  | tryWait (f : Nat)
  | wait (f : Nat) (created : Option LogRun)
  | notify (f : Nat) (next : Option (ScheduleRun × Option LogRun))
  | getConcurrency (f : Nat)
  | resetConcurrency (f : Nat)
  | dispatch (i fd : Nat) (x : EventRun)
  | addEvent (i fd : Nat) (grows : Bool) (x : EventRun)
  | endEvents (i fd : Nat) (x : Option EventRun)
  | changeTimer (i : Nat)
  | addTimer (i : Nat) (front : Option (LogRun × TickleRun))
  | reset (i : Nat) (x : ResetRun)
  | hasTimer (i : Nat)
  | getNextTimer (i : Nat)
  | listExpiredCb (i : Nat) (empty : Bool)

def Call.program (loud : Bool) : Call → Program
  | .reopen a closing => Hierarchy.reopen a (flush loud closing)
  | .log name x => Hierarchy.log loud name x
  | .setLevel name => Hierarchy.setLevel name
  | .setAppenderLevel a => write (.appenderLevel a)
  | .addAppender name a bare => Hierarchy.addAppender name a bare
  | .removeAppenders name closed => Hierarchy.removeAppenders loud name closed
  | .setFormatter name attached => Hierarchy.setFormatter name attached
  | .getFormatter name => Hierarchy.getFormatter name
  | .getOwnFormatter a => Hierarchy.getOwnFormatter a
  | .setOwnFormatter a => Hierarchy.setOwnFormatter a
  | .appenderToYamlString a => Hierarchy.appenderToYamlString a
  | .toYamlString name attached => Hierarchy.toYamlString name attached
  | .getLogger new => Hierarchy.getLogger new
  | .managerToYamlString loggers => Hierarchy.managerToYamlString loggers
  | .getValue v => readers (.configVar v) (read (.val v))
  | .setValue v x => x.program loud v
  | .toString v caught => Hierarchy.toString loud v caught
  | .fromString v converted caught => Hierarchy.fromString loud v converted caught
  | .addListener v => Hierarchy.addListener v
  | .delListener v => alone (.configVar v) (write (.cbs v))
  | .getListener v => readers (.configVar v) (read (.cbs v))
  | .clearListener v => readers (.configVar v) (write (.cbs v))
  | .lookup c => Hierarchy.lookup loud c
  | .lookupBase => Hierarchy.lookupBase
  | .visit vars => Hierarchy.visit loud vars
  | .loadFromYaml refused entries => Hierarchy.loadFromYaml loud refused entries
  | .connect => read .connectTimeout
  | .fdGet creates => Hierarchy.fdGet creates
  | .fdDel => Hierarchy.fdDel
  | .tickle x => x.program loud
  | .schedule x => x.program loud
  | .scan s => Hierarchy.scan s
  | .stopping s flagged => Hierarchy.stopping s flagged
  | .start s runs failed => Hierarchy.start loud s runs failed
  | .setStopping s => Hierarchy.setStopping s
  | .stop s => Hierarchy.stop s
  | .newFiber stackSize x => Hierarchy.newFiber loud stackSize x
  | .tryWait f => Hierarchy.tryWait f
  | .wait f created => Hierarchy.wait loud f created
  | .notify f next => Hierarchy.notify loud f next
  | .getConcurrency f => read (.permits f)
  | .resetConcurrency f => write (.permits f)
  | .dispatch i fd x => Hierarchy.dispatch loud i fd x
  | .addEvent i fd grows x => Hierarchy.addEvent loud i fd grows x
  | .endEvents i fd x => Hierarchy.endEvents loud i fd x
  | .changeTimer i => Hierarchy.changeTimer i
  | .addTimer i front => Hierarchy.addTimer loud i front
  | .reset i x => Hierarchy.reset loud i x
  | .hasTimer i => Hierarchy.hasTimer i
  | .getNextTimer i => Hierarchy.getNextTimer i
  | .listExpiredCb i empty => Hierarchy.listExpiredCb i empty

end Sylar.Hierarchy
