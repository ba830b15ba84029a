import Sylar.Epoll.Waiters

/-! # Hooked calls on descriptors

`do_io`, `close`, `socket` and `accept` on threads with the hook enabled, one shared access at
a time, over the kernel's table of open files, the table of `FdManager` and the events of
`IOManager`. A fiber is in at most one call. Open files are numbered in the order in which
they are opened, so that two of them differ even when they share a descriptor.
-/

namespace Sylar.Hook

open Transition Epoll

abbrev File := Nat
abbrev CtxId := Nat

/-! ## `FdManager` -/

/-- `FdCtx`; a timeout of `2 ^ 64 - 1` is none. -/
structure FdCtx where
  isInit : Bool
  isSocket : Bool
  sysNonblock : Bool
  userNonblock : Bool
  isClosed : Bool
  fd : Nat
  recvTimeout : Nat
  sendTimeout : Nat
  deriving DecidableEq, Repr

/-- `FdCtx::FdCtx`, where `fstat` succeeds on an open file; all of them are sockets here. -/
def FdCtx.new (fd : Nat) (file : Option File) : FdCtx where
  isInit := file.isSome
  isSocket := file.isSome
  sysNonblock := file.isSome
  userNonblock := false
  isClosed := false
  fd := fd
  recvTimeout := 2 ^ 64 - 1
  sendTimeout := 2 ^ 64 - 1

/-- `FdCtx::getTimeout` for the option that belongs to the event. -/
def FdCtx.getTimeout (ctx : FdCtx) : Event → Nat
  | .read => ctx.recvTimeout
  | _ => ctx.sendTimeout

def FdCtx.setTimeout (ctx : FdCtx) (event : Event) (v : Nat) : FdCtx :=
  match event with
  | .read => { ctx with recvTimeout := v }
  | _ => { ctx with sendTimeout := v }

/-- What the read-locked section of `FdManager::get` ends with. -/
inductive Lookup where
  | found (ctx : Option CtxId)
  | create
  deriving DecidableEq, Repr

/-- The read-locked section of `FdManager::get`. -/
def fdManagerGet (datas : List (Option CtxId)) (fd : Nat) (autoCreate : Bool) : Lookup :=
  match datas[fd]? with
  | none => if autoCreate then .create else .found none
  | some ctx => if ctx.isSome ∨ autoCreate = false then .found ctx else .create

/-! ## Calls in flight -/

/-- Where a fiber stands in `do_io`. -/
inductive IoPc where
  /-- `FdMgr::get(fd)` -/
  | get
  /-- the tests of `ctx`, and its timeout -/
  | test (ctx : CtxId)
  /-- `return fun(fd, ..)` -/
  | direct
  /-- `n = fun(fd, ..)` -/
  | issue
  /-- `addConditionTimer` -/
  | arm
  /-- `addEvent` -/
  | register
  /-- in `YieldToHold` -/
  | suspended
  /-- `tinfo->cancelled` -/
  | resumed
  deriving DecidableEq, Repr

/-- A call of `do_io`: `accepts` says that `fun` is `accept_f`, and `writes` that it waits for
`WRITE`; `began` is the open file that `fd` named at the call (no code reads it); `cancelled`
is `tinfo->cancelled`, and `armed` says that a condition timer refers to it. -/
structure Call where
  fd : Nat
  accepts : Bool
  writes : Bool
  began : Option File
  timeout : Nat
  armed : Bool
  cancelled : Bool
  pc : IoPc
  deriving DecidableEq, Repr

def Call.event (call : Call) : Event := if call.writes then .write else .read

/-- Where a fiber stands in `close`. -/
inductive ClosePc where
  | get | cancelAll | del | close
  deriving DecidableEq, Repr

/-- What a fiber does: its own code, `do_io`, `close`, or the `FdMgr::get(fd, true)`
of `socket` and `accept`. -/
inductive Activity where
  | user
  | io (call : Call)
  | closing (fd : Nat) (pc : ClosePc)
  | opening (fd : Nat) (create : Bool)
  deriving DecidableEq, Repr

/-- A system call that `do_io` issued: the open file its call began with and the one that the
descriptor named then. -/
structure Issued where
  began : Option File
  target : Option File
  deriving DecidableEq, Repr

/-- `files` is the kernel's descriptor table; `queued` tells whether an entry for the fiber
is in `m_fibers`. -/
structure System (n : Nat) where
  iom : IOManager
  files : Nat → Option File
  lastFile : Nat
  datas : List (Option CtxId)
  ctxs : CtxId → FdCtx
  lastCtx : Nat
  fibers : Fin n → Activity
  queued : Fin n → Bool
  issued : List Issued

def System.init (n : Nat) : System n where
  iom := .init
  files := fun _ => none
  lastFile := 0
  datas := List.replicate 64 none
  ctxs := fun fd => .new fd none
  lastCtx := 0
  fibers := fun _ => .user
  queued := fun _ => false
  issued := []

inductive Fault where
  | epoll (failure : Failure)
  /-- the store to `m_datas[fd]` outside the vector -/
  | datas
  deriving DecidableEq, Repr

variable {n : Nat}

/-! ## Updates -/

def System.become (s : System n) (f : Fin n) (x : Activity) : System n :=
  { s with fibers := Function.update s.fibers f x }

def System.ioAt (s : System n) (f : Fin n) (call : Call) (pc : IoPc) : System n :=
  s.become f (.io { call with pc := pc })

/-- The kernel opens a file under the number `fd`. -/
def System.openFile (s : System n) (fd : Nat) : System n :=
  { s with
    files := Function.update s.files fd (some (s.lastFile + 1))
    lastFile := s.lastFile + 1 }

/-- `close_f`. -/
def System.closeFile (s : System n) (fd : Nat) : System n :=
  { s with files := Function.update s.files fd none, iom := s.iom.closeFd fd }

/-- `IOManager` after an operation; the scheduled fibers are queued. -/
def System.afterEvents (s : System n) (iom : IOManager) : System n :=
  { s with
    iom := iom
    queued := fun f => s.queued f || (iom.scheduled.drop s.iom.scheduled.length).any fun x =>
      decide (x.task.fiber = some (f : Nat)) }

def System.record (s : System n) (call : Call) : System n :=
  { s with issued := s.issued ++ [⟨call.began, s.files call.fd⟩] }

/-! ## Steps -/

/-- What `fun` does on an open file: it ends the call, is interrupted, would block, or
accepts a connection under a new number. -/
inductive Outcome where
  | done | interrupted | again
  | accepted (fd : Nat)
  deriving DecidableEq, Repr

inductive Action (n : Nat) where
  | io (f : Fin n) (fd : Nat) (accepts writes : Bool)
  | close (f : Fin n) (fd : Nat)
  | socket (f : Fin n) (fd : Nat)
  /-- the next access of the fiber -/
  | fiber (f : Fin n)
  | issue (f : Fin n) (outcome : Outcome)
  | register (f : Fin n) (granted : Bool)
  | cancelAll (f : Fin n) (granted : Bool)
  /-- a worker switches the queued fiber in -/
  | resume (f : Fin n)
  /-- the callback of a condition timer, and its `cancelEvent` -/
  | timeout (f : Fin n)
  | cancelEvent (fd : Nat) (event : Event) (granted : Bool)
  /-- a worker handles a report -/
  | dispatch (fd : Nat) (report : Mask) (granted : Bool)
  | setUserNonblock (fd : Nat) (v : Bool)
  | setTimeout (fd : Nat) (event : Event) (v : Nat)

def System.testCtx (s : System n) (f : Fin n) (call : Call) (ctx : FdCtx) : System n :=
  if ctx.isClosed then s.become f .user
  else if ¬ ctx.isSocket ∨ ctx.userNonblock then s.ioAt f call .direct
  else s.ioAt f { call with timeout := ctx.getTimeout call.event } .issue

/-- The accesses of `do_io` that leave the environment no choice. -/
def System.ioStep (s : System n) (f : Fin n) (call : Call) : Option (System n) :=
  match call.pc with
  | .get =>
      match fdManagerGet s.datas call.fd false with
      | .found (some ctx) => some (s.ioAt f call (.test ctx))
      | _ => some (s.ioAt f call .direct)
  | .test ctx => some (s.testCtx f call (s.ctxs ctx))
  | .arm =>
      some (s.ioAt f { call with armed := call.armed || decide (call.timeout ≠ 2 ^ 64 - 1) }
        .register)
  | .resumed => some (if call.cancelled then s.become f .user else s.ioAt f call .issue)
  | _ => none

/-- The accesses of `close`; workers have an `IOManager`. -/
def System.closeStep (s : System n) (f : Fin n) (fd : Nat) : ClosePc → Option (System n)
  | .get =>
      match fdManagerGet s.datas fd false with
      | .found (some _) => some (s.become f (.closing fd .cancelAll))
      | _ => some (s.become f (.closing fd .close))
  | .cancelAll => none
  | .del => some ({ s with datas := s.datas.set fd none }.become f (.closing fd .close))
  | .close => some ((s.closeFile fd).become f .user)

/-- The two sections of `FdMgr::get(fd, true)`. -/
def System.openStep (s : System n) (f : Fin n) (fd : Nat) (create : Bool) :
    Except Fault (System n) :=
  if create then
    if fd < s.datas.length then
      .ok ({ s with
        lastCtx := s.lastCtx + 1
        ctxs := Function.update s.ctxs (s.lastCtx + 1) (.new fd (s.files fd))
        datas := s.datas.set fd (some (s.lastCtx + 1)) }.become f .user)
    else .error .datas
  else
    match fdManagerGet s.datas fd true with
    | .found _ => .ok (s.become f .user)
    | .create => .ok (s.become f (.opening fd true))

/-- `fun(fd, ..)`; on a closed descriptor it fails with `EBADF`. -/
def System.issue (s : System n) (f : Fin n) (call : Call) (outcome : Outcome) :
    Option (System n) :=
  if call.pc = .direct ∨ call.pc = .issue then
    if s.files call.fd = none then some ((s.record call).become f .user)
    else
      match outcome with
      | .done => some ((s.record call).become f .user)
      | .interrupted =>
          some (if call.pc = .issue then s.record call else (s.record call).become f .user)
      | .again =>
          some (if call.pc = .issue then (s.record call).ioAt f call .arm
            else (s.record call).become f .user)
      | .accepted fd =>
          if call.accepts = true ∧ s.files fd = none then
            some (((s.record call).openFile fd).become f (.opening fd false))
          else none
  else none

/-- `addEvent` and the two ways on; `epoll_ctl` needs an open file. -/
def System.register (s : System n) (f : Fin n) (call : Call) (granted : Bool) :
    Except Fault (System n) :=
  match s.iom.addEvent ⟨some 0, f, .exec⟩ call.fd call.event none
      (granted && (s.files call.fd).isSome) with
  | .error e => .error (.epoll e)
  | .ok (rt, iom) =>
      .ok (if rt = 0 then ({ s.record call with iom := iom }).ioAt f call .suspended
        else ({ s.record call with iom := iom }).become f .user)

/-- The context that `FdMgr::get(fd)` finds is changed. -/
def System.changeCtx (s : System n) (fd : Nat) (change : FdCtx → FdCtx) : System n :=
  match fdManagerGet s.datas fd false with
  | .found (some ctx) =>
      { s with ctxs := Function.update s.ctxs ctx (change (s.ctxs ctx)) }
  | _ => s

def op (s : System n) : Action n → Option (Except Fault (System n))
  | .io f fd accepts writes =>
      if s.fibers f = .user then
        some (.ok (s.become f
          (.io ⟨fd, accepts, writes, s.files fd, 2 ^ 64 - 1, false, false, .get⟩)))
      else none
  | .close f fd =>
      if s.fibers f = .user then some (.ok (s.become f (.closing fd .get))) else none
  | .socket f fd =>
      if s.fibers f = .user ∧ s.files fd = none then
        some (.ok ((s.openFile fd).become f (.opening fd false)))
      else none
  | .fiber f =>
      match s.fibers f with
      | .user => none
      | .io call => (s.ioStep f call).map .ok
      | .closing fd pc => (s.closeStep f fd pc).map .ok
      | .opening fd create => some (s.openStep f fd create)
  | .issue f outcome =>
      match s.fibers f with
      | .io call => (s.issue f call outcome).map .ok
      | _ => none
  | .register f granted =>
      match s.fibers f with
      | .io call => if call.pc = .register then some (s.register f call granted) else none
      | _ => none
  | .cancelAll f granted =>
      match s.fibers f with
      | .closing fd .cancelAll =>
          some (match s.iom.cancelAll fd (granted && (s.files fd).isSome) with
            | .error e => .error (.epoll e)
            | .ok r => .ok ((s.afterEvents r.2).become f (.closing fd .del)))
      | _ => none
  | .resume f =>
      match s.fibers f with
      | .io call =>
          if call.pc = .suspended ∧ s.queued f = true then
            some (.ok ({ s with queued := Function.update s.queued f false }.ioAt f call .resumed))
          else none
      | _ => none
  | .timeout f =>
      match s.fibers f with
      | .io call =>
          if call.armed then some (.ok (s.become f (.io { call with cancelled := true }))) else none
      | _ => none
  | .cancelEvent fd event granted =>
      some (match s.iom.cancelEvent fd event (granted && (s.files fd).isSome) with
        | .error e => .error (.epoll e)
        | .ok r => .ok (s.afterEvents r.2))
  | .dispatch fd report granted =>
      some (match s.iom.dispatch fd report (granted && (s.files fd).isSome) with
        | .error e => .error (.epoll e)
        | .ok iom => .ok (s.afterEvents iom))
  | .setUserNonblock fd v =>
      some (.ok (s.changeCtx fd fun ctx => { ctx with userNonblock := v }))
  | .setTimeout fd event v => some (.ok (s.changeCtx fd fun ctx => ctx.setTimeout event v))

def step : Except Fault (System n) → Action n → Option (Except Fault (System n)) := abortable op

end Sylar.Hook
