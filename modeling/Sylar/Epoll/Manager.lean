import Sylar.Epoll.Context
import Sylar.Transition.Run

/-! # The event operations of `IOManager`

`addEvent`, `delEvent`, `cancelEvent`, `cancelAll` and one dispatch section of
`idle`, each as one atomic step on the descriptor table, the pending counter and
the interest list that the kernel keeps for `m_epfd`. The outcome of every
`epoll_ctl` is an argument: a call the kernel refuses changes nothing.

Descriptors are natural numbers and the table is a list, so the `(int)` casts of
`m_fdContexts.size()` are the identity here.
-/

namespace Sylar.Epoll

/-! ## State -/

inductive EpollOp where
  | add | mod | del
  deriving DecidableEq, Repr

/-- The event part of an `IOManager`. `interest` is the kernel's mask for each
descriptor added to `m_epfd`; `scheduled` lists the calls of `schedule` made by
`triggerEvent`; `underflows` counts decrements of the pending counter made at 0
(neither is read by the code). -/
structure IOManager where
  fdContexts : List FdContext
  pendingEventCount : Nat
  interest : Nat → Option Mask
  scheduled : List Scheduled
  underflows : Nat

/-- The calling thread: `Scheduler::GetThis()`, `Fiber::GetThis()` and the state of that fiber. -/
structure Caller where
  scheduler : Option Nat
  fiber : FiberId
  state : FiberState
  deriving DecidableEq, Repr

/-- On a worker thread the scheduler is set and the current fiber is executing. -/
def Caller.OnWorker (c : Caller) : Prop := c.scheduler.isSome ∧ c.state = .exec

instance (c : Caller) : Decidable c.OnWorker := by
  unfold Caller.OnWorker
  infer_instance

/-- `IOManager::contextResize`: `resize`, then a new context in every null slot. -/
def contextResize (fdContexts : List FdContext) (size : Nat) : List FdContext :=
  fdContexts.take size ++
    (List.range' fdContexts.length (size - fdContexts.length)).map FdContext.new

def IOManager.init : IOManager := ⟨contextResize [] 32, 0, fun _ => none, [], 0⟩

/-- `epoll_ctl(m_epfd, op, fd, &event)`: `none` when it returns non-zero. The
kernel refuses to add a present descriptor and to change or delete an absent one;
`granted = false` is any other refusal. -/
def IOManager.epollCtl (m : IOManager) (op : EpollOp) (fd : Nat) (events : Mask) (granted : Bool) :
    Option IOManager :=
  match granted, op, m.interest fd with
  | true, .add, none => some { m with interest := Function.update m.interest fd (some events) }
  | true, .mod, some _ => some { m with interest := Function.update m.interest fd (some events) }
  | true, .del, some _ => some { m with interest := Function.update m.interest fd none }
  | _, _, _ => none

/-- `--m_pendingEventCount`. -/
def IOManager.decPending (m : IOManager) : IOManager :=
  { m with
    pendingEventCount := sizeDec m.pendingEventCount
    underflows := if m.pendingEventCount = 0 then m.underflows + 1 else m.underflows }

/-- Store through the `FdContext*` of descriptor `fd`. -/
def IOManager.setContext (m : IOManager) (fd : Nat) (c : FdContext) : IOManager :=
  { m with fdContexts := m.fdContexts.set fd c }

/-! ## Operations -/

/-- `IOManager::addEvent`. The table keeps a resize even when the call fails. -/
def IOManager.addEvent (m : IOManager) (caller : Caller) (fd : Nat) (event : Event)
    (cb : Option Cb) (granted : Bool) : Except Failure (Int × IOManager) :=
  let m :=
    if fd < m.fdContexts.length then m
    else { m with fdContexts := contextResize m.fdContexts (fd * 3 / 2) }
  match m.fdContexts[fd]? with
  | none => .error .fdContexts
  | some fdCtx =>
      if fdCtx.events &&& event.bits ≠ 0 then .error .addEvent
      else
        let op := if fdCtx.events ≠ 0 then EpollOp.mod else .add
        match m.epollCtl op fd (epollEt ||| fdCtx.events ||| event.bits) granted with
        | none => .ok (-1, m)
        | some m =>
            match fdCtx.getContext event with
            | none => .error .getContext
            | some eventCtx =>
                if eventCtx ≠ .empty then .error .eventContext
                else if cb = none ∧ caller.state ≠ .exec then .error .fiberState
                else
                  let eventCtx : EventContext :=
                    if cb.isSome then { eventCtx with scheduler := caller.scheduler, cb := cb }
                    else { eventCtx with scheduler := caller.scheduler, fiber := some caller.fiber }
                  let fdCtx := { fdCtx with events := fdCtx.events ||| event.bits }
                  .ok (0, { m with pendingEventCount := m.pendingEventCount + 1 }.setContext fd
                    (fdCtx.setContext eventCtx event))

def IOManager.delEvent (m : IOManager) (fd : Nat) (event : Event) (granted : Bool) :
    Except Failure (Bool × IOManager) :=
  match m.fdContexts[fd]? with
  | none => .ok (false, m)
  | some fdCtx =>
      if fdCtx.events &&& event.bits = 0 then .ok (false, m)
      else
        let newEvents := fdCtx.events &&& ~~~event.bits
        let op := if newEvents ≠ 0 then EpollOp.mod else .del
        match m.epollCtl op fd (epollEt ||| newEvents) granted with
        | none => .ok (false, m)
        | some m =>
            match fdCtx.getContext event with
            | none => .error .getContext
            | some eventCtx =>
                let fdCtx := { fdCtx with events := newEvents }
                .ok (true, m.decPending.setContext fd
                  (fdCtx.setContext (resetContext eventCtx) event))

/-- `fd_ctx->triggerEvent(event); --m_pendingEventCount;` on the context of `fd`. -/
def IOManager.triggerPending (m : IOManager) (fd : Nat) (fdCtx : FdContext) (event : Event) :
    Except Failure (FdContext × IOManager) :=
  match fdCtx.triggerEvent event with
  | .error e => .error e
  | .ok (fdCtx, wake) =>
      .ok (fdCtx, { m with scheduled := m.scheduled ++ [wake] }.decPending.setContext fd fdCtx)

def IOManager.cancelEvent (m : IOManager) (fd : Nat) (event : Event) (granted : Bool) :
    Except Failure (Bool × IOManager) :=
  match m.fdContexts[fd]? with
  | none => .ok (false, m)
  | some fdCtx =>
      if fdCtx.events &&& event.bits = 0 then .ok (false, m)
      else
        let newEvents := fdCtx.events &&& ~~~event.bits
        let op := if newEvents ≠ 0 then EpollOp.mod else .del
        match m.epollCtl op fd (epollEt ||| newEvents) granted with
        | none => .ok (false, m)
        | some m => (m.triggerPending fd fdCtx event).map fun r => (true, r.2)

/-- `if (mask & event) { fd_ctx->triggerEvent(event); --m_pendingEventCount; }` for the two
events in turn. `mask` picks the set that is tested: the context's own events in
`cancelAll`, the report in `idle`. -/
def IOManager.triggerIf (m : IOManager) (fd : Nat) (fdCtx : FdContext)
    (mask : FdContext → Mask) (event : Event) : Except Failure (FdContext × IOManager) :=
  if mask fdCtx &&& event.bits ≠ 0 then m.triggerPending fd fdCtx event else .ok (fdCtx, m)

def IOManager.cancelAll (m : IOManager) (fd : Nat) (granted : Bool) :
    Except Failure (Bool × IOManager) :=
  match m.fdContexts[fd]? with
  | none => .ok (false, m)
  | some fdCtx =>
      if fdCtx.events = 0 then .ok (false, m)
      else
        match m.epollCtl .del fd 0 granted with
        | none => .ok (false, m)
        | some m =>
            match m.triggerIf fd fdCtx FdContext.events .read with
            | .error e => .error e
            | .ok (fdCtx, m) =>
                match m.triggerIf fd fdCtx FdContext.events .write with
                | .error e => .error e
                | .ok (fdCtx, m) => if fdCtx.events = 0 then .ok (true, m) else .error .cancelAll

/-- `if(event.events & (EPOLLERR | EPOLLHUP))
event.events |= (EPOLLIN | EPOLLOUT) & fd_ctx->events;` -/
def widenReport (events report : Mask) : Mask :=
  if report &&& (epollErr ||| epollHup) ≠ 0 then report ||| ((epollIn ||| epollOut) &&& events)
  else report

def realEvents (events report : Mask) : Mask :=
  (if widenReport events report &&& epollIn ≠ 0 then Event.read.bits else Event.none.bits) |||
    (if widenReport events report &&& epollOut ≠ 0 then Event.write.bits else Event.none.bits)

/-- One section of the dispatch loop of `IOManager::idle`, for the context that
the report's `data.ptr` points to. -/
def IOManager.dispatch (m : IOManager) (fd : Nat) (report : Mask) (granted : Bool) :
    Except Failure IOManager :=
  match m.fdContexts[fd]? with
  | none => .error .fdContexts
  | some fdCtx =>
      let real := realEvents fdCtx.events report
      if fdCtx.events &&& real = Event.none.bits then .ok m
      else
        let leftEvents := fdCtx.events &&& ~~~real
        let op := if leftEvents ≠ 0 then EpollOp.mod else .del
        match m.epollCtl op fd (epollEt ||| leftEvents) granted with
        | none => .ok m
        | some m =>
            match m.triggerIf fd fdCtx (fun _ => real) .read with
            | .error e => .error e
            | .ok (fdCtx, m) =>
                match m.triggerIf fd fdCtx (fun _ => real) .write with
                | .error e => .error e
                | .ok (_, m) => .ok m

def IOManager.closeFd (m : IOManager) (fd : Nat) : IOManager :=
  { m with interest := Function.update m.interest fd none }

/-! ## The manager as a system -/

/-- One call of the event interface, with the answer of its `epoll_ctl`. -/
inductive Action where
  | addEvent (caller : Caller) (fd : Nat) (event : Event) (cb : Option Cb) (granted : Bool)
  | delEvent (fd : Nat) (event : Event) (granted : Bool)
  | cancelEvent (fd : Nat) (event : Event) (granted : Bool)
  | cancelAll (fd : Nat) (granted : Bool)
  | dispatch (fd : Nat) (report : Mask) (granted : Bool)
  | closeFd (fd : Nat)
  deriving DecidableEq, Repr

/-- The part of the interface that other threads call at any time. -/
def Action.isCall : Action → Bool
  | .addEvent .. | .delEvent .. | .cancelEvent .. | .cancelAll .. => true
  | .dispatch .. | .closeFd _ => false

def IOManager.act (m : IOManager) : Action → Except Failure IOManager
  | .addEvent caller fd event cb granted =>
      (m.addEvent caller fd event cb granted).map Prod.snd
  | .delEvent fd event granted => (m.delEvent fd event granted).map Prod.snd
  | .cancelEvent fd event granted => (m.cancelEvent fd event granted).map Prod.snd
  | .cancelAll fd granted => (m.cancelAll fd granted).map Prod.snd
  | .dispatch fd report granted => m.dispatch fd report granted
  | .closeFd fd => .ok (m.closeFd fd)

/-- Every call can be made in every state; a failed assertion ends the run. -/
def step : Except Failure IOManager → Action → Option (Except Failure IOManager) :=
  Transition.abortable fun m a => some (m.act a)

/-- `m_fdContexts[fd]->events`, and no event for a descriptor outside the table. -/
def IOManager.eventsAt (m : IOManager) (fd : Nat) : Mask :=
  (m.fdContexts[fd]?.map FdContext.events).getD 0

theorem IOManager.eventsAt_eq {m : IOManager} {fd : Nat} {c : FdContext}
    (hc : m.fdContexts[fd]? = some c) : m.eventsAt fd = c.events := by
  simp [IOManager.eventsAt, hc]

end Sylar.Epoll
