import Sylar.Hook.Sleep

/-! # The pointer that `IOManager::GetThis` returns

`Scheduler::run` enables the hooks for any scheduler, and the hooks that wait use the result of
a `dynamic_cast` to `IOManager`. Each hook is the list of the pointers that it dereferences. A
call that was resumed goes on on a worker of the same scheduler.
-/

namespace Sylar.Hook

open Epoll

/-! ## Threads -/

inductive SchedulerType where
  | scheduler
  | ioManager
  deriving DecidableEq, Repr

/-- An `IOManager*`; `none` is null. -/
abbrev Pointer := Option SchedulerType

/-- `t_hook_enable`, and the object that `t_scheduler` points to. -/
structure Thread where
  hookEnable : Bool
  scheduler : Option SchedulerType
  deriving DecidableEq, Repr

/-- `set_hook_enable(true)` and `setThis()` in `Scheduler::run`. -/
def Thread.run (_ : Thread) (type : SchedulerType) : Thread := ⟨true, some type⟩

/-- `dynamic_cast<IOManager*>(Scheduler::GetThis())`. -/
def Thread.getThis (t : Thread) : Pointer :=
  match t.scheduler with
  | some .ioManager => some .ioManager
  | some .scheduler | none => none

/-! ## Hooks -/

/-- The context of a call that passes the tests of `do_io` and `connect_with_timeout`. -/
def waitable : Option FdCtx → Option FdCtx
  | none => none
  | some ctx =>
      if ctx.isClosed then none
      else if ¬ ctx.isSocket ∨ ctx.userNonblock then none
      else some ctx

/-- `addConditionTimer`, `addEvent`, and `cancelEvent` in the callback of the timer. -/
def waitOn (iom : Pointer) (timeout : Nat) (fired : Bool) : List Pointer :=
  if timeout ≠ 2 ^ 64 - 1 then iom :: iom :: if fired then [iom] else [] else [iom]

/-- One call of `fun` in `do_io`. -/
inductive Attempt where
  | done
  | interrupted
  /-- `EAGAIN`; whether the timer's callback ran up to `cancelEvent`, and whether `addEvent`
  returned 0 -/
  | again (fired registered : Bool)
  deriving DecidableEq, Repr

/-- `do_io` from `retry` on. -/
def retry (iom : Pointer) (timeout : Nat) : List Attempt → List Pointer
  | [] => []
  | .done :: _ => []
  | .interrupted :: attempts => retry iom timeout attempts
  | .again fired registered :: attempts =>
      waitOn iom timeout fired ++
        if registered ∧ ¬ fired then retry iom timeout attempts else []

inductive HookedCall where
  | sleep (call : SleepCall)
  /-- `inProgress` says that `connect_f` failed with `EINPROGRESS` -/
  | connect (ctx : Option FdCtx) (timeout : Nat) (inProgress fired : Bool)
  | doIo (ctx : Option FdCtx) (event : Event) (attempts : List Attempt)
  | close (ctx : Option FdCtx)
  /-- `set_hook_enable(flag)` by a task -/
  | setHookEnable (flag : Bool)
  deriving DecidableEq, Repr

def HookedCall.derefs (t : Thread) : HookedCall → List Pointer
  | .sleep _ =>
      -- `addTimer`, and `schedule` in the callback
      if t.hookEnable then [t.getThis, t.getThis] else []
  | .connect ctx timeout inProgress fired =>
      if t.hookEnable ∧ (waitable ctx).isSome ∧ inProgress then waitOn t.getThis timeout fired
      else []
  | .doIo ctx event attempts =>
      if t.hookEnable then
        match waitable ctx with
        | none => []
        | some ctx => retry t.getThis (ctx.getTimeout event) attempts
      else []
  | .close ctx =>
      -- the only hook that tests the pointer
      if t.hookEnable ∧ ctx.isSome ∧ t.getThis.isSome then [t.getThis] else []
  | .setHookEnable _ => []

def HookedCall.hookAfter (hookEnable : Bool) : HookedCall → Bool
  | .setHookEnable flag => flag
  | .sleep _ | .connect _ _ _ _ | .doIo _ _ _ | .close _ => hookEnable

def Thread.derefs (t : Thread) : List HookedCall → List Pointer
  | [] => []
  | call :: calls =>
      call.derefs t ++ Thread.derefs { t with hookEnable := call.hookAfter t.hookEnable } calls

/-! ## Calls that wait -/

/-- The first result that is not `EINTR` is `EAGAIN`. -/
def wouldBlock : List Attempt → Bool
  | [] | .done :: _ => false
  | .interrupted :: attempts => wouldBlock attempts
  | .again _ _ :: _ => true

def HookedCall.waits : HookedCall → Bool
  | .sleep _ => true
  | .connect ctx _ inProgress _ => (waitable ctx).isSome && inProgress
  | .doIo ctx _ attempts => (waitable ctx).isSome && wouldBlock attempts
  | .close _ | .setHookEnable _ => false

/-- Some call has to wait and is made with the hooks enabled. -/
def WaitsIn (hookEnable : Bool) : List HookedCall → Prop
  | [] => False
  | call :: calls =>
      hookEnable = true ∧ call.waits = true ∨ WaitsIn (call.hookAfter hookEnable) calls

theorem mem_waitOn {iom : Pointer} {timeout : Nat} {fired : Bool} {p : Pointer} :
    p ∈ waitOn iom timeout fired ↔ p = iom := by
  unfold waitOn
  split
  · cases fired <;> simp
  · simp

theorem mem_retry {iom : Pointer} {timeout : Nat} {attempts : List Attempt} {p : Pointer} :
    p ∈ retry iom timeout attempts ↔ wouldBlock attempts = true ∧ p = iom := by
  induction attempts with
  | nil => simp [retry, wouldBlock]
  | cons attempt attempts ih =>
      cases attempt with
      | done => simp [retry, wouldBlock]
      | interrupted => simpa only [retry, wouldBlock] using ih
      | again fired registered =>
          rw [retry, List.mem_append, mem_waitOn, wouldBlock]
          split <;> simp +contextual [ih]

/-- A hook that waits dereferences what `GetThis` returned; `close` does only when it is not
null. -/
theorem HookedCall.mem_derefs {t : Thread} {call : HookedCall} {p : Pointer} :
    p ∈ call.derefs t ↔ p = t.getThis ∧ t.hookEnable = true ∧
      (call.waits = true ∨ ∃ ctx, call = .close ctx ∧ ctx.isSome = true ∧ p.isSome = true) := by
  cases call with
  | sleep call => simp [derefs, waits, and_comm]
  | connect ctx timeout inProgress fired =>
      simp only [derefs, waits]
      split <;> simp_all [mem_waitOn]
  | doIo ctx event attempts =>
      simp only [derefs, waits]
      cases hctx : waitable ctx <;> split <;> simp_all [mem_retry, and_comm]
  | close ctx =>
      simp only [derefs, waits]
      split <;> simp_all
  | setHookEnable flag => simp [derefs, waits]

theorem HookedCall.derefs_nonnull_iff (t : Thread) (call : HookedCall) :
    (∀ p ∈ call.derefs t, p ≠ none) ↔
      t.getThis ≠ none ∨ ¬ (t.hookEnable = true ∧ call.waits = true) := by
  constructor
  · intro h
    by_contra hnull
    obtain ⟨hthis, hwaits⟩ := not_or.mp hnull
    obtain ⟨henabled, hwaits⟩ := not_not.mp hwaits
    exact hthis (h t.getThis (mem_derefs.mpr ⟨rfl, henabled, .inl hwaits⟩))
  · rintro h p hp rfl
    obtain ⟨hthis, henabled, hcall⟩ := mem_derefs.mp hp
    rcases hcall with hwaits | ⟨ctx, -, -, hsome⟩
    · exact h.elim (fun hne => hne hthis.symm) fun hno => hno ⟨henabled, hwaits⟩
    · cases hsome

/-! ## Every sequence of calls -/

theorem Thread.derefs_nonnull_iff (t : Thread) (calls : List HookedCall) :
    (∀ p ∈ t.derefs calls, p ≠ none) ↔ t.getThis ≠ none ∨ ¬ WaitsIn t.hookEnable calls := by
  induction calls generalizing t with
  | nil => simp [derefs, WaitsIn]
  | cons call calls ih =>
      have hthis : Thread.getThis { t with hookEnable := call.hookAfter t.hookEnable } =
          t.getThis := rfl
      rw [derefs, List.forall_mem_append, call.derefs_nonnull_iff, ih, hthis, ← or_and_left,
        WaitsIn, not_or]

/-- No null pointer is dereferenced on a worker exactly if its scheduler is an `IOManager`, or
no task makes a call that waits. -/
theorem getThis_dereferenced_iff (t : Thread) (type : SchedulerType) (calls : List HookedCall) :
    (∀ p ∈ (t.run type).derefs calls, p ≠ none) ↔ type = .ioManager ∨ ¬ WaitsIn true calls := by
  rw [Thread.derefs_nonnull_iff]
  cases type <;> simp [Thread.run, Thread.getThis]

/-- `test_fiber` sleeps on a worker of a `Scheduler`. -/
theorem sleep_on_scheduler :
    (Thread.run ⟨false, none⟩ .scheduler).derefs [.sleep (.sleep 1)] = [none, none] ∧
      ¬ ∀ p ∈ (Thread.run ⟨false, none⟩ .scheduler).derefs [.sleep (.sleep 1)], p ≠ none := by
  decide

end Sylar.Hook
