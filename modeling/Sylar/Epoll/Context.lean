import Sylar.Scheduler.Task

/-! # Event bits and the context of one descriptor

`IOManager::Event`, `IOManager::FdContext` and its three member functions. A
`Event` value that stands for a set of events is a mask; the epoll bits of the
same width live in the same type, with `read` equal to `EPOLLIN` and `write`
equal to `EPOLLOUT`.
-/

namespace Sylar.Epoll

/-! ## Masks -/

abbrev Mask := BitVec 32

inductive Event where
  | none | read | write
  deriving DecidableEq, Repr

def Event.bits : Event → Mask
  | .none => 0x0#32
  | .read => 0x1#32
  | .write => 0x4#32

def epollIn : Mask := 0x001#32
def epollOut : Mask := 0x004#32
def epollErr : Mask := 0x008#32
def epollHup : Mask := 0x010#32
def epollEt : Mask := 0x80000000#32

/-- `READ`, `WRITE`, both or neither: what `FdContext::events` may hold. -/
def Registrable (m : Mask) : Prop := m = 0x0#32 ∨ m = 0x1#32 ∨ m = 0x4#32 ∨ m = 0x5#32

instance (m : Mask) : Decidable (Registrable m) := by
  unfold Registrable
  infer_instance

/-- Number of `READ`/`WRITE` bits of a mask. -/
def bitCount (m : Mask) : Nat :=
  (if m &&& Event.read.bits ≠ 0 then 1 else 0) + (if m &&& Event.write.bits ≠ 0 then 1 else 0)

theorem Registrable.or_bits {m : Mask} (h : Registrable m) (e : Event) :
    Registrable (m ||| e.bits) := by
  cases e <;> rcases h with rfl | rfl | rfl | rfl <;> decide

theorem Registrable.andNot {m r : Mask} (h : Registrable m) (hr : Registrable r) :
    Registrable (m &&& ~~~r) := by
  rcases h with rfl | rfl | rfl | rfl <;> rcases hr with rfl | rfl | rfl | rfl <;> decide

theorem Event.registrable (e : Event) : Registrable e.bits := by cases e <;> decide

theorem bitCount_or {m : Mask} (h : Registrable m) {e : Event} (he : e ≠ .none)
    (hclear : m &&& e.bits = 0) : bitCount (m ||| e.bits) = bitCount m + 1 := by
  cases e
  case none => exact (he rfl).elim
  all_goals revert hclear; rcases h with rfl | rfl | rfl | rfl <;> decide

theorem bitCount_andNot {m : Mask} (h : Registrable m) {e : Event}
    (hset : m &&& e.bits ≠ 0) : bitCount (m &&& ~~~e.bits) + 1 = bitCount m := by
  revert hset
  cases e <;> rcases h with rfl | rfl | rfl | rfl <;> decide

theorem and_or_of_ne {m : Mask} (h : Registrable m) {d e : Event} (hde : d ≠ e) :
    (m ||| e.bits) &&& d.bits = m &&& d.bits := by
  cases d <;> cases e <;>
    first | exact (hde rfl).elim | (rcases h with rfl | rfl | rfl | rfl <;> decide)

theorem and_andNot_of_ne {m : Mask} (h : Registrable m) {d e : Event} (hde : d ≠ e) :
    m &&& ~~~e.bits &&& d.bits = m &&& d.bits := by
  cases d <;> cases e <;>
    first | exact (hde rfl).elim | (rcases h with rfl | rfl | rfl | rfl <;> decide)

theorem and_or_self {m : Mask} (h : Registrable m) {e : Event} (he : e ≠ .none) :
    (m ||| e.bits) &&& e.bits ≠ 0 := by
  cases e
  case none => exact (he rfl).elim
  all_goals rcases h with rfl | rfl | rfl | rfl <;> decide

theorem and_andNot_self {m : Mask} (h : Registrable m) (e : Event) :
    m &&& ~~~e.bits &&& e.bits = 0 := by
  cases e <;> rcases h with rfl | rfl | rfl | rfl <;> decide

theorem andNot_zero (m : Mask) : m &&& ~~~0 = m := by
  change m &&& ~~~0#32 = m
  rw [BitVec.not_zero, BitVec.and_allOnes]

/-- Clearing the two bits of `r` one after the other clears `r`. -/
theorem andNot_andNot {m r : Mask} (hm : Registrable m) (hr : Registrable r) :
    m &&& ~~~(if r &&& Event.read.bits ≠ 0 then Event.read.bits else 0) &&&
      ~~~(if r &&& Event.write.bits ≠ 0 then Event.write.bits else 0) = m &&& ~~~r := by
  rcases hm with rfl | rfl | rfl | rfl <;> rcases hr with rfl | rfl | rfl | rfl <;> decide

/-! ## Contexts -/

/-- `FdContext::EventContext`; a null pointer or empty function is `none`. -/
structure EventContext where
  scheduler : Option Nat
  fiber : Option FiberId
  cb : Option Cb
  deriving DecidableEq, Repr

def EventContext.empty : EventContext := ⟨none, none, none⟩

/-- What a set bit promises: a scheduler, and a fiber or a callback but not both. -/
def EventContext.Armed (x : EventContext) : Prop :=
  x.scheduler.isSome ∧ (x.fiber.isSome ↔ ¬ x.cb.isSome)

structure FdContext where
  read : EventContext
  write : EventContext
  fd : Nat
  events : Mask
  deriving DecidableEq, Repr

/-- `new FdContext` followed by the assignment of `fd`. -/
def FdContext.new (fd : Nat) : FdContext := ⟨.empty, .empty, fd, Event.none.bits⟩

/-- The assertions and undefined accesses an event operation can run into. -/
inductive Failure where
  /-- `SYLAR_ASSERT2(false, "getContext")` -/
  | getContext
  /-- `SYLAR_ASSERT(events & event)` in `triggerEvent` -/
  | triggerEvent
  /-- `ctx.scheduler->schedule` on a null scheduler -/
  | nullScheduler
  /-- an index outside `m_fdContexts` -/
  | fdContexts
  /-- `SYLAR_ASSERT(!(fd_ctx->events & event))` in `addEvent` -/
  | addEvent
  /-- the assertion of `addEvent` that the `EventContext` is empty -/
  | eventContext
  /-- `SYLAR_ASSERT2(event_ctx.fiber->getState() == Fiber::EXEC, ..)` -/
  | fiberState
  /-- `SYLAR_ASSERT(fd_ctx->events == 0)` in `cancelAll` -/
  | cancelAll
  deriving DecidableEq, Repr

def FdContext.getContext (c : FdContext) : Event → Option EventContext
  | .read => some c.read
  | .write => some c.write
  | .none => none

/-- Write through the reference that `getContext` returns. -/
def FdContext.setContext (c : FdContext) (x : EventContext) : Event → FdContext
  | .read => { c with read := x }
  | .write => { c with write := x }
  | .none => c

def resetContext (_ : EventContext) : EventContext := ⟨none, none, none⟩

/-- One `schedule` call: the scheduler it goes to and the entry. -/
structure Scheduled where
  scheduler : Nat
  task : FiberAndThread
  deriving DecidableEq, Repr

/-- `FdContext::triggerEvent`. The pointer overloads of `schedule` swap the
callback or the fiber out of the context. -/
def FdContext.triggerEvent (c : FdContext) (event : Event) :
    Except Failure (FdContext × Scheduled) :=
  if c.events &&& event.bits = 0 then .error .triggerEvent
  else
    let c := { c with events := c.events &&& ~~~event.bits }
    match c.getContext event with
    | none => .error .getContext
    | some ctx =>
        match ctx.scheduler with
        | none => .error .nullScheduler
        | some scheduler =>
            if ctx.cb.isSome then
              .ok (c.setContext { ctx with cb := none, scheduler := none } event,
                ⟨scheduler, ⟨none, ctx.cb, -1⟩⟩)
            else
              .ok (c.setContext { ctx with fiber := none, scheduler := none } event,
                ⟨scheduler, ⟨ctx.fiber, none, -1⟩⟩)

/-! ## Consistency of one context -/

def FdContext.Agrees (c : FdContext) (event : Event) : Prop :=
  ∀ x, c.getContext event = some x →
    (c.events &&& event.bits ≠ 0 ↔ x.Armed) ∧ (c.events &&& event.bits = 0 → x = .empty)

/-- Only `READ` and `WRITE` are ever set, and each bit agrees with its context. -/
structure FdContext.Consistent (c : FdContext) : Prop where
  registrable : Registrable c.events
  agrees : ∀ event, c.Agrees event

theorem EventContext.not_armed_empty : ¬ EventContext.empty.Armed := by
  simp [EventContext.empty, EventContext.Armed]

@[simp] theorem FdContext.setContext_events (c : FdContext) (x : EventContext) (e : Event) :
    (c.setContext x e).events = c.events := by cases e <;> rfl

@[simp] theorem FdContext.setContext_fd (c : FdContext) (x : EventContext) (e : Event) :
    (c.setContext x e).fd = c.fd := by cases e <;> rfl

theorem FdContext.getContext_setContext_ne (c : FdContext) (x : EventContext) {d e : Event}
    (hde : d ≠ e) : (c.setContext x e).getContext d = c.getContext d := by
  cases d <;> cases e <;> first | rfl | exact (hde rfl).elim

theorem FdContext.getContext_setContext_self (c : FdContext) (x : EventContext) {e : Event}
    (he : e ≠ .none) : (c.setContext x e).getContext e = some x := by
  cases e
  case none => exact (he rfl).elim
  all_goals rfl

theorem FdContext.consistent_new (fd : Nat) : (FdContext.new fd).Consistent := by
  refine ⟨.inl rfl, fun event x hx => ?_⟩
  have hz : (FdContext.new fd).events &&& event.bits = 0 := BitVec.zero_and
  have hempty : x = .empty := by
    cases event <;> simp_all [FdContext.new, FdContext.getContext]
  subst hempty
  exact ⟨⟨fun h => (h hz).elim, fun h => (EventContext.not_armed_empty h).elim⟩, fun _ => rfl⟩

theorem FdContext.Consistent.replace {c : FdContext} (h : c.Consistent) {e : Event} {m : Mask}
    {x : EventContext} (he : e ≠ .none) (hm : Registrable m)
    (hother : ∀ d, d ≠ e → m &&& d.bits = c.events &&& d.bits)
    (hx : (m &&& e.bits ≠ 0 ↔ x.Armed) ∧ (m &&& e.bits = 0 → x = .empty)) :
    ({ c with events := m }.setContext x e).Consistent := by
  refine ⟨by simpa using hm, fun d y hy => ?_⟩
  rw [FdContext.setContext_events]
  by_cases hde : d = e
  · subst hde
    rw [FdContext.getContext_setContext_self _ _ he, Option.some.injEq] at hy
    rw [← hy]
    exact hx
  · rw [FdContext.getContext_setContext_ne _ _ hde] at hy
    have hy' : c.getContext d = some y := by cases d <;> exact hy
    rw [hother d hde]
    exact h.agrees d y hy'

theorem FdContext.Consistent.armed {c : FdContext} (h : c.Consistent) {e : Event}
    (hset : c.events &&& e.bits ≠ 0) : ∃ x, c.getContext e = some x ∧ x.Armed := by
  cases e
  case none => exact (hset (BitVec.and_zero)).elim
  case read => exact ⟨c.read, rfl, ((h.agrees .read c.read rfl).1).mp hset⟩
  case write => exact ⟨c.write, rfl, ((h.agrees .write c.write rfl).1).mp hset⟩

/-- A consistent context fires every event whose bit is set: no assertion
fails, the bit is cleared and the `EventContext` is left empty. -/
theorem FdContext.Consistent.triggerEvent {c : FdContext} (h : c.Consistent) {e : Event}
    (hset : c.events &&& e.bits ≠ 0) :
    ∃ c' w, c.triggerEvent e = .ok (c', w) ∧ c'.Consistent ∧ c'.fd = c.fd ∧
      c'.events = c.events &&& ~~~e.bits ∧ w.task.nonEmpty ∧
      ∃ x, c.getContext e = some x ∧ x.scheduler = some w.scheduler ∧
        w.task = ⟨x.fiber, x.cb, -1⟩ := by
  obtain ⟨x, hx, ⟨hsched, hone⟩⟩ := h.armed hset
  obtain ⟨s, hs⟩ := Option.isSome_iff_exists.mp hsched
  have he : e ≠ .none := by
    rintro rfl
    exact hset BitVec.and_zero
  have hget : { c with events := c.events &&& ~~~e.bits }.getContext e = some x := by
    cases e <;> exact hx
  have hcons : ({ c with events := c.events &&& ~~~e.bits }.setContext .empty e).Consistent :=
    h.replace he (h.registrable.andNot e.registrable)
      (fun d hd => and_andNot_of_ne h.registrable hd)
      ⟨⟨fun hn => (hn (and_andNot_self h.registrable e)).elim,
        fun ha => (EventContext.not_armed_empty ha).elim⟩, fun _ => rfl⟩
  cases hcb : x.cb with
  | some cb =>
      -- with a callback there is no fiber, so the swap empties the context
      have hfiber : x.fiber = none := by
        cases hf : x.fiber with
        | none => rfl
        | some f => simp [hf, hcb] at hone
      refine ⟨_, ⟨s, ⟨none, some cb, -1⟩⟩, ?_, hcons, by simp, by simp, rfl, x, hx, hs, ?_⟩
      · rw [FdContext.triggerEvent, if_neg hset]
        simp [hget, hs, hcb, hfiber, EventContext.empty]
      · simp [hfiber, hcb]
  | none =>
      have hfiber : x.fiber.isSome := hone.mpr (by simp [hcb])
      refine ⟨_, ⟨s, ⟨x.fiber, none, -1⟩⟩, ?_, hcons, by simp, by simp, ?_, x, hx, hs, ?_⟩
      · rw [FdContext.triggerEvent, if_neg hset]
        simp [hget, hs, hcb, EventContext.empty]
      · simpa [FiberAndThread.nonEmpty] using hfiber
      · simp [hcb]

end Sylar.Epoll
