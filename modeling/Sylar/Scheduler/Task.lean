import Mathlib

/-! # What a scheduler queues

`Fiber::State`, the queue entry `Scheduler::FiberAndThread` and the `size_t`
counters the components share. Fibers are named by their `m_id`; a
`std::function` is named by a number, since the code only tests it for emptiness.
-/

namespace Sylar

/-- `Fiber::State`. -/
inductive FiberState where
  | init | hold | exec | term | ready | except
  deriving DecidableEq, Repr

abbrev FiberId := Nat

abbrev Cb := Nat

/-- `Scheduler::FiberAndThread`: `fiber` and `cb` are null when `none`, and the
thread is `-1` for an entry that any worker may take. -/
structure FiberAndThread where
  fiber : Option FiberId
  cb : Option Cb
  thread : Int
  deriving DecidableEq, Repr

/-- The default constructor, and what `FiberAndThread::reset` leaves. -/
def FiberAndThread.reset : FiberAndThread := ⟨none, none, -1⟩

/-- What `schedule` is called with: a `Fiber::ptr` or a `std::function`, either of
which may be null. -/
inductive Task where
  | fiber (f : Option FiberId)
  | callback (cb : Option Cb)
  deriving DecidableEq, Repr

/-- `FiberAndThread(fc, thread)`. -/
def Task.entry : Task → Int → FiberAndThread
  | .fiber f, thread => ⟨f, none, thread⟩
  | .callback cb, thread => ⟨none, cb, thread⟩

/-- `ft.fiber || ft.cb`, the test of `schedulerNoLock` and of the scan's assertion. -/
def FiberAndThread.nonEmpty (ft : FiberAndThread) : Bool := ft.fiber.isSome || ft.cb.isSome

/-- `--count` on a `std::atomic<size_t>`: zero wraps around. -/
def sizeDec (count : Nat) : Nat := if count = 0 then 2 ^ 64 - 1 else count - 1

@[simp] theorem sizeDec_succ (count : Nat) : sizeDec (count + 1) = count := by simp [sizeDec]

end Sylar
