import Sylar.Collection.OrderedSet
import Sylar.Scheduler.Task

/-! # `Timer` and `TimerManager`

A `Timer` object is named by its address, on which the comparator breaks ties. The
set `m_timers` is the list of its elements in set order; the key of an element lives in the
heap and can be changed there while handles outside the set exist. Clock readings
are arguments, and `uint64_t` arithmetic is taken modulo `2 ^ 64`.
-/

namespace Sylar.Timers

open Collection

abbrev Addr := Nat

/-- `uint64_t` arithmetic. -/
abbrev u64 (n : Nat) : Nat := n % 2 ^ 64

/-- `m_next - m_ms` as a `uint64_t`. -/
abbrev u64Sub (a b : Nat) : Nat := (a + (2 ^ 64 - b % 2 ^ 64)) % 2 ^ 64

/-- The data members of a `Timer`; `cb = none` is an empty function. -/
structure Timer where
  recurring : Bool
  ms : Nat
  next : Nat
  cb : Option Cb
  deriving DecidableEq, Repr

/-- `Timer::Timer(ms, cb, recurring, manager)` at clock reading `now`. -/
def Timer.new (now ms : Nat) (cb : Option Cb) (recurring : Bool) : Timer :=
  ⟨recurring, ms, u64 (now + ms), cb⟩

/-- `Timer::Timer(next)`. -/
def Timer.at (next : Nat) : Timer := ⟨false, 0, next, none⟩

/-- `Timer::Comparator` on two pointers into a heap. -/
def comparator (heap : Addr → Timer) : Option Addr → Option Addr → Bool
  | none, none => false
  | none, some _ => true
  | some _, none => false
  | some lhs, some rhs =>
      if (heap lhs).next < (heap rhs).next then true
      else if (heap rhs).next < (heap lhs).next then false
      else decide (lhs < rhs)

/-- The comparator on the non-null pointers the set holds. -/
def before (heap : Addr → Timer) (lhs rhs : Addr) : Bool := comparator heap (some lhs) (some rhs)

/-- `heap` are the objects, `issued` the addresses in use, `timers` is `m_timers`. -/
structure TimerManager where
  heap : Addr → Timer
  issued : Addr → Bool
  timers : List Addr
  tickled : Bool
  previouseTime : Nat

/-- `TimerManager::TimerManager` at clock reading `now`. -/
def TimerManager.init (now : Nat) : TimerManager := ⟨fun _ => .at 0, fun _ => false, [], false, now⟩

/-- What an operation on the set must not do. -/
inductive Fault where
  /-- `m_timers.erase(m_timers.end())` -/
  | eraseEnd
  /-- `*m_timers.begin()` on an empty set -/
  | emptyBegin
  deriving DecidableEq, Repr

/-! ## Set operations -/

def TimerManager.find (m : TimerManager) (a : Addr) : Option Addr :=
  setFind (before m.heap) a m.timers

def TimerManager.erase (m : TimerManager) (a : Addr) : TimerManager :=
  { m with timers := m.timers.erase a }

def TimerManager.insert (m : TimerManager) (a : Addr) : TimerManager :=
  { m with timers := setInsert (before m.heap) a m.timers }

/-- Overwrite the object at `a`. -/
def TimerManager.store (m : TimerManager) (a : Addr) (t : Timer) : TimerManager :=
  { m with heap := Function.update m.heap a t }

/-! ## Insertion and notification -/

/-- The locked part of `TimerManager::addTimer(val, lock)`; the flag says that
`onTimerInsertedAtFront` follows the unlock. -/
def TimerManager.addTimerLocked (m : TimerManager) (a : Addr) : Bool × TimerManager :=
  let m := m.insert a
  let atFront := m.timers.head? = some a ∧ ¬ m.tickled
  (decide atFront, { m with tickled := if atFront then true else m.tickled })

/-- The object that `TimerManager::addTimer(ms, cb, recurring)` allocates before it takes the
lock. -/
def TimerManager.allocate (m : TimerManager) (a : Addr) (t : Timer) : TimerManager :=
  { m.store a t with issued := Function.update m.issued a true }

def TimerManager.addTimer (m : TimerManager) (now : Nat) (a : Addr) (ms : Nat) (cb : Option Cb)
    (recurring : Bool) : Bool × TimerManager :=
  (m.allocate a (.new now ms cb recurring)).addTimerLocked a

/-- `TimerManager::getNextTimer`; `~0ull` is `2 ^ 64 - 1`. -/
def TimerManager.getNextTimer (m : TimerManager) (now : Nat) : Nat × TimerManager :=
  let m := { m with tickled := false }
  match m.timers.head? with
  | none => (2 ^ 64 - 1, m)
  | some a => if (m.heap a).next ≤ now then (0, m) else ((m.heap a).next - now, m)

/-- A poll clears the flag and changes nothing else. -/
theorem getNextTimer_shared (m : TimerManager) (now : Nat) :
    (m.getNextTimer now).2 = { m with tickled := false } := by
  unfold TimerManager.getNextTimer
  dsimp only
  split
  · rfl
  · split <;> rfl

/-! ## Operations on a handle -/

def TimerManager.cancel (m : TimerManager) (a : Addr) : Except Fault (Bool × TimerManager) :=
  match (m.heap a).cb with
  | none => .ok (false, m)
  | some _ =>
      let m := m.store a { m.heap a with cb := none }
      match m.find a with
      | none => .error .eraseEnd
      | some it => .ok (true, m.erase it)

def TimerManager.refresh (m : TimerManager) (now : Nat) (a : Addr) : Bool × TimerManager :=
  match (m.heap a).cb with
  | none => (false, m)
  | some _ =>
      match m.find a with
      | none => (false, m)
      | some it =>
          let m := m.erase it
          let m := m.store a { m.heap a with next := u64 (now + (m.heap a).ms) }
          (true, m.insert a)

/-- The locked section of `Timer::reset`: the returned value, whether a notification
follows, and the manager. -/
def TimerManager.resetLocked (m : TimerManager) (now : Nat) (a : Addr) (ms : Nat)
    (fromNow : Bool) : Bool × Bool × TimerManager :=
  match (m.heap a).cb with
  | none => (false, false, m)
  | some _ =>
      match m.find a with
      | none => (false, false, m)
      | some it =>
          let m := m.erase it
          let start := if fromNow then now else u64Sub (m.heap a).next (m.heap a).ms
          let m := m.store a { m.heap a with ms := ms, next := u64 (start + ms) }
          let r := m.addTimerLocked a
          (true, r.1, r.2)

def TimerManager.reset (m : TimerManager) (now : Nat) (a : Addr) (ms : Nat) (fromNow : Bool) :
    Bool × Bool × TimerManager :=
  if ms = (m.heap a).ms ∧ ¬ fromNow then (true, false, m) else m.resetLocked now a ms fromNow

/-! ## Expiry -/

def TimerManager.detectClockRollover (m : TimerManager) (now : Nat) : Bool × TimerManager :=
  (decide (now < m.previouseTime ∧ now < u64Sub m.previouseTime (60 * 60 * 1000)),
    { m with previouseTime := now })

/-- `expired` and what stays in the set: the elements below the probe object at
address `probe`, then those with the same time; all of them after a rollover. -/
def TimerManager.splitExpired (m : TimerManager) (now : Nat) (probe : Addr) (rollover : Bool) :
    List Addr × List Addr :=
  let lower :=
    if rollover then m.timers
    else setBelow (before (Function.update m.heap probe (.at now))) probe m.timers
  let upper := m.timers.drop lower.length
  (lower ++ upper.takeWhile fun a => (m.heap a).next = now,
    upper.dropWhile fun a => (m.heap a).next = now)

/-- The loop over `expired`: hand out each callback, re-insert a recurring timer
and clear the callback of any other. -/
def TimerManager.handOut (m : TimerManager) (now : Nat) :
    List Addr → TimerManager × List (Option Cb)
  | [] => (m, [])
  | a :: as =>
      let t := m.heap a
      let m :=
        if t.recurring then (m.store a { t with next := u64 (now + t.ms) }).insert a
        else m.store a { t with cb := none }
      let r := m.handOut now as
      (r.1, t.cb :: r.2)

/-- The write-locked section of `TimerManager::listExpiredCb`: the timers taken
from the set, the callbacks handed out and the manager afterwards. -/
def TimerManager.takeExpired (m : TimerManager) (now : Nat) (probe : Addr) :
    Except Fault (List Addr × List (Option Cb) × TimerManager) :=
  let (rollover, m) := m.detectClockRollover now
  let due := if rollover then some true else m.timers.head?.map fun a => (m.heap a).next ≤ now
  match due with
  | none => .error .emptyBegin
  | some false => .ok ([], [], m)
  | some true =>
      let (expired, rest) := m.splitExpired now probe rollover
      let r := { m with timers := rest }.handOut now expired
      .ok (expired, r.2, r.1)

/-- `TimerManager::listExpiredCb` as one step: an empty set returns at once. -/
def TimerManager.listExpiredCb (m : TimerManager) (now : Nat) (probe : Addr) :
    Except Fault (List Addr × List (Option Cb) × TimerManager) :=
  if m.timers = [] then .ok ([], [], m) else m.takeExpired now probe

end Sylar.Timers
