import Sylar.Hook.SocketTimeout
import Sylar.Timer.Manager

/-! # `sleep`, `usleep` and `nanosleep`

The hooks add a timer that schedules the calling fiber. Each converts its argument to
milliseconds in the type of the expression that the source passes to `addTimer`: `unsigned int`,
`useconds_t`, and an `int` that is widened.
-/

namespace Sylar.Hook

open Timers

/-! ## The delays -/

/-- A valid `struct timespec`. -/
structure Timespec where
  sec : Nat
  nsec : Nat
  nsec_lt : nsec < 10 ^ 9
  deriving DecidableEq, Repr

/-- `seconds * 1000`. -/
def sleepDelay (seconds : UInt32) : Nat := (seconds * 1000).toNat

/-- `usec / 1000`. -/
def usleepDelay (usec : UInt32) : Nat := (usec / 1000).toNat

/-- `req->tv_sec * 1000 + req->tv_nsec / 1000 / 1000`. -/
def Timespec.toMs (req : Timespec) : Nat := req.sec * 1000 + req.nsec / 1000 / 1000

/-- `int timeout_ms`, as a `uint64_t`; `none` is the overflow of the sum as a `long`. -/
def nanosleepDelay (req : Timespec) : Option Nat :=
  if req.toMs < 2 ^ 63 then some (toUInt64 (Int.bmod req.toMs (2 ^ 32))) else none

/-! ## The calls -/

inductive SleepCall where
  | sleep (seconds : UInt32)
  | usleep (usec : UInt32)
  | nanosleep (req : Timespec)
  deriving DecidableEq, Repr

/-- What reaches `addTimer`. -/
def SleepCall.delay : SleepCall → Option Nat
  | .sleep seconds => some (sleepDelay seconds)
  | .usleep usec => some (usleepDelay usec)
  | .nanosleep req => nanosleepDelay req

def SleepCall.nanos : SleepCall → Nat
  | .sleep seconds => seconds.toNat * 10 ^ 9
  | .usleep usec => usec.toNat * 1000
  | .nanosleep req => req.sec * 10 ^ 9 + req.nsec

/-- The manager after the call's `addTimer`; `cb` schedules the fiber. -/
def SleepCall.arm (call : SleepCall) (m : TimerManager) (now : Nat) (a : Addr) (cb : Cb) :
    Option TimerManager :=
  call.delay.map fun ms => (m.addTimer now a ms (some cb) false).2

/-- The delay is no shorter than asked for, and the deadline has not wrapped. -/
def SleepCall.Lasts (call : SleepCall) (m : TimerManager) (now : Nat) (a : Addr) (cb : Cb) :
    Prop :=
  ∃ ms m', call.delay = some ms ∧ call.arm m now a cb = some m' ∧ call.nanos ≤ ms * 10 ^ 6 ∧
    (m'.heap a).ms = ms ∧ (m'.heap a).next = now + ms

/-- The conversion keeps the whole time; or the `int` is negative, and a clock that shows less
than 25 days does not wrap. -/
def SleepCall.Keeps (now : Nat) : SleepCall → Prop
  | .sleep seconds => seconds.toNat * 1000 < 2 ^ 32
  | .usleep usec => 1000 ∣ usec.toNat
  | .nanosleep req =>
      10 ^ 6 ∣ req.nsec ∧ req.toMs < 2 ^ 31 ∨
        req.toMs < 2 ^ 63 ∧ 2 ^ 31 ≤ req.toMs % 2 ^ 32 ∧ now + req.toMs % 2 ^ 32 < 2 ^ 32

/-! ## The timer -/

theorem addTimer_heap (m : TimerManager) (now : Nat) (a : Addr) (ms : Nat) (cb : Option Cb)
    (recurring : Bool) :
    (m.addTimer now a ms cb recurring).2.heap a = .new now ms cb recurring :=
  Function.update_self _ _ _

/-- A delay is kept if it is long enough and the sum stays below `2 ^ 64`. -/
theorem SleepCall.lasts_iff {call : SleepCall} {ms : Nat} (hdelay : call.delay = some ms)
    (m : TimerManager) (now : Nat) (a : Addr) (cb : Cb) :
    call.Lasts m now a cb ↔ call.nanos ≤ ms * 10 ^ 6 ∧ now + ms < 2 ^ 64 := by
  have harm : call.arm m now a cb = some (m.addTimer now a ms (some cb) false).2 := by
    rw [arm, hdelay, Option.map_some]
  constructor
  · rintro ⟨ms', m', hdelay', harm', hlong, -, hnext⟩
    cases hdelay.symm.trans hdelay'
    cases harm.symm.trans harm'
    rw [addTimer_heap] at hnext
    refine ⟨hlong, ?_⟩
    simp only [Timer.new, u64] at hnext
    omega
  · rintro ⟨hlong, hfits⟩
    refine ⟨ms, _, hdelay, harm, hlong, ?_, ?_⟩
    · rw [addTimer_heap]
      rfl
    · rw [addTimer_heap]
      exact Nat.mod_eq_of_lt hfits

theorem sleepDelay_eq (seconds : UInt32) : sleepDelay seconds = seconds.toNat * 1000 % 2 ^ 32 := by
  rw [sleepDelay, UInt32.toNat_mul]
  rfl

theorem usleepDelay_eq (usec : UInt32) : usleepDelay usec = usec.toNat / 1000 := by
  rw [usleepDelay, UInt32.toNat_div]
  rfl

/-- The `int` keeps the low 32 bits, and a set sign bit is extended. -/
theorem nanosleepDelay_eq {req : Timespec} (h : req.toMs < 2 ^ 63) :
    nanosleepDelay req =
      some (if req.toMs % 2 ^ 32 < 2 ^ 31 then req.toMs % 2 ^ 32
        else 2 ^ 64 - 2 ^ 32 + req.toMs % 2 ^ 32) := by
  have hbmod := Int.bmod_def req.toMs (2 ^ 32)
  have hcast := toUInt64_cast (Int.bmod req.toMs (2 ^ 32))
  rw [nanosleepDelay, if_pos h, Option.some.injEq]
  split at hbmod <;> split <;> omega

/-! ## Every argument -/

/-- A hooked sleep lasts exactly if its conversion keeps the time. -/
theorem sleep_lasts_iff (m : TimerManager) (now : Nat) (a : Addr) (cb : Cb) (call : SleepCall)
    (hfits : now * 10 ^ 6 + call.nanos < 2 ^ 64 * 10 ^ 6) :
    call.Lasts m now a cb ↔ call.Keeps now := by
  cases call with
  | sleep seconds =>
      rw [SleepCall.lasts_iff rfl, sleepDelay_eq]
      simp only [SleepCall.nanos, SleepCall.Keeps] at hfits ⊢
      omega
  | usleep usec =>
      rw [SleepCall.lasts_iff rfl, usleepDelay_eq]
      simp only [SleepCall.nanos, SleepCall.Keeps] at hfits ⊢
      omega
  | nanosleep req =>
      by_cases hlong : req.toMs < 2 ^ 63
      · have hdelay : (SleepCall.nanosleep req).delay = _ := nanosleepDelay_eq hlong
        rw [SleepCall.lasts_iff hdelay]
        have hms : req.toMs = req.sec * 1000 + req.nsec / 1000 / 1000 := rfl
        simp only [SleepCall.nanos, SleepCall.Keeps] at hfits ⊢
        split <;> omega
      · have hnone : nanosleepDelay req = none := if_neg hlong
        constructor
        · rintro ⟨ms, _, hdelay, _⟩
          cases hnone.symm.trans hdelay
        · rintro (⟨-, hshort⟩ | ⟨hshort, -⟩) <;> omega

/-- A second and a half on a clock of the year 2023. -/
theorem sleep_lasts_iff_sample :
    (SleepCall.nanosleep ⟨1, 500000000, by decide⟩).Lasts (.init 0) 1700000000000 7 1 :=
  (sleep_lasts_iff (.init 0) 1700000000000 7 1 (.nanosleep ⟨1, 500000000, by decide⟩)
    (by decide)).mpr (.inl ⟨by decide, by decide⟩)

/-- 4294968 seconds wrap to 704 milliseconds, 999 microseconds are none, and the deadline of
2147484 seconds from now lies in the past. -/
theorem sleep_cut_short :
    (SleepCall.sleep 4294968).delay = some 704 ∧
      ¬ (SleepCall.sleep 4294968).Lasts (.init 0) 1700000000000 7 1 ∧
      (SleepCall.usleep 999).delay = some 0 ∧
      ¬ (SleepCall.usleep 999).Lasts (.init 0) 1700000000000 7 1 ∧
      ((SleepCall.nanosleep ⟨2147484, 0, by decide⟩).arm (.init 0) 1700000000000 7 1).map
        (fun m => (m.heap 7).next) = some 1697852516704 ∧
      ¬ (SleepCall.nanosleep ⟨2147484, 0, by decide⟩).Lasts (.init 0) 1700000000000 7 1 := by
  have hsleep : (SleepCall.sleep 4294968).delay = some 704 := by decide
  have husleep : (SleepCall.usleep 999).delay = some 0 := by decide
  have hnanosleep : (SleepCall.nanosleep ⟨2147484, 0, by decide⟩).delay =
      some 18446744071562068320 := by decide
  refine ⟨hsleep, ?_, husleep, ?_, by decide, ?_⟩
  · rw [SleepCall.lasts_iff hsleep]
    decide
  · rw [SleepCall.lasts_iff husleep]
    decide
  · rw [SleepCall.lasts_iff hnanosleep]
    decide

end Sylar.Hook
