import Sylar.Wakeup.Poller

/-! # The calls of `epoll_wait` in one round of `idle`

`next_timeout` is computed once, from `getNextTimer`, and the loop over `EINTR` caps it again
before each call. The clock advances inside `epoll_wait` only: the arguments are the reading
of `getNextTimer` and the time that each interrupted call took.
-/

namespace Sylar.Wakeup

open Timers

/-! ## The loop -/

/-- `(int)next_timeout`. -/
def toInt (timeout : Nat) : Int := Int.bmod timeout (2 ^ 32)

/-- `next_timeout` as it is assigned before each call. -/
def capTimeout (timeout : Nat) : Nat :=
  if timeout ≠ 2 ^ 64 - 1 then if toInt timeout > 3000 then 3000 else timeout else 3000

/-- A call of `epoll_wait`: the clock at the call, and its last argument. -/
structure EpollWait where
  clock : Nat
  timeout : Int
  deriving DecidableEq, Repr

/-- `do .. while(true)`; each entry of `elapsed` is a call that fails with `EINTR`. -/
def epollWaits (clock timeout : Nat) : List Nat → List EpollWait
  | [] => [⟨clock, toInt (capTimeout timeout)⟩]
  | ms :: elapsed =>
      ⟨clock, toInt (capTimeout timeout)⟩ :: epollWaits (clock + ms) (capTimeout timeout) elapsed

/-- The calls in one round of `while(true)`; `quiet` says that no event is pending and that
`Scheduler::stopping` holds. -/
def idleWaits (m : TimerManager) (now : Nat) (quiet : Bool) (elapsed : List Nat) :
    List EpollWait :=
  let timeout := (m.getNextTimer now).1
  if timeout = 2 ^ 64 - 1 ∧ quiet then [] else epollWaits now timeout elapsed

/-- The worker that polls waits no longer than the first call of its round. -/
theorem epollTimeout_eq (timeout : Nat) : epollTimeout timeout = toInt (capTimeout timeout) := by
  unfold epollTimeout capTimeout toInt
  split
  · split
    · decide
    · rfl
  · decide

/-! ## One argument -/

/-- The argument when the delay fits: no more than the cap, and no more than the delay. -/
def capped (timeout : Nat) : Nat :=
  if timeout = 2 ^ 64 - 1 then 3000 else min (timeout % 2 ^ 32) 3000

/-- The cast of the delay to `int` is not negative, or there is no delay to cast. -/
def Fits (timeout : Nat) : Prop := timeout = 2 ^ 64 - 1 ∨ timeout % 2 ^ 32 < 2 ^ 31

instance (timeout : Nat) : Decidable (Fits timeout) := inferInstanceAs (Decidable (_ ∨ _))

theorem toInt_of_low {timeout : Nat} (h : timeout % 2 ^ 32 < 2 ^ 31) :
    toInt timeout = (timeout % 2 ^ 32 : Nat) := by
  have hbmod := Int.bmod_def timeout (2 ^ 32)
  unfold toInt
  split at hbmod <;> omega

theorem toInt_of_high {timeout : Nat} (h : ¬ timeout % 2 ^ 32 < 2 ^ 31) : toInt timeout < 0 := by
  have hbmod := Int.bmod_def timeout (2 ^ 32)
  unfold toInt
  split at hbmod <;> omega

theorem capTimeout_of_fits {timeout : Nat} (h : Fits timeout) :
    toInt (capTimeout timeout) = capped timeout := by
  unfold capTimeout capped
  by_cases hnone : timeout = 2 ^ 64 - 1
  · rw [if_neg (not_not.mpr hnone), if_pos hnone]
    decide
  · have hlow := h.resolve_left hnone
    rw [if_pos hnone, if_neg hnone, toInt_of_low hlow]
    split
    · have hcap : toInt 3000 = 3000 := by decide
      omega
    · rw [toInt_of_low hlow]
      omega

/-- A delay that does not fit passes the cap and is negative. -/
theorem capTimeout_of_not_fits {timeout : Nat} (h : ¬ Fits timeout) :
    toInt (capTimeout timeout) < 0 := by
  obtain ⟨hnone, hhigh⟩ := not_or.mp h
  have hneg := toInt_of_high hhigh
  rw [capTimeout, if_pos hnone, if_neg (by omega)]
  exact hneg

/-- Capping again changes nothing, unless the delay was taken for none. -/
theorem capTimeout_capTimeout (timeout : Nat) :
    capTimeout (capTimeout timeout) = capTimeout timeout := by
  have hcap : capTimeout 3000 = 3000 := by decide
  by_cases hnone : timeout = 2 ^ 64 - 1
  · subst hnone
    decide
  · by_cases hlarge : toInt timeout > 3000
    · have hfirst : capTimeout timeout = 3000 := by rw [capTimeout, if_pos hnone, if_pos hlarge]
      rw [hfirst, hcap]
    · have hfirst : capTimeout timeout = timeout := by
        rw [capTimeout, if_pos hnone, if_neg hlarge]
      rw [hfirst, hfirst]

/-! ## All calls -/

/-- Every call has the argument of the first, at a clock that has advanced by the interrupted
calls before it. -/
theorem mem_epollWaits {clock timeout : Nat} {elapsed : List Nat} {w : EpollWait}
    (hw : w ∈ epollWaits clock timeout elapsed) :
    w.timeout = toInt (capTimeout timeout) ∧ clock ≤ w.clock ∧ w.clock ≤ clock + elapsed.sum := by
  induction elapsed generalizing clock timeout with
  | nil =>
      rw [List.mem_singleton.mp hw]
      simp
  | cons ms elapsed ih =>
      rw [List.sum_cons]
      rcases List.mem_cons.mp hw with hw | hw
      · rw [hw]
        simp
      · obtain ⟨htimeout, hle, hge⟩ := ih hw
        rw [capTimeout_capTimeout] at htimeout
        exact ⟨htimeout, by omega, by omega⟩

/-- The last call comes after all interrupted ones. -/
theorem last_mem_epollWaits (clock timeout : Nat) (elapsed : List Nat) :
    ⟨clock + elapsed.sum, toInt (capTimeout timeout)⟩ ∈ epollWaits clock timeout elapsed := by
  induction elapsed generalizing clock timeout with
  | nil => exact List.mem_singleton_self _
  | cons ms elapsed ih =>
      have hlast := ih (clock + ms) (capTimeout timeout)
      rw [capTimeout_capTimeout, Nat.add_assoc, ← List.sum_cons] at hlast
      exact List.mem_cons_of_mem _ hlast

/-- A limited wait that ends no later than the earliest timer, or at once. -/
structure EpollWait.Bounded (w : EpollWait) (m : TimerManager) : Prop where
  nonneg : 0 ≤ w.timeout
  le_max : w.timeout ≤ 3000
  in_time : ∀ a, m.timers.head? = some a →
    (w.clock : Int) + w.timeout ≤ max w.clock (m.heap a).next

/-- The interrupted calls leave the argument of the next one until the earliest timer. -/
def Spare (m : TimerManager) (now : Nat) (elapsed : List Nat) : Prop :=
  ∀ a ∈ m.timers.head?, capped (m.getNextTimer now).1 = 0 ∨
    now + elapsed.sum + capped (m.getNextTimer now).1 ≤ (m.heap a).next

instance (m : TimerManager) (now : Nat) (elapsed : List Nat) : Decidable (Spare m now elapsed) :=
  inferInstanceAs (Decidable (∀ a ∈ m.timers.head?, _))

/-- `idle` never waits without limit or past the earliest timer exactly if the delay survives
its cast and the interrupted calls leave room for another one. -/
theorem idleWaits_bounded_iff (m : TimerManager) (now : Nat) (quiet : Bool) (elapsed : List Nat) :
    (∀ w ∈ idleWaits m now quiet elapsed, w.Bounded m) ↔
      (m.getNextTimer now).1 = 2 ^ 64 - 1 ∧ quiet = true ∨
        Fits (m.getNextTimer now).1 ∧ Spare m now elapsed := by
  unfold idleWaits
  dsimp only
  generalize htimeout : (m.getNextTimer now).1 = timeout
  by_cases hstop : timeout = 2 ^ 64 - 1 ∧ quiet = true
  · rw [if_pos hstop]
    exact ⟨fun _ => .inl hstop, fun _ w hw => absurd hw List.not_mem_nil⟩
  rw [if_neg hstop, or_iff_right hstop]
  unfold Spare
  rw [htimeout]
  constructor
  · intro h
    have hlast := h _ (last_mem_epollWaits now timeout elapsed)
    have hfits : Fits timeout := by
      by_contra hbad
      have hneg := capTimeout_of_not_fits hbad
      have hnonneg := hlast.nonneg
      dsimp only at hnonneg
      omega
    refine ⟨hfits, fun a ha => ?_⟩
    have hin := hlast.in_time a ha
    dsimp only at hin
    rw [capTimeout_of_fits hfits] at hin
    omega
  · rintro ⟨hfits, hspare⟩ w hw
    obtain ⟨hval, hle, hge⟩ := mem_epollWaits hw
    rw [capTimeout_of_fits hfits] at hval
    refine ⟨by omega, ?_, fun a ha => ?_⟩
    · have hcap : capped timeout ≤ 3000 := by
        unfold capped
        split <;> omega
      omega
    · rcases hspare a ha with hzero | hroom <;> omega

/-- A set with one timer, due at `next`. -/
def singleTimer (next : Nat) : TimerManager :=
  ((TimerManager.init 0).addTimer 0 7 next (some 1) false).2

/-- A timer in 25 days makes the argument negative, and a signal in the middle of the wait for
a timer makes the second call as long as the first. -/
theorem idleWaits_negative_and_late :
    idleWaits (singleTimer (2 ^ 31)) 0 false [] = [⟨0, -2 ^ 31⟩] ∧
      (¬ ∀ w ∈ idleWaits (singleTimer (2 ^ 31)) 0 false [], w.Bounded (singleTimer (2 ^ 31))) ∧
      idleWaits (singleTimer 1000) 0 false [500] = [⟨0, 1000⟩, ⟨500, 1000⟩] ∧
      ¬ ∀ w ∈ idleWaits (singleTimer 1000) 0 false [500], w.Bounded (singleTimer 1000) := by
  have hneg : idleWaits (singleTimer (2 ^ 31)) 0 false [] = [⟨0, -2 ^ 31⟩] := by decide
  have hlate : idleWaits (singleTimer 1000) 0 false [500] = [⟨0, 1000⟩, ⟨500, 1000⟩] := by decide
  refine ⟨hneg, fun h => ?_, hlate, fun h => ?_⟩
  · have hw := (h ⟨0, -2 ^ 31⟩ (hneg ▸ List.mem_singleton_self _)).nonneg
    exact absurd hw (by decide)
  · have hw := (h ⟨500, 1000⟩ (hlate ▸ by simp)).in_time 7 rfl
    exact absurd hw (by decide)

end Sylar.Wakeup
