import Sylar.Hook.GetThis
import Sylar.Hook.Timeout

/-! # What `connect` returns

`connect_with_timeout` to its return, beside other calls, timers, reports and closes. After the
wait the code no longer knows what ended it: only a timeout leaves a trace, in `tinfo`. The record
kept here beside the run says what queued each entry for a fiber and how the wait of a call ended.
-/

namespace Sylar.Connect

open Transition Epoll Timeout
open Hook (FdCtx waitable)

variable {n : Nat}

/-! ## The record -/

/-- What queued an entry for a fiber. -/
inductive Cause where
  /-- a report for the event that the fiber waited for -/
  | report (fd : Nat) (event : Event)
  /-- `cancelEvent` in the callback of a condition timer -/
  | callback (closure : Closure)
  /-- `cancelAll` in `close` -/
  | close (fd : Nat)
  deriving DecidableEq, Repr

/-- `connect_f` returns 0, or -1 with `EINPROGRESS` or another error (also for `EBADF` without a
call of it). -/
inductive Answer where
  | connected | inProgress | failed
  deriving DecidableEq, Repr

/-- How a call came to `getsockopt`. -/
inductive Wait where
  /-- `addEvent` did not return 0 -/
  | refused
  /-- the fiber was resumed, by an entry with this cause -/
  | resumed (cause : Option Cause)
  deriving DecidableEq, Repr

/-- A return of `connect_with_timeout`; `sockError` is what a successful `getsockopt` stored. -/
structure Returned where
  fd : Nat
  answer : Answer
  wait : Option Wait
  sockError : Option Nat
  ret : Int
  deriving DecidableEq, Repr

/-- `entries` are the causes of the entries of a fiber in `m_fibers`, `woken` that of the entry
it was resumed by, and `checking` the fibers that have `getsockopt` to call. -/
structure Recorded (n : Nat) where
  sys : Timeout.State n
  entries : Fin n → List Cause
  woken : Fin n → Option Cause
  checking : Fin n → Option (Nat × Wait)
  returned : List Returned

def Recorded.init (n now : Nat) : Recorded n where
  sys := .init n now
  entries := fun _ => []
  woken := fun _ => none
  checking := fun _ => none
  returned := []

/-- The entries that an operation has queued. -/
def Recorded.schedule (s : Recorded n) (t : Timeout.State n) (cause : Fin n → Cause) :
    Recorded n :=
  { s with
    sys := t
    entries := fun f =>
      s.entries f ++ List.replicate (t.queued f - s.sys.queued f) (cause f) }

/-- A report that wakes fiber `f`. -/
def Recorded.reportFor (s : Recorded n) (fd : Nat) (f : Fin n) : Cause :=
  .report fd (if s.sys.iom.fiberAt fd .write = some (f : Nat) then .write else .read)

/-- An access of a fiber in its call; the state after it is `t`. -/
def Recorded.access (s : Recorded n) (t : Timeout.State n) (f : Fin n) (call : Call) :
    Access → Recorded n
  | .resume =>
      { s with
        sys := t
        entries := Function.update s.entries f (s.entries f).tail
        woken := Function.update s.woken f (s.entries f).head? }
  | .cancelTimer =>
      if call.pc = .failed ∧ call.routine = .connectWithTimeout then
        { s with
          sys := t
          checking := Function.update s.checking f (some (call.fd, .refused)) }
      else { s with sys := t }
  | .test =>
      if call.routine = .connectWithTimeout then
        if s.sys.cancelled call.tinfo then
          { s with
            sys := t
            returned := s.returned ++
              [⟨call.fd, .inProgress, some (.resumed (s.woken f)), none, -1⟩] }
        else
          { s with
            sys := t
            checking := Function.update s.checking f (some (call.fd, .resumed (s.woken f))) }
      else { s with sys := t }
  | _ => { s with sys := t }

def Recorded.next (s : Recorded n) (t : Timeout.State n) : Timeout.Action n → Recorded n
  | .fiber f access =>
      match s.sys.calls f with
      | some call => s.access t f call access
      | none => { s with sys := t }
  | .job job _ => s.schedule t fun _ => .callback job.closure
  | .dispatch fd _ _ => s.schedule t (s.reportFor fd)
  | .cancelAll fd _ => s.schedule t fun _ => .close fd
  | _ => { s with sys := t }

/-! ## Steps -/

inductive Action (n : Nat) where
  | sys (a : Timeout.Action n)
  /-- the tests of `connect_with_timeout`; `answer` is that of `connect_f` if the call does not
  wait -/
  | connect (f : Fin n) (hookEnable : Bool) (ctx : Option FdCtx) (fd timeout : Nat)
    (answer : Answer)
  | connectF (f : Fin n) (answer : Answer)
  /-- `getsockopt(fd, SOL_SOCKET, SO_ERROR, ..)`, without a value if it fails -/
  | getsockopt (f : Fin n) (error : Option Nat)
  /-- `close_f` -/
  | closeF (fd : Nat)

/-- `connect_with_timeout` and `connect_f` have actions of their own, and a call ends with
`getsockopt`. -/
def Recorded.Shares (s : Recorded n) : Timeout.Action n → Prop
  | .begin f routine _ _ => s.checking f = none ∧ routine ≠ .connectWithTimeout
  | .fiber f (.issue _) => (s.sys.calls f).map Call.routine ≠ some .connectWithTimeout
  | _ => True

instance (s : Recorded n) : (a : Timeout.Action n) → Decidable (s.Shares a)
  | .begin f routine _ _ =>
      inferInstanceAs (Decidable (s.checking f = none ∧ routine ≠ .connectWithTimeout))
  | .fiber f (.issue _) =>
      inferInstanceAs (Decidable ((s.sys.calls f).map Call.routine ≠ some .connectWithTimeout))
  | .fiber _ (.arm _ _) => isTrue trivial
  | .fiber _ (.register _) => isTrue trivial
  | .fiber _ .yield => isTrue trivial
  | .fiber _ .resume => isTrue trivial
  | .fiber _ .cancelTimer => isTrue trivial
  | .fiber _ .test => isTrue trivial
  | .expire _ _ => isTrue trivial
  | .job _ _ => isTrue trivial
  | .dispatch _ _ _ => isTrue trivial
  | .cancelAll _ _ => isTrue trivial
  | .addTimer _ _ _ _ => isTrue trivial

/-- What a call that cannot wait returns: `EBADF`, or the result of `connect_f`. -/
def answered (hookEnable : Bool) (ctx : Option FdCtx) (fd : Nat) (answer : Answer) : Returned :=
  if hookEnable ∧ ctx.all FdCtx.isClosed then ⟨fd, .failed, none, none, -1⟩
  else ⟨fd, answer, none, none, if answer = .connected then 0 else -1⟩

/-- `if (n == 0) return 0; else if (n != -1 || errno != EINPROGRESS) return n;` -/
def settled (fd : Nat) : Answer → List Returned
  | .connected => [⟨fd, .connected, none, none, 0⟩]
  | .inProgress => []
  | .failed => [⟨fd, .failed, none, none, -1⟩]

def op (s : Recorded n) : Action n → Option (Except Failed (Recorded n))
  | .sys a =>
      if s.Shares a then (Timeout.op s.sys a).map fun r => r.map fun t => s.next t a else none
  | .connect f hookEnable ctx fd timeout answer =>
      if s.sys.calls f = none ∧ s.checking f = none then
        if hookEnable ∧ (waitable ctx).isSome then
          some (.ok { s with sys := s.sys.begin f .connectWithTimeout fd timeout })
        else
          some (.ok { s with returned := s.returned ++ [answered hookEnable ctx fd answer] })
      else none
  | .connectF f answer =>
      (s.sys.calls f).bind fun call =>
        if call.routine = .connectWithTimeout then
          (s.sys.access f call (.issue (decide (answer = .inProgress)))).map fun r => r.map fun t =>
            { s with sys := t, returned := s.returned ++ settled call.fd answer }
        else none
  | .getsockopt f error =>
      (s.checking f).map fun check =>
        .ok { s with
          checking := Function.update s.checking f none
          returned := s.returned ++ [⟨check.1, .inProgress, some check.2, error,
            if error = some 0 then 0 else -1⟩] }
  | .closeF fd => some (.ok { s with sys := { s.sys with iom := s.sys.iom.closeFd fd } })

def step : Except Failed (Recorded n) → Action n → Option (Except Failed (Recorded n)) :=
  abortable op

/-! ## The defect -/

/-- `connect_f` succeeded, or `WRITE` was reported on the socket and `SO_ERROR` was 0 then. -/
def Returned.Established (r : Returned) : Prop :=
  r.answer = .connected ∨
    r.wait = some (.resumed (some (.report r.fd .write))) ∧ r.sockError = some 0

/-- Only an established connection is reported as one, and anything else as -1. -/
def Returned.Truthful (r : Returned) : Prop := r.ret = 0 ∧ r.Established ∨ r.ret = -1

instance (r : Returned) : Decidable r.Established := inferInstanceAs (Decidable (_ ∨ _ ∧ _))

instance (r : Returned) : Decidable r.Truthful := inferInstanceAs (Decidable (_ ∧ _ ∨ _))

/-- `connect_with_timeout` with hooks, on a socket that may block. -/
def connectOn (f : Fin 2) (fd timeout : Nat) : Action 2 :=
  .connect f true (some (.new fd (some 1))) fd timeout .inProgress

/-- `epoll_ctl` refuses the event, and the connection is still in progress. -/
def refusedRun : List (Action 2) :=
  [connectOn 0 5 10, .connectF 0 .inProgress, .sys (.fiber 0 (.arm 0 7)),
    .sys (.fiber 0 (.register false)), .sys (.fiber 0 .cancelTimer), .getsockopt 0 (some 0)]

def closedRun : List (Action 2) :=
  [connectOn 0 5 10, .connectF 0 .inProgress, .sys (.fiber 0 (.arm 0 7)),
    .sys (.fiber 0 (.register true)), .sys (.fiber 0 .yield), .sys (.cancelAll 5 true),
    .sys (.fiber 0 .resume), .sys (.fiber 0 .cancelTimer), .sys (.fiber 0 .test),
    .getsockopt 0 (some 0)]

/-- The callback of an earlier call calls `cancelEvent` for its event when `connect` waits. -/
def lateRun : List (Action 2) :=
  [.sys (.begin 1 (.doIo true) 5 10), .sys (.fiber 1 (.issue true)), .sys (.fiber 1 (.arm 0 7)),
    .sys (.fiber 1 (.register true)), .sys (.fiber 1 .yield), .sys (.expire 10 8),
    .sys (.job ⟨⟨1, 5, .write⟩, .lock⟩ true), .sys (.job ⟨⟨1, 5, .write⟩, .test⟩ true),
    .sys (.job ⟨⟨1, 5, .write⟩, .set⟩ true), .sys (.dispatch 5 epollOut true),
    .sys (.fiber 1 .resume), .sys (.fiber 1 .cancelTimer), .sys (.fiber 1 .test),
    connectOn 0 5 10, .connectF 0 .inProgress, .sys (.fiber 0 (.arm 0 9)),
    .sys (.fiber 0 (.register true)), .sys (.fiber 0 .yield),
    .sys (.job ⟨⟨1, 5, .write⟩, .cancel⟩ true), .sys (.fiber 0 .resume),
    .sys (.fiber 0 .cancelTimer), .sys (.fiber 0 .test), .getsockopt 0 (some 0)]

def inProgress (wait : Wait) : Returned := ⟨5, .inProgress, some wait, some 0, 0⟩

def Misreports (wait : Wait) : Prop :=
  ∃ s : Recorded 2, Reaches step Free (.ok (.init 2 0)) (.ok s) ∧ inProgress wait ∈ s.returned ∧
    ¬ (inProgress wait).Truthful

theorem misreports {as : List (Action 2)} {wait : Wait}
    (hrun : (run step (.ok (.init 2 0)) as).any (okAnd fun s =>
      decide (inProgress wait ∈ s.returned)) = true)
    (hfalse : ¬ (inProgress wait).Truthful) : Misreports wait := by
  obtain ⟨s, hs, hreturned⟩ := exists_ok_of_any hrun
  exact ⟨s, .of_run hs, hreturned, hfalse⟩

/-- A fiber waits for the event in `connect_with_timeout`, and its timeout has not struck. -/
def Recorded.Exposed (s : Recorded n) (f : Fin n) (fd : Nat) (event : Event) : Prop :=
  s.sys.iom.fiberAt fd event = some (f : Nat) ∧
    ∃ call ∈ s.sys.calls f, call.routine = .connectWithTimeout ∧
      s.sys.cancelled call.tinfo = false

/-- `epoll_ctl` changes or deletes the descriptor. -/
def Recorded.Accepts (s : Recorded n) (fd : Nat) (granted : Bool) : Prop :=
  granted = true ∧ s.sys.iom.interest fd ≠ none

/-- `addEvent` of fiber `f` for `WRITE` on `fd` does not return -1. -/
def Recorded.Registers (s : Recorded n) (f : Fin n) (fd : Nat) (granted : Bool) : Prop :=
  match s.sys.iom.addEvent ⟨some 0, f, .exec⟩ fd .write none granted with
  | .error _ => True
  | .ok r => r.1 = 0

/-- `addEvent` of `connect_with_timeout` does not fail, and neither `close` nor a callback takes
its event away before its timeout has struck. -/
def Undisturbed (s : Recorded n) : Action n → Prop
  | .sys (.fiber f (.register granted)) =>
      ∀ call ∈ s.sys.calls f, call.routine = .connectWithTimeout →
        s.Registers f call.fd granted
  | .sys (.job job granted) =>
      job.pc = .cancel → s.Accepts job.closure.fd granted →
        ∀ f, ¬ s.Exposed f job.closure.fd job.closure.event
  | .sys (.cancelAll fd granted) => s.Accepts fd granted → ∀ f, ¬ s.Exposed f fd .write
  | _ => True

instance (s : Recorded n) (f : Fin n) (fd : Nat) (event : Event) :
    Decidable (s.Exposed f fd event) :=
  inferInstanceAs (Decidable (_ ∧ ∃ call ∈ s.sys.calls f, _ ∧ _))

instance (s : Recorded n) (fd : Nat) (granted : Bool) : Decidable (s.Accepts fd granted) :=
  inferInstanceAs (Decidable (_ ∧ _))

instance (s : Recorded n) (f : Fin n) (fd : Nat) (granted : Bool) :
    Decidable (s.Registers f fd granted) :=
  match h : s.sys.iom.addEvent ⟨some 0, f, .exec⟩ fd .write none granted with
  | .error _ => isTrue (by unfold Recorded.Registers; rw [h]; trivial)
  | .ok r => decidable_of_iff (r.1 = 0) (by unfold Recorded.Registers; rw [h])

instance (s : Recorded n) : (a : Action n) → Decidable (Undisturbed s a)
  | .sys (.fiber f (.register granted)) =>
      inferInstanceAs (Decidable (∀ call ∈ s.sys.calls f, _ → s.Registers f call.fd granted))
  | .sys (.job _ _) => inferInstanceAs (Decidable (_ → _ → ∀ f, ¬ s.Exposed f _ _))
  | .sys (.cancelAll _ _) => inferInstanceAs (Decidable (_ → ∀ f, ¬ s.Exposed f _ _))
  | .sys (.fiber _ (.issue _)) => isTrue trivial
  | .sys (.fiber _ (.arm _ _)) => isTrue trivial
  | .sys (.fiber _ .yield) => isTrue trivial
  | .sys (.fiber _ .resume) => isTrue trivial
  | .sys (.fiber _ .cancelTimer) => isTrue trivial
  | .sys (.fiber _ .test) => isTrue trivial
  | .sys (.begin _ _ _ _) => isTrue trivial
  | .sys (.expire _ _) => isTrue trivial
  | .sys (.dispatch _ _ _) => isTrue trivial
  | .sys (.addTimer _ _ _ _) => isTrue trivial
  | .connect _ _ _ _ _ _ => isTrue trivial
  | .connectF _ _ => isTrue trivial
  | .getsockopt _ _ => isTrue trivial
  | .closeF _ => isTrue trivial

/-- The entry is from a report for the socket, or the timeout has struck. -/
def Recorded.Reported (s : Recorded n) (call : Call) (cause : Option Cause) : Prop :=
  call.routine = .connectWithTimeout →
    cause = some (.report call.fd .write) ∨ s.sys.cancelled call.tinfo = true

/-- Fiber `f` has no entry, and is registered nowhere. -/
structure Recorded.Idle (s : Recorded n) (f : Fin n) : Prop where
  queued : s.sys.queued f = 0
  entries : s.entries f = []
  events : ∀ fd e, s.sys.iom.fiberAt fd e ≠ some (f : Nat)

inductive Recorded.Waits (s : Recorded n) (f : Fin n) (call : Call) : Prop where
  | registered : s.sys.queued f = 0 → s.entries f = [] →
      (∀ fd e, s.sys.iom.fiberAt fd e = some (f : Nat) → fd = call.fd ∧ e = call.event) →
      Recorded.Waits s f call
  | entered (cause : Cause) : s.sys.queued f = 1 → s.entries f = [cause] →
      (∀ fd e, s.sys.iom.fiberAt fd e ≠ some (f : Nat)) → s.Reported call (some cause) →
      Recorded.Waits s f call

/-- What holds of a fiber between its steps. -/
def Recorded.Fits (s : Recorded n) (f : Fin n) : Option Call → Prop
  | none => s.Idle f
  | some call =>
      match call.pc with
      | .yield | .suspended => s.Waits f call
      | .resumed | .test => s.Idle f ∧ s.Reported call (s.woken f)
      | .failed => s.Idle f ∧ call.routine ≠ .connectWithTimeout
      | .issue | .arm | .register => s.Idle f

structure Inv (s : Recorded n) : Prop where
  coherent : Coherent s.sys.iom
  infos : ∀ f call, s.sys.calls f = some call → call.tinfo ≤ s.sys.lastInfo
  fits : ∀ f, s.Fits f (s.sys.calls f)
  checking : ∀ f check, s.checking f = some check →
    check.2 = .resumed (some (.report check.1 .write))
  returned : ∀ r ∈ s.returned, r.Truthful

theorem inv_init (now : Nat) : Inv (.init n now) where
  coherent := coherent_init
  infos := fun f call hcall => by cases hcall
  fits := fun f => ⟨rfl, rfl, fun fd e hf => by
    have hnone : (Recorded.init n now).sys.iom.fiberAt fd e = none := fiberAt_init fd e
    rw [hnone] at hf
    cases hf⟩
  checking := fun f check hcheck => by cases hcheck
  returned := fun r hr => absurd hr List.not_mem_nil

variable {s t : Recorded n}

/-! ## Frames -/

/-- From `s` to `t` nothing happens to fiber `f`. -/
structure Same (s t : Recorded n) (f : Fin n) : Prop where
  queued : t.sys.queued f = s.sys.queued f
  entries : t.entries f = s.entries f
  woken : t.woken f = s.woken f
  events : ∀ fd e, t.sys.iom.fiberAt fd e = some (f : Nat) →
    s.sys.iom.fiberAt fd e = some (f : Nat)
  cancelled : ∀ tinfo ≤ s.sys.lastInfo, s.sys.cancelled tinfo = true →
    t.sys.cancelled tinfo = true

theorem Same.of_eq {f : Fin n} (hqueued : t.sys.queued = s.sys.queued)
    (hentries : t.entries = s.entries) (hwoken : t.woken = s.woken)
    (hevents : t.sys.iom.fiberAt = s.sys.iom.fiberAt)
    (hcancelled : t.sys.cancelled = s.sys.cancelled) : Same s t f where
  queued := congrFun hqueued f
  entries := congrFun hentries f
  woken := congrFun hwoken f
  events := fun _ _ hf => hevents ▸ hf
  cancelled := fun _ _ hset => hcancelled ▸ hset

theorem Same.idle {f : Fin n} (h : Same s t f) (hidle : s.Idle f) : t.Idle f :=
  ⟨h.queued.trans hidle.queued, h.entries.trans hidle.entries,
    fun fd e hf => hidle.events fd e (h.events fd e hf)⟩

theorem Same.reported {f : Fin n} (h : Same s t f) {call : Call} {cause : Option Cause}
    (hinfo : call.tinfo ≤ s.sys.lastInfo) (hreported : s.Reported call cause) :
    t.Reported call cause :=
  fun hconnect => (hreported hconnect).imp_right (h.cancelled _ hinfo)

theorem Same.waits {f : Fin n} (h : Same s t f) {call : Call}
    (hinfo : call.tinfo ≤ s.sys.lastInfo) (hwaits : s.Waits f call) : t.Waits f call := by
  cases hwaits with
  | registered hqueued hentries hevents =>
      exact .registered (h.queued.trans hqueued) (h.entries.trans hentries)
        fun fd e hf => hevents fd e (h.events fd e hf)
  | entered cause hqueued hentries hevents hreported =>
      exact .entered cause (h.queued.trans hqueued) (h.entries.trans hentries)
        (fun fd e hf => hevents fd e (h.events fd e hf)) (h.reported hinfo hreported)

theorem Same.fits {f : Fin n} (h : Same s t f) {call : Option Call}
    (hinfo : ∀ c, call = some c → c.tinfo ≤ s.sys.lastInfo) (hfits : s.Fits f call) :
    t.Fits f call := by
  cases call with
  | none => exact h.idle hfits
  | some call =>
      have hinfo := hinfo call rfl
      cases hpc : call.pc <;> simp only [Recorded.Fits, hpc] at hfits ⊢
      case yield => exact h.waits hinfo hfits
      case suspended => exact h.waits hinfo hfits
      case resumed => exact ⟨h.idle hfits.1, h.woken ▸ h.reported hinfo hfits.2⟩
      case test => exact ⟨h.idle hfits.1, h.woken ▸ h.reported hinfo hfits.2⟩
      case failed => exact ⟨h.idle hfits.1, hfits.2⟩
      all_goals exact h.idle hfits

theorem Inv.keep (h : Inv s) (hcoherent : Coherent t.sys.iom) (hcalls : t.sys.calls = s.sys.calls)
    (hlast : t.sys.lastInfo = s.sys.lastInfo) (hsame : ∀ f, Same s t f)
    (hchecking : ∀ f check, t.checking f = some check →
      check.2 = .resumed (some (.report check.1 .write)))
    (hreturned : ∀ r ∈ t.returned, r.Truthful) : Inv t where
  coherent := hcoherent
  infos := fun f call hcall => by
    rw [hlast]
    exact h.infos f call (hcalls ▸ hcall)
  fits := fun f => by
    rw [hcalls]
    exact (hsame f).fits (fun c hc => h.infos f c hc) (h.fits f)
  checking := hchecking
  returned := hreturned

theorem Inv.become (h : Inv s) (hcoherent : Coherent t.sys.iom) {f : Fin n} {x : Option Call}
    (hcalls : t.sys.calls = Function.update s.sys.calls f x)
    (hlast : s.sys.lastInfo ≤ t.sys.lastInfo)
    (hinfo : ∀ call, x = some call → call.tinfo ≤ t.sys.lastInfo)
    (hothers : ∀ g, g ≠ f → Same s t g) (hself : t.Fits f x)
    (hchecking : ∀ g check, t.checking g = some check →
      check.2 = .resumed (some (.report check.1 .write)))
    (hreturned : ∀ r ∈ t.returned, r.Truthful) : Inv t where
  coherent := hcoherent
  infos := fun g call hcall => by
    rw [hcalls] at hcall
    by_cases hg : g = f
    · subst hg
      exact hinfo call ((Function.update_self g x s.sys.calls).symm.trans hcall)
    · rw [Function.update_of_ne hg] at hcall
      exact (h.infos g call hcall).trans hlast
  fits := fun g => by
    rw [hcalls]
    by_cases hg : g = f
    · subst hg
      rw [Function.update_self]
      exact hself
    · rw [Function.update_of_ne hg]
      exact (hothers g hg).fits (fun c hc => h.infos g c hc) (h.fits g)
  checking := hchecking
  returned := hreturned

/-! ## Reports, callbacks and closes -/

theorem Recorded.Fits.registered {f : Fin n} {call : Option Call} (h : s.Fits f call) {fd : Nat}
    {e : Event} (hf : s.sys.iom.fiberAt fd e = some (f : Nat)) :
    ∃ c, call = some c ∧ (c.pc = .yield ∨ c.pc = .suspended) ∧ s.sys.queued f = 0 ∧
      s.entries f = [] ∧
      ∀ k d, s.sys.iom.fiberAt k d = some (f : Nat) → k = c.fd ∧ d = c.event := by
  cases call with
  | none => exact absurd hf (h.events fd e)
  | some c =>
      have hwaits : s.Waits f c → s.sys.queued f = 0 ∧ s.entries f = [] ∧
          ∀ k d, s.sys.iom.fiberAt k d = some (f : Nat) → k = c.fd ∧ d = c.event := by
        rintro (⟨hqueued, hentries, hevents⟩ | ⟨_, _, _, hevents, _⟩)
        · exact ⟨hqueued, hentries, hevents⟩
        · exact absurd hf (hevents fd e)
      refine ⟨c, rfl, ?_⟩
      cases hpc : c.pc <;> simp only [Recorded.Fits, hpc] at h
      case yield => exact ⟨.inl rfl, hwaits h⟩
      case suspended => exact ⟨.inr rfl, hwaits h⟩
      case resumed => exact absurd hf (h.1.events fd e)
      case test => exact absurd hf (h.1.events fd e)
      case failed => exact absurd hf (h.1.events fd e)
      all_goals exact absurd hf (h.events fd e)

theorem Recorded.Fits.of_waits {f : Fin n} {call : Call}
    (hpc : call.pc = .yield ∨ call.pc = .suspended) (h : s.Waits f call) :
    s.Fits f (some call) := by
  rcases hpc with hpc | hpc <;> simpa only [Recorded.Fits, hpc] using h

theorem schedule_entries (s : Recorded n) (u : Timeout.State n) (cause : Fin n → Cause)
    (f : Fin n) : (s.schedule u cause).entries f =
      s.entries f ++ List.replicate (u.queued f - s.sys.queued f) (cause f) := rfl

theorem Same.schedule {u : Timeout.State n} {cause : Fin n → Cause} {f : Fin n}
    (hqueued : u.queued f = s.sys.queued f)
    (hevents : ∀ fd e, u.iom.fiberAt fd e = some (f : Nat) →
      s.sys.iom.fiberAt fd e = some (f : Nat))
    (hcancelled : ∀ tinfo ≤ s.sys.lastInfo, s.sys.cancelled tinfo = true →
      u.cancelled tinfo = true) : Same s (s.schedule u cause) f where
  queued := hqueued
  entries := by
    rw [schedule_entries, hqueued, Nat.sub_self]
    exact List.append_nil _
  woken := rfl
  events := hevents
  cancelled := hcancelled

/-- The fibers whose events fire are queued, each with one entry. -/
theorem Inv.fired (h : Inv s) {fd : Nat} {u : Timeout.State n} {jobs : List Job}
    (hfires : Fires fd s.sys.iom u.iom) {cause : Fin n → Cause}
    (hu : u = { s.sys.afterEvents u.iom with jobs := jobs })
    (hcause : ∀ f call, s.sys.calls f = some call →
      s.sys.iom.fiberAt fd call.event = some (f : Nat) → call.fd = fd →
        u.iom.fiberAt fd call.event ≠ some (f : Nat) → s.Reported call (some (cause f))) :
    Inv (s.schedule u cause) := by
  have hreleases := h.coherent.fires hfires
  have hcalls : u.calls = s.sys.calls := by rw [hu]; rfl
  have hlast : u.lastInfo = s.sys.lastInfo := by rw [hu]; rfl
  have hcancelled : u.cancelled = s.sys.cancelled := by rw [hu]; rfl
  have hqueued : ∀ f, u.queued f = (s.sys.afterEvents u.iom).queued f := by
    intro f
    conv_lhs => rw [hu]
  refine ⟨hreleases.coherent, fun f call hcall => ?_, fun f => ?_, h.checking, h.returned⟩
  · change call.tinfo ≤ u.lastInfo
    rw [hlast]
    exact h.infos f call (hcalls ▸ hcall)
  · change (s.schedule u cause).Fits f (u.calls f)
    rw [hcalls]
    have hfits := h.fits f
    have hsame : u.queued f = s.sys.queued f →
        (s.schedule u cause).Fits f (s.sys.calls f) := fun hkept =>
      (Same.schedule hkept (fun k e hf => hreleases.fibers k e f hf)
        fun _ _ hset => hcancelled ▸ hset).fits (fun c hc => h.infos f c hc) hfits
    by_cases hwaits : ∃ e, s.sys.iom.fiberAt fd e = some (f : Nat)
    · obtain ⟨e, he⟩ := hwaits
      obtain ⟨call, hcall, hpc, hzero, hnil, honly⟩ := hfits.registered he
      obtain ⟨new, hnew, hcount⟩ := h.coherent.fires_once hfires (fun d hd => (honly fd d hd).2)
      have hadd := (hqueued f).trans (afterEvents_queued hnew f)
      rcases hcount with hcount | ⟨hcount, hbefore, hgone⟩
      · exact hsame (by rw [hadd, hcount, Nat.add_zero])
      · have hone : u.queued f = 1 := by rw [hadd, hcount, hzero]
        rw [hcall]
        refine .of_waits hpc (.entered (cause f) hone ?_ ?_ ?_)
        · rw [schedule_entries, hnil, hone, hzero]
          rfl
        · intro k d hd
          obtain ⟨rfl, rfl⟩ := honly k d (hreleases.fibers k d f hd)
          obtain ⟨hfd, -⟩ := honly fd e he
          exact hgone _ (hfd ▸ hd)
        · intro hconnect
          have hreported := hcause f call hcall hbefore (honly fd e he).1.symm (hgone _) hconnect
          exact hreported.imp_right fun hset => hcancelled ▸ hset
    · push Not at hwaits
      have hnone : ∀ d, s.sys.iom.fiberAt fd d = some (f : Nat) → d = .read :=
        fun d hd => absurd hd (hwaits d)
      obtain ⟨new, hnew, hcount⟩ := h.coherent.fires_once hfires hnone
      have hadd := (hqueued f).trans (afterEvents_queued hnew f)
      rcases hcount with hcount | ⟨-, hbefore, -⟩
      · exact hsame (by rw [hadd, hcount, Nat.add_zero])
      · exact absurd hbefore (hwaits .read)

theorem event_of_connect {call : Call} (h : call.routine = .connectWithTimeout) :
    call.event = .write := by
  rw [Call.event, h]
  rfl

theorem reported_of_not_exposed {f : Fin n} {call : Call} {cause : Option Cause}
    (hcall : s.sys.calls f = some call)
    (h : call.routine = .connectWithTimeout → ¬ s.Exposed f call.fd .write)
    (hf : s.sys.iom.fiberAt call.fd call.event = some (f : Nat)) : s.Reported call cause := by
  intro hconnect
  right
  by_contra hunset
  rw [event_of_connect hconnect] at hf
  exact h hconnect ⟨hf, call, hcall, hconnect, Bool.eq_false_of_not_eq_true hunset⟩

theorem Inv.dispatch (h : Inv s) {fd : Nat} {report : Mask} {granted : Bool} {iom : IOManager}
    (hr : s.sys.iom.dispatch fd report granted = .ok iom) :
    Inv (s.schedule (s.sys.afterEvents iom) (s.reportFor fd)) := by
  refine h.fired (IOManager.dispatch_fires hr) rfl fun f call _ hf hfd _ hconnect => .inl ?_
  rw [event_of_connect hconnect] at hf
  rw [Recorded.reportFor, if_pos hf, hfd]

theorem Inv.cancelAll (h : Inv s) {fd : Nat} {granted : Bool}
    (hundisturbed : Undisturbed s (.sys (.cancelAll fd granted))) {r : Bool × IOManager}
    (hr : s.sys.iom.cancelAll fd granted = .ok r) :
    Inv (s.schedule (s.sys.afterEvents r.2) fun _ => .close fd) := by
  refine h.fired (IOManager.cancelAll_fires hr) rfl fun f call hcall hf hfd hgone => ?_
  have haccepts : s.Accepts fd granted := by
    by_contra hdeclined
    rw [State.afterEvents, IOManager.cancelAll_declined hdeclined hr] at hgone
    exact hgone (hfd ▸ hf)
  subst hfd
  exact reported_of_not_exposed hcall (fun _ => hundisturbed haccepts f) hf

theorem Inv.cancelEvent (h : Inv s) {job : Job} (hpc : job.pc = .cancel) {granted : Bool}
    (hundisturbed : Undisturbed s (.sys (.job job granted))) {r : Bool × IOManager}
    (hr : s.sys.iom.cancelEvent job.closure.fd job.closure.event granted = .ok r) :
    Inv (s.schedule ((s.sys.afterEvents r.2).endJob job) fun _ => .callback job.closure) := by
  refine h.fired (IOManager.cancelEvent_fires hr) rfl fun f call hcall hf hfd hgone => ?_
  have haccepts : s.Accepts job.closure.fd granted := by
    by_contra hdeclined
    rw [State.endJob, State.afterEvents, IOManager.cancelEvent_declined hdeclined hr] at hgone
    exact hgone hf
  have hevent : call.event = job.closure.event := by
    by_contra hother
    refine hgone ?_
    rw [State.endJob, State.afterEvents, h.coherent.cancelEvent_other hr hother]
    exact hf
  refine reported_of_not_exposed hcall (fun hconnect hexposed => ?_) (hfd ▸ hf)
  rw [hfd, ← event_of_connect hconnect, hevent] at hexposed
  exact hundisturbed hpc haccepts f hexposed

theorem Inv.runJob (h : Inv s) {job : Job} {granted : Bool}
    (hundisturbed : Undisturbed s (.sys (.job job granted))) {u : Timeout.State n}
    (hu : s.sys.runJob job granted = .ok u) :
    Inv (s.schedule u fun _ => .callback job.closure) := by
  have hkeep : ∀ {u : Timeout.State n}, u.iom = s.sys.iom → u.calls = s.sys.calls →
      u.queued = s.sys.queued → u.lastInfo = s.sys.lastInfo →
      (∀ tinfo, s.sys.cancelled tinfo = true → u.cancelled tinfo = true) →
      Inv (s.schedule u fun _ => .callback job.closure) := by
    intro u hiom hcalls hqueued hlast hcancelled
    refine h.keep (hiom ▸ h.coherent) hcalls hlast (fun f => ?_) h.checking h.returned
    exact .schedule (congrFun hqueued f) (fun _ _ hf => hiom ▸ hf)
      fun tinfo _ hset => hcancelled tinfo hset
  unfold State.runJob at hu
  split at hu
  · cases hu
    split <;> exact hkeep rfl rfl rfl rfl fun _ => id
  · cases hu
    split <;> exact hkeep rfl rfl rfl rfl fun _ => id
  · cases hu
    refine hkeep rfl rfl rfl rfl fun tinfo hset => ?_
    change Function.update s.sys.cancelled job.closure.tinfo true tinfo = true
    by_cases heq : tinfo = job.closure.tinfo
    · rw [heq, Function.update_self]
    · rwa [Function.update_of_ne heq]
  · rename_i hpc
    split at hu <;> cases hu
    rename_i r hr
    exact h.cancelEvent hpc hundisturbed hr

/-! ## The fiber -/

section Fiber

variable {f : Fin n} {call : Call}

/-- A step of the fiber that changes its own call and the timers only. -/
theorem Inv.at (h : Inv s) (hcall : s.sys.calls f = some call) {u : Timeout.State n}
    {x : Option Call} (hiom : u.iom = s.sys.iom)
    (hcalls : u.calls = Function.update s.sys.calls f x) (hqueued : u.queued = s.sys.queued)
    (hcancelled : u.cancelled = s.sys.cancelled) (hlast : u.lastInfo = s.sys.lastInfo)
    (hx : ∀ c, x = some c → c.tinfo = call.tinfo) (hself : s.Fits f x) :
    Inv { s with sys := u } := by
  have hsame : ∀ g, Same s { s with sys := u } g := fun g =>
    .of_eq hqueued rfl rfl (by rw [hiom]) hcancelled
  have hinfo : ∀ c, x = some c → c.tinfo ≤ s.sys.lastInfo := fun c hc =>
    (hx c hc).trans_le (h.infos f call hcall)
  exact h.become (hiom ▸ h.coherent) hcalls hlast.ge (fun c hc => hlast ▸ hinfo c hc)
    (fun g _ => hsame g) ((hsame f).fits hinfo hself) h.checking h.returned

theorem Inv.idle (h : Inv s) (hcall : s.sys.calls f = some call)
    (hpc : call.pc = .issue ∨ call.pc = .arm ∨ call.pc = .register) : s.Idle f := by
  have hfits := h.fits f
  rw [hcall] at hfits
  rcases hpc with hpc | hpc | hpc <;> simpa only [Recorded.Fits, hpc] using hfits

theorem Inv.issue (h : Inv s) (hcall : s.sys.calls f = some call) (hpc : call.pc = .issue)
    (again : Bool) :
    Inv { s with sys := if again then s.sys.at f call .arm else s.sys.become f none } := by
  have hidle := h.idle hcall (.inl hpc)
  cases again
  · exact h.at hcall rfl rfl rfl rfl rfl (fun c hc => by cases hc) hidle
  · exact h.at hcall rfl rfl rfl rfl rfl (fun c hc => by cases hc; rfl) hidle

theorem Inv.arm (h : Inv s) (hcall : s.sys.calls f = some call) (hpc : call.pc = .arm) {now : Nat}
    {timer : Timers.Addr} {u : Timeout.State n} (hu : s.sys.arm f call now timer = some u) :
    Inv { s with sys := u } := by
  have hidle := h.idle hcall (.inr (.inl hpc))
  unfold State.arm at hu
  split at hu
  · cases hu
    exact h.at hcall rfl rfl rfl rfl rfl (fun c hc => by cases hc; rfl) hidle
  · split at hu <;> cases hu
    exact h.at hcall rfl rfl rfl rfl rfl (fun c hc => by cases hc; rfl) hidle

theorem Inv.register (h : Inv s) (hcall : s.sys.calls f = some call) (hpc : call.pc = .register)
    {granted : Bool} (hundisturbed : Undisturbed s (.sys (.fiber f (.register granted))))
    {u : Timeout.State n} (hu : s.sys.register f call granted = .ok u) :
    Inv { s with sys := u } := by
  have hidle := h.idle hcall (.inr (.inr hpc))
  unfold State.register at hu
  split at hu
  · cases hu
  · rename_i r hr
    cases hu
    have hevent := event_ne_none call
    obtain ⟨hregisters, hrefused, -⟩ := h.coherent.addEvent hevent hr
    refine h.become hregisters.coherent rfl Nat.le.refl
      (fun c hc => (by cases hc; exact h.infos f call hcall)) (fun g hg => ?_) ?_ h.checking
      h.returned
    · refine ⟨rfl, rfl, rfl, fun k e hf => ?_, fun _ _ hset => hset⟩
      rcases hregisters.fibers k e g hf with ⟨-, -, heq⟩ | hold
      · exact absurd (Fin.ext heq) hg
      · exact hold
    · by_cases hrt : r.1 = 0
      · simp only [if_pos hrt]
        refine Recorded.Waits.registered hidle.queued hidle.entries fun k e hf => ?_
        rcases hregisters.fibers k e f hf with ⟨hk, he, -⟩ | hold
        · exact ⟨hk, he⟩
        · exact absurd hold (hidle.events k e)
      · simp only [if_neg hrt]
        refine ⟨⟨hidle.queued, hidle.entries, fun k e hf => ?_⟩, fun hconnect => hrt ?_⟩
        · exact hidle.events k e (((hrefused hrt).1 k e).symm.trans hf)
        · have hconnect : call.routine = .connectWithTimeout := hconnect
          rw [event_of_connect hconnect] at hr
          have hregisters := hundisturbed call hcall hconnect
          unfold Recorded.Registers at hregisters
          rwa [hr] at hregisters

theorem Inv.yield (h : Inv s) (hcall : s.sys.calls f = some call) (hpc : call.pc = .yield) :
    Inv { s with sys := s.sys.at f call .suspended } := by
  have hfits := h.fits f
  simp only [hcall, Recorded.Fits, hpc] at hfits
  refine h.at hcall rfl rfl rfl rfl rfl (fun c hc => by cases hc; rfl) ?_
  cases hfits with
  | registered hqueued hentries hevents =>
      exact Recorded.Waits.registered hqueued hentries hevents
  | entered cause hqueued hentries hevents hreported =>
      exact Recorded.Waits.entered cause hqueued hentries hevents hreported

theorem Inv.resume (h : Inv s) (hcall : s.sys.calls f = some call) (hpc : call.pc = .suspended)
    (hpos : 0 < s.sys.queued f) :
    Inv { s with
      sys := { s.sys with
        queued := Function.update s.sys.queued f (s.sys.queued f - 1) }.at f call .resumed
      entries := Function.update s.entries f (s.entries f).tail
      woken := Function.update s.woken f (s.entries f).head? } := by
  have hfits := h.fits f
  simp only [hcall, Recorded.Fits, hpc] at hfits
  refine h.become h.coherent rfl Nat.le.refl
    (fun c hc => (by cases hc; exact h.infos f call hcall)) (fun g hg => ?_) ?_ h.checking
    h.returned
  · exact ⟨Function.update_of_ne hg _ _, Function.update_of_ne hg _ _,
      Function.update_of_ne hg _ _, fun _ _ hf => hf, fun _ _ hset => hset⟩
  · cases hfits with
    | registered hqueued _ _ => exact absurd hqueued hpos.ne'
    | entered cause hqueued hentries hevents hreported =>
        refine ⟨⟨?_, ?_, hevents⟩, ?_⟩
        · change Function.update s.sys.queued f (s.sys.queued f - 1) f = 0
          rw [Function.update_self, hqueued]
        · change Function.update s.entries f (s.entries f).tail f = []
          rw [Function.update_self, hentries]
          rfl
        · change Recorded.Reported _ _ (Function.update s.woken f (s.entries f).head? f)
          rw [Function.update_self, hentries]
          exact hreported

theorem Inv.cancelTimer (h : Inv s) (hcall : s.sys.calls f = some call)
    (hpc : call.pc = .failed ∨ call.pc = .resumed) {u : Timeout.State n}
    (hu : s.sys.cancelTimer f call = .ok u) : Inv (s.access u f call .cancelTimer) := by
  have hfits := h.fits f
  rw [hcall] at hfits
  have hplain : s.access u f call .cancelTimer = { s with sys := u } := by
    rw [Recorded.access, if_neg]
    rintro ⟨hfailed, hconnect⟩
    simp only [Recorded.Fits, hfailed] at hfits
    exact hfits.2 hconnect
  rw [hplain]
  have hnext : ∀ {timers : Timers.TimerManager}, Inv { s with
      sys := if call.pc = .failed then { s.sys with timers := timers }.become f none
        else { s.sys with timers := timers }.at f call .test } := by
    intro timers
    rcases hpc with hpc | hpc <;> simp only [Recorded.Fits, hpc] at hfits
    · rw [if_pos hpc]
      exact h.at hcall rfl rfl rfl rfl rfl (fun c hc => by cases hc) hfits.1
    · rw [if_neg (by rw [hpc]; decide)]
      exact h.at hcall rfl rfl rfl rfl rfl (fun c hc => by cases hc; rfl) hfits
  unfold State.cancelTimer at hu
  dsimp only at hu
  split at hu
  · cases hu
    exact hnext
  · split at hu <;> cases hu
    exact hnext

/-- A timeout that has struck is returned as -1, and `getsockopt` follows a report. -/
theorem Inv.test (h : Inv s) (hcall : s.sys.calls f = some call) (hpc : call.pc = .test) :
    Inv (s.access (s.sys.test f call) f call .test) := by
  have hfits := h.fits f
  simp only [hcall, Recorded.Fits, hpc] at hfits
  obtain ⟨hidle, hreported⟩ := hfits
  by_cases hconnect : call.routine = .connectWithTimeout
  · have hend : s.sys.test f call = s.sys.become f none := if_pos (.inr hconnect)
    have hdone : Inv { s with sys := s.sys.test f call } := by
      rw [hend]
      exact h.at hcall rfl rfl rfl rfl rfl (fun c hc => by cases hc) hidle
    rw [Recorded.access, if_pos hconnect]
    split
    · refine hdone.keep hdone.coherent rfl rfl (fun g => .of_eq rfl rfl rfl rfl rfl) h.checking
        fun r hr => ?_
      rcases List.mem_append.1 hr with hr | hr
      · exact h.returned r hr
      · rw [List.mem_singleton.1 hr]
        exact .inr rfl
    · rename_i hunset
      refine hdone.keep hdone.coherent rfl rfl (fun g => .of_eq rfl rfl rfl rfl rfl)
        (fun g check hcheck => ?_) h.returned
      change Function.update s.checking f _ g = some check at hcheck
      by_cases hg : g = f
      · rw [hg, Function.update_self] at hcheck
        cases hcheck
        exact congrArg Wait.resumed ((hreported hconnect).resolve_right hunset)
      · rw [Function.update_of_ne hg] at hcheck
        exact h.checking g check hcheck
  · rw [Recorded.access, if_neg hconnect]
    unfold State.test
    split
    · exact h.at hcall rfl rfl rfl rfl rfl (fun c hc => by cases hc) hidle
    · exact h.at hcall rfl rfl rfl rfl rfl (fun c hc => by cases hc; rfl) hidle

end Fiber

theorem Inv.begin (h : Inv s) {f : Fin n} (hcall : s.sys.calls f = none) (routine : Routine)
    (fd timeout : Nat) : Inv { s with sys := s.sys.begin f routine fd timeout } := by
  have hfits := h.fits f
  rw [hcall] at hfits
  have hsame : ∀ g, Same s { s with sys := s.sys.begin f routine fd timeout } g := fun g =>
    ⟨rfl, rfl, rfl, fun _ _ hf => hf, fun tinfo hle hset =>
      (Function.update_of_ne (Nat.lt_succ_of_le hle).ne _ _).trans hset⟩
  exact h.become h.coherent rfl (Nat.le_succ _) (fun c hc => (by cases hc; exact Nat.le_refl _))
    (fun g _ => hsame g) ((hsame f).idle hfits) h.checking h.returned

/-! ## Whole runs -/

theorem Inv.access (h : Inv s) {f : Fin n} {call : Call} (hcall : s.sys.calls f = some call)
    {access : Access} (hundisturbed : Undisturbed s (.sys (.fiber f access)))
    {u : Timeout.State n} (hu : s.sys.access f call access = some (.ok u)) :
    Inv (s.access u f call access) := by
  cases access with
  | issue again =>
      simp only [State.access] at hu
      split at hu <;> cases hu
      rename_i hpc
      exact h.issue hcall hpc again
  | arm now timer =>
      simp only [State.access] at hu
      split at hu
      · rename_i hpc
        obtain ⟨u, hu, heq⟩ := Option.map_eq_some_iff.mp hu
        cases heq
        exact h.arm hcall hpc hu
      · cases hu
  | register granted =>
      simp only [State.access] at hu
      split at hu
      · rename_i hpc
        exact h.register hcall hpc hundisturbed (Option.some.inj hu)
      · cases hu
  | yield =>
      simp only [State.access] at hu
      split at hu <;> cases hu
      rename_i hpc
      exact h.yield hcall hpc
  | resume =>
      simp only [State.access] at hu
      split at hu <;> cases hu
      rename_i hpc
      exact h.resume hcall hpc.1 hpc.2
  | cancelTimer =>
      simp only [State.access] at hu
      split at hu
      · rename_i hpc
        exact h.cancelTimer hcall hpc (Option.some.inj hu)
      · cases hu
  | test =>
      simp only [State.access] at hu
      split at hu <;> cases hu
      rename_i hpc
      exact h.test hcall hpc

theorem Inv.next (h : Inv s) {a : Timeout.Action n} (hundisturbed : Undisturbed s (.sys a))
    {u : Timeout.State n} (hu : Timeout.op s.sys a = some (.ok u)) : Inv (s.next u a) := by
  cases a with
  | begin f routine fd timeout =>
      simp only [Timeout.op] at hu
      split at hu <;> cases hu
      rename_i hcall
      exact h.begin hcall routine fd timeout
  | fiber f access =>
      obtain ⟨call, hcall, hu⟩ := Option.bind_eq_some_iff.mp hu
      simp only [Recorded.next, hcall]
      exact h.access hcall hundisturbed hu
  | expire now probe =>
      simp only [Timeout.op] at hu
      split at hu
      · cases hu
      · split at hu <;> cases hu
        exact h.keep h.coherent rfl rfl (fun f => .of_eq rfl rfl rfl rfl rfl) h.checking h.returned
  | job job granted =>
      simp only [Timeout.op] at hu
      split at hu
      · exact h.runJob hundisturbed (Option.some.inj hu)
      · cases hu
  | dispatch fd report granted =>
      simp only [Timeout.op] at hu
      split at hu <;> cases hu
      rename_i iom hiom
      exact h.dispatch hiom
  | cancelAll fd granted =>
      simp only [Timeout.op] at hu
      split at hu <;> cases hu
      rename_i r hr
      exact h.cancelAll hundisturbed hr
  | addTimer now timer ms recurring =>
      simp only [Timeout.op] at hu
      split at hu <;> cases hu
      exact h.keep h.coherent rfl rfl (fun f => .of_eq rfl rfl rfl rfl rfl) h.checking h.returned

theorem Inv.connectF (h : Inv s) {f : Fin n} {call : Call} (hcall : s.sys.calls f = some call)
    {answer : Answer} {u : Timeout.State n}
    (hu : s.sys.access f call (.issue (decide (answer = .inProgress))) = some (.ok u)) :
    Inv { s with sys := u, returned := s.returned ++ settled call.fd answer } := by
  simp only [State.access] at hu
  split at hu <;> cases hu
  rename_i hpc
  have hissued := h.issue hcall hpc (decide (answer = .inProgress))
  refine hissued.keep hissued.coherent rfl rfl (fun g => .of_eq rfl rfl rfl rfl rfl) h.checking
    fun r hr => ?_
  rcases List.mem_append.1 hr with hr | hr
  · exact h.returned r hr
  · cases answer with
    | connected =>
        rw [List.mem_singleton.1 hr]
        exact .inl ⟨rfl, .inl rfl⟩
    | inProgress => cases hr
    | failed =>
        rw [List.mem_singleton.1 hr]
        exact .inr rfl

theorem answered_truthful (hookEnable : Bool) (ctx : Option FdCtx) (fd : Nat) (answer : Answer) :
    (answered hookEnable ctx fd answer).Truthful := by
  unfold answered
  split
  · exact .inr rfl
  · by_cases hconnected : answer = .connected
    · exact .inl ⟨if_pos hconnected, .inl hconnected⟩
    · exact .inr (if_neg hconnected)

theorem Inv.connect (h : Inv s) {f : Fin n} (hcall : s.sys.calls f = none) (hookEnable : Bool)
    (ctx : Option FdCtx) (fd timeout : Nat) (answer : Answer) :
    Inv (if hookEnable ∧ (waitable ctx).isSome then
        { s with sys := s.sys.begin f .connectWithTimeout fd timeout }
      else { s with returned := s.returned ++ [answered hookEnable ctx fd answer] }) := by
  split
  · exact h.begin hcall .connectWithTimeout fd timeout
  · refine h.keep h.coherent rfl rfl (fun g => .of_eq rfl rfl rfl rfl rfl) h.checking
      fun r hr => ?_
    rcases List.mem_append.1 hr with hr | hr
    · exact h.returned r hr
    · rw [List.mem_singleton.1 hr]
      exact answered_truthful hookEnable ctx fd answer

theorem Inv.getsockopt (h : Inv s) {f : Fin n} {check : Nat × Wait}
    (hcheck : s.checking f = some check) (error : Option Nat) :
    Inv { s with
      checking := Function.update s.checking f none
      returned := s.returned ++ [⟨check.1, .inProgress, some check.2, error,
        if error = some 0 then 0 else -1⟩] } := by
  refine h.keep h.coherent rfl rfl (fun g => .of_eq rfl rfl rfl rfl rfl) (fun g c hc => ?_)
    fun r hr => ?_
  · change Function.update s.checking f none g = some c at hc
    by_cases hg : g = f
    · rw [hg, Function.update_self] at hc
      cases hc
    · rw [Function.update_of_ne hg] at hc
      exact h.checking g c hc
  · rcases List.mem_append.1 hr with hr | hr
    · exact h.returned r hr
    · rw [List.mem_singleton.1 hr]
      by_cases hzero : error = some 0
      · exact .inl ⟨if_pos hzero, .inr ⟨congrArg some (h.checking f check hcheck), hzero⟩⟩
      · exact .inr (if_neg hzero)

theorem inv_preserved : Preserves (step : _ → Action n → _) (onOk Undisturbed)
    (Holds Inv fun _ => True) := by
  refine preserves_abortable fun s a r h hundisturbed hr => ?_
  have hmap : ∀ {x : Except Failed (Timeout.State n)} {g : Timeout.State n → Recorded n},
      (∀ u, x = .ok u → Inv (g u)) → Holds Inv (fun _ => True) (x.map g) := by
    intro x g hx
    cases x with
    | error e => trivial
    | ok u => exact hx u rfl
  cases a with
  | sys a =>
      simp only [op] at hr
      split at hr
      · obtain ⟨x, hx, rfl⟩ := Option.map_eq_some_iff.mp hr
        exact hmap fun u hu => h.next hundisturbed (hu ▸ hx)
      · cases hr
  | connect f hookEnable ctx fd timeout answer =>
      simp only [op] at hr
      split at hr
      · rename_i hidle
        have hnext := h.connect hidle.1 hookEnable ctx fd timeout answer
        split at hr <;> cases hr <;> rename_i hwaits
        · rwa [if_pos hwaits] at hnext
        · rwa [if_neg hwaits] at hnext
      · cases hr
  | connectF f answer =>
      obtain ⟨call, hcall, hr⟩ := Option.bind_eq_some_iff.mp hr
      split at hr
      · obtain ⟨x, hx, rfl⟩ := Option.map_eq_some_iff.mp hr
        exact hmap fun u hu => h.connectF hcall (hu ▸ hx)
      · cases hr
  | getsockopt f error =>
      obtain ⟨check, hcheck, rfl⟩ := Option.map_eq_some_iff.mp hr
      exact h.getsockopt hcheck error
  | closeF fd =>
      cases hr
      exact h.keep h.coherent rfl rfl (fun f => .of_eq rfl rfl rfl rfl rfl) h.checking h.returned

/-- A report and `SO_ERROR` 0, then a timeout, then a close after the timeout has struck. -/
def connectedRun : List (Action 2) :=
  [connectOn 0 5 10, .connectF 0 .inProgress, .sys (.fiber 0 (.arm 0 7)),
    .sys (.fiber 0 (.register true)), .sys (.fiber 0 .yield), .sys (.dispatch 5 epollOut true),
    .sys (.fiber 0 .resume), .sys (.fiber 0 .cancelTimer), .sys (.fiber 0 .test),
    .getsockopt 0 (some 0), connectOn 1 6 10, .connectF 1 .inProgress,
    .sys (.fiber 1 (.arm 0 8)), .sys (.fiber 1 (.register true)), .sys (.fiber 1 .yield),
    .sys (.expire 10 9), .sys (.job ⟨⟨2, 6, .write⟩, .lock⟩ true),
    .sys (.job ⟨⟨2, 6, .write⟩, .test⟩ true), .sys (.job ⟨⟨2, 6, .write⟩, .set⟩ true),
    .sys (.cancelAll 6 true), .sys (.fiber 1 .resume), .sys (.fiber 1 .cancelTimer),
    .sys (.fiber 1 .test)]

end Sylar.Connect
