import Sylar.Hook.Step

/-! # `SO_RCVTIMEO` and `SO_SNDTIMEO` of a managed socket

`setsockopt` through the hook, on one socket with its `FdCtx`. The hook stores the timeout
before it asks the kernel, whose answer is an argument here. `do_io` takes `(uint64_t)-1` for
no timeout, and any other number for the delay of a condition timer.
-/

namespace Sylar.Hook

/-! ## The hook -/

/-- `struct timeval`. -/
structure Timeval where
  sec : Int
  usec : Int
  deriving DecidableEq, Repr

/-- `tv->tv_sec * 1000 + tv->tv_usec / 1000`. -/
def Timeval.toMs (tv : Timeval) : Int := tv.sec * 1000 + tv.usec.tdiv 1000

/-- A `long` as a `uint64_t`. -/
def toUInt64 (x : Int) : Nat := (x % 2 ^ 64).toNat

/-- The two options of level `SOL_SOCKET`. -/
inductive TimeoutOption where
  | rcvtimeo
  | sndtimeo
  deriving DecidableEq, Repr

inductive SocketOption where
  /-- of level `SOL_SOCKET` -/
  | timeout (optname : TimeoutOption)
  | other (level optname : Int)
  deriving DecidableEq, Repr

/-- The event that `do_io` waits for under the option's timeout. -/
def TimeoutOption.event : TimeoutOption → Epoll.Event
  | .rcvtimeo => .read
  | .sndtimeo => .write

/-- What `setsockopt` does to the context that `FdMgr::get(sockfd)` finds. -/
def setsockopt (hookEnable : Bool) (ctx : Option FdCtx) (option : SocketOption) (tv : Timeval) :
    Option FdCtx :=
  if ¬ hookEnable then ctx
  else
    match option with
    | .timeout optname => ctx.map fun ctx => ctx.setTimeout optname.event (toUInt64 tv.toMs)
    | .other _ _ => ctx

/-- The delay of the condition timer that `do_io` adds, if it adds one. -/
def FdCtx.delay (ctx : FdCtx) (optname : TimeoutOption) : Option Nat :=
  if ctx.getTimeout optname.event ≠ 2 ^ 64 - 1 then some (ctx.getTimeout optname.event) else none

theorem armed_iff_delay {n : Nat} (s : System n) (f : Fin n) (call : Call) (ctx : FdCtx)
    (optname : TimeoutOption) (hevent : optname.event = call.event)
    (hunarmed : call.armed = false) :
    s.ioStep f { call with timeout := ctx.getTimeout call.event, pc := .arm } =
      some (s.ioAt f
        { call with
          timeout := ctx.getTimeout call.event
          pc := .arm
          armed := (ctx.delay optname).isSome } .register) := by
  have harmed : (ctx.delay optname).isSome = decide (ctx.getTimeout call.event ≠ 2 ^ 64 - 1) := by
    unfold FdCtx.delay
    rw [hevent]
    split <;> simp_all
  simp only [System.ioStep, hunarmed, Bool.false_or, harmed]

/-! ## Calls -/

structure SockoptCall where
  optname : TimeoutOption
  tv : Timeval
  accepted : Bool
  deriving DecidableEq, Repr

/-- The context, and the `timeval` that the kernel accepted last for each option. -/
structure Timed where
  ctx : FdCtx
  accepted : TimeoutOption → Option Timeval

def Timed.init (fd : Nat) (file : File) : Timed := ⟨.new fd (some file), fun _ => none⟩

def Timed.perform (s : Timed) (call : SockoptCall) : Timed where
  ctx := (setsockopt true (some s.ctx) (.timeout call.optname) call.tv).getD s.ctx
  accepted :=
    if call.accepted then Function.update s.accepted call.optname (some call.tv) else s.accepted

def Timed.after (s : Timed) (calls : List SockoptCall) : Timed := calls.foldl Timed.perform s

/-! ## What the kernel's answers mean -/

/-- POSIX: a zero `timeval` never times out. -/
def Timeval.isZero (tv : Timeval) : Prop := tv.sec = 0 ∧ tv.usec = 0

instance (tv : Timeval) : Decidable tv.isZero := inferInstanceAs (Decidable (_ ∧ _))

/-- `do_io` waits without limit if it may, and otherwise at least as long as was accepted. -/
def Means (delay : Option Nat) : Option Timeval → Prop
  | none => delay = none
  | some tv =>
      if tv.isZero then delay = none
      else ∃ ms : Nat, delay = some ms ∧ tv.sec * 1000000 + tv.usec ≤ ms * 1000

/-- Both timeouts mean what the kernel accepted. -/
def Timed.Faithful (s : Timed) : Prop :=
  ∀ optname, Means (s.ctx.delay optname) (s.accepted optname)

/-- A rejected call changes no timeout, and an accepted one only that of its option. -/
def Timed.Framed (s : Timed) (call : SockoptCall) : Prop :=
  ∀ optname, call.accepted = false ∨ optname ≠ call.optname →
    (s.perform call).ctx.delay optname = s.ctx.delay optname

/-! ## One call -/

/-- The conversion to milliseconds is exact or rounds up, within 64 bits and short of the
number that stands for no timeout. -/
def Timeval.Converts (tv : Timeval) : Prop :=
  ¬ tv.isZero ∧ tv.toMs % 2 ^ 64 ≠ 2 ^ 64 - 1 ∧
    (tv.toMs < 0 ∨ tv.toMs < 2 ^ 64 ∧ tv.usec.tmod 1000 ≤ 0)

/-- An accepted `timeval` converts; a rejected one is the timeout that is stored already. -/
def Timed.Allows (s : Timed) (call : SockoptCall) : Prop :=
  if call.accepted then call.tv.Converts
  else toUInt64 call.tv.toMs = s.ctx.getTimeout call.optname.event

theorem toUInt64_cast (x : Int) : (toUInt64 x : Int) = x % 2 ^ 64 :=
  Int.toNat_of_nonneg (Int.emod_nonneg x (by decide))

/-- The microseconds that the conversion drops have the sign of `tv_usec`. -/
theorem Timeval.toMs_remainder (tv : Timeval) :
    tv.sec * 1000000 + tv.usec = tv.toMs * 1000 + tv.usec.tmod 1000 ∧
      -1000 < tv.usec.tmod 1000 ∧ tv.usec.tmod 1000 < 1000 := by
  have hdiv := Int.mul_tdiv_add_tmod tv.usec 1000
  have hlow := Int.lt_tmod_of_pos tv.usec (show (0 : Int) < 1000 by decide)
  have hhigh := Int.tmod_lt_of_pos tv.usec (show (0 : Int) < 1000 by decide)
  unfold Timeval.toMs
  refine ⟨by omega, by omega, hhigh⟩

theorem means_stored (tv : Timeval) :
    Means (if toUInt64 tv.toMs ≠ 2 ^ 64 - 1 then some (toUInt64 tv.toMs) else none) (some tv) ↔
      tv.Converts := by
  have hcast := toUInt64_cast tv.toMs
  by_cases hzero : tv.isZero
  · -- a zero `timeval` is stored as the number 0
    have hms : toUInt64 tv.toMs = 0 := by
      unfold Timeval.toMs
      rw [hzero.1, hzero.2]
      rfl
    simp [Means, Timeval.Converts, hzero, hms]
  · obtain ⟨hexact, hlow, hhigh⟩ := tv.toMs_remainder
    simp only [Means, Timeval.Converts, hzero, if_false, not_false_iff, true_and]
    by_cases hnone : toUInt64 tv.toMs = 2 ^ 64 - 1
    · have hlast : tv.toMs % 2 ^ 64 = 2 ^ 64 - 1 := by omega
      simp only [hnone, ne_eq, not_true_eq_false, if_false, hlast, false_and, iff_false,
        not_exists, not_and]
      intro ms hms
      cases hms
    · have hlast : tv.toMs % 2 ^ 64 ≠ 2 ^ 64 - 1 := by omega
      simp only [ne_eq, hnone, not_false_iff, if_true, Option.some.injEq, exists_eq_left', hlast,
        true_and]
      omega

variable {s : Timed}

theorem getTimeout_setTimeout (ctx : FdCtx) (a b : TimeoutOption) (v : Nat) :
    (ctx.setTimeout a.event v).getTimeout b.event =
      if b = a then v else ctx.getTimeout b.event := by
  cases a <;> cases b <;> rfl

theorem perform_getTimeout (s : Timed) (call : SockoptCall) (optname : TimeoutOption) :
    (s.perform call).ctx.getTimeout optname.event =
      if optname = call.optname then toUInt64 call.tv.toMs
      else s.ctx.getTimeout optname.event :=
  getTimeout_setTimeout s.ctx call.optname optname _

theorem delay_eq_iff (ctx ctx' : FdCtx) (optname : TimeoutOption) :
    ctx.delay optname = ctx'.delay optname ↔
      ctx.getTimeout optname.event = ctx'.getTimeout optname.event := by
  have hnone : ∀ x : Nat, (if x ≠ 2 ^ 64 - 1 then some x else none) = none ↔ x = 2 ^ 64 - 1 := by
    simp
  unfold FdCtx.delay
  by_cases hlast : ctx'.getTimeout optname.event = 2 ^ 64 - 1
  · rw [hlast, (hnone _).mpr rfl]
    exact hnone _
  · rw [if_pos hlast, ite_eq_iff]
    simp only [Option.some.injEq, reduceCtorEq, and_false, or_false, and_iff_right_iff_imp]
    intro heq
    rwa [heq]

theorem perform_delay_other (s : Timed) (call : SockoptCall) {optname : TimeoutOption}
    (hne : optname ≠ call.optname) :
    (s.perform call).ctx.delay optname = s.ctx.delay optname := by
  rw [delay_eq_iff, perform_getTimeout, if_neg hne]

theorem Timed.Faithful.perform_other (h : s.Faithful) (call : SockoptCall)
    {optname : TimeoutOption} (hne : optname ≠ call.optname) :
    Means ((s.perform call).ctx.delay optname) ((s.perform call).accepted optname) := by
  have hsame : (s.perform call).accepted optname = s.accepted optname := by
    unfold Timed.perform
    split
    · exact Function.update_of_ne hne _ _
    · rfl
  rw [perform_delay_other s call hne, hsame]
  exact h optname

theorem Timed.Faithful.accepted_iff (h : s.Faithful) {call : SockoptCall}
    (haccepted : call.accepted = true) :
    (s.perform call).Faithful ∧ s.Framed call ↔ call.tv.Converts := by
  have hlast : (s.perform call).accepted call.optname = some call.tv := by
    simp [Timed.perform, haccepted]
  have hstored := perform_getTimeout s call call.optname
  rw [if_pos rfl] at hstored
  have hown : Means ((s.perform call).ctx.delay call.optname)
      ((s.perform call).accepted call.optname) ↔ call.tv.Converts := by
    rw [hlast, ← means_stored, FdCtx.delay, hstored]
  rw [← hown]
  constructor
  · intro hstep
    exact hstep.1 call.optname
  · intro hmeans
    refine ⟨fun optname => ?_, fun optname hor => ?_⟩
    · by_cases hne : optname = call.optname
      · rw [hne]
        exact hmeans
      · exact h.perform_other call hne
    · apply perform_delay_other s call
      rcases hor with hfalse | hne
      · rw [haccepted] at hfalse
        cases hfalse
      · exact hne

/-- A rejected call does exactly if it stores what is stored. -/
theorem Timed.Faithful.rejected_iff (h : s.Faithful) {call : SockoptCall}
    (hrejected : call.accepted = false) :
    (s.perform call).Faithful ∧ s.Framed call ↔
      toUInt64 call.tv.toMs = s.ctx.getTimeout call.optname.event := by
  have hlast : (s.perform call).accepted = s.accepted := by
    simp [Timed.perform, hrejected]
  have hown : (s.perform call).ctx.delay call.optname = s.ctx.delay call.optname ↔
      toUInt64 call.tv.toMs = s.ctx.getTimeout call.optname.event := by
    rw [delay_eq_iff, perform_getTimeout, if_pos rfl]
  rw [← hown]
  constructor
  · intro hstep
    exact hstep.2 call.optname (.inl hrejected)
  · intro hsame
    have hkept : ∀ optname, (s.perform call).ctx.delay optname = s.ctx.delay optname := by
      intro optname
      by_cases hne : optname = call.optname
      · rw [hne]
        exact hsame
      · exact perform_delay_other s call hne
    refine ⟨fun optname => ?_, fun optname _ => hkept optname⟩
    rw [hkept, hlast]
    exact h optname

/-- One call does as it should exactly if the timeouts that it finds allow it. -/
theorem Timed.Faithful.perform_iff (h : s.Faithful) (call : SockoptCall) :
    (s.perform call).Faithful ∧ s.Framed call ↔ s.Allows call := by
  unfold Timed.Allows
  cases haccepted : call.accepted with
  | true =>
      rw [if_pos rfl]
      exact h.accepted_iff haccepted
  | false =>
      rw [if_neg Bool.false_ne_true]
      exact h.rejected_iff haccepted

/-! ## Every sequence of calls -/

/-- A property of every call of a sequence at the state that it finds. -/
theorem forall_call_cons (s : Timed) (call : SockoptCall) (calls : List SockoptCall)
    (P : Timed → SockoptCall → Prop) :
    (∀ done next rest, call :: calls = done ++ next :: rest → P (s.after done) next) ↔
      P s call ∧ ∀ done next rest, calls = done ++ next :: rest →
        P ((s.perform call).after done) next := by
  constructor
  · intro hall
    refine ⟨hall [] call calls rfl, fun done next rest hsplit => ?_⟩
    exact hall (call :: done) next rest (congrArg (List.cons call) hsplit)
  · rintro ⟨hhead, hrest⟩ done next rest hsplit
    cases done with
    | nil =>
        obtain ⟨rfl, rfl⟩ := List.cons.inj hsplit
        exact hhead
    | cons first done =>
        obtain ⟨rfl, htail⟩ := List.cons.inj hsplit
        exact hrest done next rest htail

theorem Timed.Faithful.after_iff (h : s.Faithful) (calls : List SockoptCall) :
    (∀ done next rest, calls = done ++ next :: rest →
        ((s.after done).perform next).Faithful ∧ (s.after done).Framed next) ↔
      ∀ done next rest, calls = done ++ next :: rest → (s.after done).Allows next := by
  induction calls generalizing s with
  | nil =>
      have hnil : ∀ (done rest : List SockoptCall) (next : SockoptCall),
          [] ≠ done ++ next :: rest := by simp
      exact iff_of_true (fun done next rest hsplit => (hnil _ _ _ hsplit).elim)
        fun done next rest hsplit => (hnil _ _ _ hsplit).elim
  | cons call calls ih =>
      rw [forall_call_cons s call calls fun s next => (s.perform next).Faithful ∧ s.Framed next,
        forall_call_cons s call calls fun s next => s.Allows next, h.perform_iff]
      apply and_congr_right
      intro hallows
      exact ih (h.perform_iff call |>.mpr hallows).1

theorem faithful_init (fd : Nat) (file : File) : (Timed.init fd file).Faithful := by
  intro optname
  cases optname <;> rfl

/-- The timeouts mean what the kernel accepted after every call, and no call changes a timeout
that it should not, exactly if each accepted `timeval` is not zero and converts without loss and
each rejected one is stored already. -/
theorem socket_timeouts_iff (fd : Nat) (file : File) (calls : List SockoptCall) :
    (Timed.init fd file).Faithful ∧
    ((∀ done next rest, calls = done ++ next :: rest →
        (((Timed.init fd file).after done).perform next).Faithful ∧
          ((Timed.init fd file).after done).Framed next) ↔
      ∀ done next rest, calls = done ++ next :: rest →
        ((Timed.init fd file).after done).Allows next) :=
  ⟨faithful_init fd file, (faithful_init fd file).after_iff calls⟩

/-- A zero `timeval` and half a millisecond are both stored as 0, and a `timeval` is stored that
the kernel rejects. -/
theorem socket_timeouts_missed :
    ((Timed.init 5 1).perform ⟨.rcvtimeo, ⟨0, 0⟩, true⟩).ctx.delay .rcvtimeo = some 0 ∧
    ((Timed.init 5 1).perform ⟨.sndtimeo, ⟨0, 500⟩, true⟩).ctx.delay .sndtimeo = some 0 ∧
    ((Timed.init 5 1).perform ⟨.rcvtimeo, ⟨1, 2000000⟩, false⟩).ctx.delay .rcvtimeo = some 3000 ∧
    ¬ ∀ calls done next rest, calls = done ++ next :: rest →
      (((Timed.init 5 1).after done).perform next).Faithful ∧
        ((Timed.init 5 1).after done).Framed next := by
  refine ⟨rfl, rfl, rfl, fun h => ?_⟩
  have hstep := (h [⟨.rcvtimeo, ⟨0, 0⟩, true⟩] [] ⟨.rcvtimeo, ⟨0, 0⟩, true⟩ [] rfl).1 .rcvtimeo
  have hzero : (some 0 : Option Nat) = none := hstep
  cases hzero

end Sylar.Hook
