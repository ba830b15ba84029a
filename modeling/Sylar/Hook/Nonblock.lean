import Sylar.Hook.Step

/-! # `O_NONBLOCK` of a managed socket

`fcntl(F_SETFL)`, `fcntl(F_GETFL)` and `ioctl(FIONBIO)` through the hooks, on one socket with
its `FdCtx` and the status flags that the kernel keeps. The kernel's calls succeed; `settable`
are the flags that its `F_SETFL` changes.
-/

namespace Sylar.Hook

/-! ## The kernel -/

def oNonblock : BitVec 32 := 0x800

/-- `fcntl_f(fd, F_SETFL, arg)`. -/
def kernelSetfl (settable flags arg : BitVec 32) : BitVec 32 :=
  (flags &&& ~~~settable) ||| (arg &&& settable)

/-- `ioctl_f(fd, FIONBIO, &v)`. -/
def kernelFionbio (flags v : BitVec 32) : BitVec 32 :=
  if v ≠ 0 then flags ||| oNonblock else flags &&& ~~~oNonblock

/-! ## The hooks -/

/-- A socket; `ctx` is what `FdMgr::get(fd)` finds. -/
structure Socket where
  ctx : FdCtx
  flags : BitVec 32
  deriving DecidableEq, Repr

/-- `FdCtx::init` on an open socket with these flags. -/
def Socket.init (settable : BitVec 32) (fd : Nat) (file : File) (flags : BitVec 32) : Socket where
  ctx := FdCtx.new fd (some file)
  flags :=
    if flags &&& oNonblock = 0 then kernelSetfl settable flags (flags ||| oNonblock) else flags

inductive FlagCall where
  | setfl (arg : BitVec 32)
  | getfl
  | fionbio (v : BitVec 32)
  deriving DecidableEq, Repr

/-- `ctx->isClose() || !ctx->isSocket()`. -/
def Socket.unmanaged (s : Socket) : Bool := s.ctx.isClosed || !s.ctx.isSocket

/-- `fcntl(fd, F_SETFL, arg)`. -/
def Socket.setfl (settable : BitVec 32) (s : Socket) (arg : BitVec 32) : Socket :=
  if s.unmanaged then { s with flags := kernelSetfl settable s.flags arg }
  else
    let ctx := { s.ctx with userNonblock := arg &&& oNonblock ≠ 0 }
    let arg := if ctx.sysNonblock then arg ||| oNonblock else arg &&& ~~~oNonblock
    ⟨ctx, kernelSetfl settable s.flags arg⟩

/-- `fcntl(fd, F_GETFL)`. -/
def Socket.getfl (s : Socket) : BitVec 32 :=
  let arg := s.flags
  if s.unmanaged then arg
  else if s.ctx.userNonblock then arg ||| oNonblock
  else arg &&& ~~~oNonblock

/-- `ioctl(fd, FIONBIO, &v)`. -/
def Socket.fionbio (s : Socket) (v : BitVec 32) : Socket :=
  if s.unmanaged then { s with flags := kernelFionbio s.flags v }
  else ⟨{ s.ctx with userNonblock := v ≠ 0 }, kernelFionbio s.flags v⟩

def Socket.perform (settable : BitVec 32) (s : Socket) : FlagCall → Socket
  | .setfl arg => s.setfl settable arg
  | .getfl => s
  | .fionbio v => s.fionbio v

def Socket.after (settable : BitVec 32) (s : Socket) (calls : List FlagCall) : Socket :=
  calls.foldl (fun s call => s.perform settable call) s

/-! ## What the user is to see -/

/-- The flags of a socket without hooks. -/
def plainPerform (settable flags : BitVec 32) : FlagCall → BitVec 32
  | .setfl arg => kernelSetfl settable flags arg
  | .getfl => flags
  | .fionbio v => kernelFionbio flags v

/-- Such a socket is blocking at first. -/
def plainAfter (settable flags : BitVec 32) (calls : List FlagCall) : BitVec 32 :=
  calls.foldl (plainPerform settable) (flags &&& ~~~oNonblock)

def FlagCall.request : FlagCall → Option Bool
  | .setfl arg => some (arg &&& oNonblock ≠ 0)
  | .getfl => none
  | .fionbio v => some (v ≠ 0)

/-- The mode that the user requested last, blocking at first. -/
def lastRequest (calls : List FlagCall) : Bool :=
  (calls.filterMap FlagCall.request).getLastD false

/-! ## Bits -/

theorem getLsbD_oNonblock (i : Nat) : oNonblock.getLsbD i = decide (i = 11) := by
  have hpow : oNonblock = BitVec.twoPow 32 11 := by decide
  rw [hpow, BitVec.getLsbD_twoPow]
  by_cases hi : i = 11 <;> simp [hi, eq_comm]

theorem and_oNonblock_ne_zero {x : BitVec 32} : x &&& oNonblock ≠ 0 ↔ x.getLsbD 11 = true := by
  have hpow : oNonblock = BitVec.twoPow 32 11 := by decide
  rw [hpow, BitVec.and_twoPow]
  cases x.getLsbD 11 <;> decide

theorem getLsbD_setBit (x : BitVec 32) (i : Nat) :
    (x ||| oNonblock).getLsbD i = if i = 11 then true else x.getLsbD i := by
  rw [BitVec.getLsbD_or, getLsbD_oNonblock]
  by_cases hi : i = 11 <;> simp [hi]

theorem getLsbD_clearBit (x : BitVec 32) (i : Nat) :
    (x &&& ~~~oNonblock).getLsbD i = if i = 11 then false else x.getLsbD i := by
  rw [BitVec.getLsbD_and, BitVec.getLsbD_not, getLsbD_oNonblock]
  by_cases hi : i = 11
  · simp [hi]
  · by_cases hlt : i < 32
    · simp [hi, hlt]
    · simp [hi, BitVec.getLsbD_of_ge x i (Nat.not_lt.mp hlt)]

theorem getLsbD_kernelSetfl (settable flags arg : BitVec 32) (i : Nat) :
    (kernelSetfl settable flags arg).getLsbD i =
      if settable.getLsbD i then arg.getLsbD i else flags.getLsbD i := by
  rw [kernelSetfl, BitVec.getLsbD_or, BitVec.getLsbD_and, BitVec.getLsbD_and, BitVec.getLsbD_not]
  by_cases hi : i < 32
  · cases settable.getLsbD i <;> simp only [hi] <;> simp
  · rw [BitVec.getLsbD_of_ge settable i (Nat.not_lt.mp hi),
      BitVec.getLsbD_of_ge flags i (Nat.not_lt.mp hi)]
    simp

theorem getLsbD_kernelFionbio (flags v : BitVec 32) (i : Nat) :
    (kernelFionbio flags v).getLsbD i = if i = 11 then decide (v ≠ 0) else flags.getLsbD i := by
  by_cases hv : v = 0
  · simp only [kernelFionbio, hv, ne_eq, not_true_eq_false, if_false, getLsbD_clearBit]
    simp
  · simp only [kernelFionbio, hv, ne_eq, not_false_eq_true, if_true, getLsbD_setBit]
    simp

/-! ## One call -/

/-- The user's view holds: the context has the requested mode, and the kernel's flags are the
plain ones up to `O_NONBLOCK`. -/
structure Views (plain : BitVec 32) (mode : Bool) (s : Socket) : Prop where
  managed : s.unmanaged = false
  sysNonblock : s.ctx.sysNonblock = true
  user : s.ctx.userNonblock = mode
  mode : plain.getLsbD 11 = mode
  other : ∀ i, i ≠ 11 → s.flags.getLsbD i = plain.getLsbD i

theorem views_init (settable : BitVec 32) (fd : Nat) (file : File) (flags : BitVec 32) :
    Views (flags &&& ~~~oNonblock) false (Socket.init settable fd file flags) where
  managed := rfl
  sysNonblock := rfl
  user := rfl
  mode := by simp only [getLsbD_clearBit, if_true]
  other := by
    intro i hi
    simp only [Socket.init, getLsbD_clearBit, if_neg hi]
    split
    · simp only [getLsbD_kernelSetfl, getLsbD_setBit, if_neg hi, ite_self]
    · rfl

variable {settable plain : BitVec 32} {mode : Bool} {s : Socket}

theorem init_nonblock (hsettable : settable.getLsbD 11 = true) (fd : Nat) (file : File)
    (flags : BitVec 32) : (Socket.init settable fd file flags).flags.getLsbD 11 = true := by
  by_cases hflags : flags &&& oNonblock = 0
  · simp only [Socket.init, if_pos hflags, getLsbD_kernelSetfl, hsettable, if_true, getLsbD_setBit]
  · simpa only [Socket.init, if_neg hflags] using and_oNonblock_ne_zero.mp hflags

theorem Views.getfl_eq (h : Views plain mode s) :
    s.getfl = if mode then s.flags ||| oNonblock else s.flags &&& ~~~oNonblock := by
  rw [Socket.getfl, h.managed, h.user]
  rfl

theorem Views.setfl_eq (h : Views plain mode s) (arg : BitVec 32) :
    s.setfl settable arg = ⟨{ s.ctx with userNonblock := arg &&& oNonblock ≠ 0 },
      kernelSetfl settable s.flags (arg ||| oNonblock)⟩ := by
  simp [Socket.setfl, h.managed, h.sysNonblock]

theorem Views.fionbio_eq (h : Views plain mode s) (v : BitVec 32) :
    s.fionbio v = ⟨{ s.ctx with userNonblock := v ≠ 0 }, kernelFionbio s.flags v⟩ := by
  rw [Socket.fionbio, h.managed]
  rfl

theorem Views.getfl (h : Views plain mode s) : s.getfl = plain := by
  refine BitVec.eq_of_getLsbD_eq fun i _ => ?_
  rw [h.getfl_eq]
  by_cases hi : i = 11
  · subst hi
    rw [h.mode]
    cases mode
    · exact getLsbD_clearBit s.flags 11
    · exact getLsbD_setBit s.flags 11
  · rw [← h.other i hi]
    cases mode
    · exact (getLsbD_clearBit s.flags i).trans (if_neg hi)
    · exact (getLsbD_setBit s.flags i).trans (if_neg hi)

theorem Views.perform (hsettable : settable.getLsbD 11 = true) (h : Views plain mode s)
    (call : FlagCall) :
    Views (plainPerform settable plain call) (call.request.getD mode)
      (s.perform settable call) := by
  cases call with
  | getfl => exact h
  | setfl arg =>
      rw [Socket.perform, h.setfl_eq]
      refine ⟨h.managed, h.sysNonblock, rfl, ?_, fun i hi => ?_⟩
      · rw [plainPerform, getLsbD_kernelSetfl, if_pos hsettable]
        simp only [FlagCall.request, Option.getD_some, and_oNonblock_ne_zero, Bool.decide_eq_true]
      · simp only [plainPerform, getLsbD_kernelSetfl, getLsbD_setBit, if_neg hi, h.other i hi]
  | fionbio v =>
      rw [Socket.perform, h.fionbio_eq]
      refine ⟨h.managed, h.sysNonblock, rfl, ?_, fun i hi => ?_⟩
      · exact getLsbD_kernelFionbio plain v 11
      · simp only [plainPerform, getLsbD_kernelFionbio, if_neg hi, h.other i hi]

def FlagCall.nonblockAfter (flag : Bool) : FlagCall → Bool
  | .setfl _ => true
  | .getfl => flag
  | .fionbio v => v ≠ 0

theorem Views.perform_nonblock (hsettable : settable.getLsbD 11 = true) (h : Views plain mode s)
    (call : FlagCall) :
    (s.perform settable call).flags.getLsbD 11 = call.nonblockAfter (s.flags.getLsbD 11) := by
  cases call with
  | getfl => rfl
  | setfl arg =>
      rw [Socket.perform, h.setfl_eq]
      simp only [getLsbD_kernelSetfl, hsettable, if_true, getLsbD_setBit,
        FlagCall.nonblockAfter]
  | fionbio v =>
      rw [Socket.perform, h.fionbio_eq]
      exact getLsbD_kernelFionbio s.flags v 11

/-! ## Every sequence of calls -/

/-- Along the calls the kernel's flag stays set exactly if it is set and none clears it. -/
theorem Views.nonblock_iff (hsettable : settable.getLsbD 11 = true) (h : Views plain mode s)
    (calls : List FlagCall) :
    (∀ done, done <+: calls → (s.after settable done).flags.getLsbD 11 = true) ↔
      s.flags.getLsbD 11 = true ∧ .fionbio 0 ∉ calls := by
  induction calls generalizing plain mode s with
  | nil => simp [Socket.after]
  | cons call calls ih =>
      have ih := ih (h.perform hsettable call)
      have hnext := h.perform_nonblock hsettable call
      have hsplit : (∀ done, done <+: call :: calls →
            (s.after settable done).flags.getLsbD 11 = true) ↔
          s.flags.getLsbD 11 = true ∧ ∀ done, done <+: calls →
            ((s.perform settable call).after settable done).flags.getLsbD 11 = true := by
        simp only [List.prefix_cons_iff]
        constructor
        · intro hall
          exact ⟨hall [] (Or.inl rfl), fun done hdone => hall (call :: done)
            (Or.inr ⟨done, rfl, hdone⟩)⟩
        · rintro ⟨hnow, hrest⟩ done hdone
          obtain rfl | ⟨done, rfl, hdone⟩ := hdone
          · exact hnow
          · exact hrest done hdone
      rw [hsplit, ih, hnext, List.mem_cons, not_or]
      cases call with
      | setfl arg => simp [FlagCall.nonblockAfter]
      | getfl => simp [FlagCall.nonblockAfter]
      | fionbio v => simp [FlagCall.nonblockAfter, @eq_comm _ 0#32 v]

theorem Views.after (hsettable : settable.getLsbD 11 = true) (h : Views plain mode s)
    (calls : List FlagCall) :
    Views (calls.foldl (plainPerform settable) plain)
      ((calls.filterMap FlagCall.request).getLastD mode) (s.after settable calls) := by
  induction calls generalizing plain mode s with
  | nil => exact h
  | cons call calls ih =>
      have ih := ih (h.perform hsettable call)
      cases hrequest : call.request with
      | none =>
          rw [hrequest, Option.getD_none] at ih
          rwa [List.filterMap_cons_none hrequest]
      | some request =>
          rw [hrequest, Option.getD_some] at ih
          rwa [List.filterMap_cons_some hrequest, List.getLastD_cons]

/-- What the user sees: the mode of the last request, and the flags of a plain socket. -/
def Socket.Shows (s : Socket) (plain : BitVec 32) (mode : Bool) : Prop :=
  s.ctx.userNonblock = mode ∧ s.getfl = plain ∧ (s.getfl &&& oNonblock ≠ 0 ↔ mode = true)

theorem Views.shows (h : Views plain mode s) : s.Shows plain mode := by
  refine ⟨h.user, h.getfl, ?_⟩
  rw [and_oNonblock_ne_zero, h.getfl, h.mode]

/-- The user always sees the mode and the flags they set, and the kernel's flag stays set
exactly if no call is `ioctl(FIONBIO)` with 0. -/
theorem managed_nonblock_iff (hsettable : settable &&& oNonblock ≠ 0) (fd : Nat) (file : File)
    (flags : BitVec 32) (calls : List FlagCall) :
    (∀ done, done <+: calls →
      ((Socket.init settable fd file flags).after settable done).Shows
        (plainAfter settable flags done) (lastRequest done)) ∧
    ((∀ done, done <+: calls →
        ((Socket.init settable fd file flags).after settable done).flags &&& oNonblock ≠ 0 ∧
        ((Socket.init settable fd file flags).after settable done).Shows
          (plainAfter settable flags done) (lastRequest done)) ↔
      .fionbio 0 ∉ calls) := by
  rw [and_oNonblock_ne_zero] at hsettable
  have hview := views_init settable fd file flags
  have hshows : ∀ done, ((Socket.init settable fd file flags).after settable done).Shows
      (plainAfter settable flags done) (lastRequest done) :=
    fun done => (hview.after hsettable done).shows
  have hfirst := init_nonblock hsettable fd file flags
  refine ⟨fun done _ => hshows done, ?_⟩
  have hiff := hview.nonblock_iff hsettable calls
  simp only [and_oNonblock_ne_zero, hshows, and_true, hiff, hfirst, true_and]

/-- The status flags that `F_SETFL` changes, and a socket opened for both directions. -/
theorem managed_nonblock_sample :
    ((Socket.init 0x46c00 5 1 2).after 0x46c00 [.setfl 0xc02, .getfl, .fionbio 1]).flags = 0xc02 ∧
      ∀ done, done <+: [.setfl 0xc02, .getfl, .fionbio 1] →
        ((Socket.init 0x46c00 5 1 2).after 0x46c00 done).flags &&& oNonblock ≠ 0 ∧
        ((Socket.init 0x46c00 5 1 2).after 0x46c00 done).Shows
          (plainAfter 0x46c00 2 done) (lastRequest done) :=
  ⟨by decide, (managed_nonblock_iff (by decide) 5 1 2 _).2.mpr (by decide)⟩

/-- `ioctl` passes the user's 0 on to the kernel. -/
theorem fionbio_clears_nonblock :
    (Socket.init 0x46c00 5 1 2).flags = 0x802 ∧
      ((Socket.init 0x46c00 5 1 2).after 0x46c00 [.fionbio 0]).flags = 2 ∧
      ((Socket.init 0x46c00 5 1 2).after 0x46c00 [.fionbio 0]).ctx.sysNonblock = true ∧
      ¬ ((Socket.init 0x46c00 5 1 2).after 0x46c00 [.fionbio 0]).flags &&& oNonblock ≠ 0 := by
  decide

end Sylar.Hook
