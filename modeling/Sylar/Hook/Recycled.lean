import Sylar.Hook.FdGet

/-! # Contexts of recycled descriptors

`socket`, `accept` and `close` on any number of threads, each with hooks enabled or not at the
call, one access at a time. The kernel gives out any number that names no open file. A context
belongs to the file that `fstat` found when it was made; the table is keyed by the number, and
only `close` with hooks enabled clears an entry.
-/

namespace Sylar.Recycled

open Transition Hook

variable {ι : Type*}

/-! ## State -/

/-- What a thread does: its own code, a `socket` or `accept` that was given `fd` for `file` and
has `FdMgr::get(fd, true)` to do, or a `close`. -/
inductive Activity where
  | user
  | opening (hook : Bool) (fd : Nat) (file : File) (create : Bool)
  | closing (fd : Nat) (pc : ClosePc)
  deriving DecidableEq, Repr

/-- A return of `socket` or `accept`: the context that `FdMgr` has then, the file it was
initialised for, and whether the kernel's flag `O_NONBLOCK` of the new file is set. -/
structure Returned where
  hook : Bool
  fd : Nat
  file : File
  ctx : FdCtx
  madeFor : Option File
  nonblock : Bool
  deriving DecidableEq, Repr

/-- `files` is the kernel's table, `nonblock` the flag of each open file, and `madeFor` the
file that `FdCtx::init` found. -/
structure Sockets (ι : Type*) where
  files : Nat → Option File
  nonblock : File → Bool
  lastFile : Nat
  manager : FdManager
  ctxs : CtxId → FdCtx
  madeFor : CtxId → Option File
  calls : ι → Activity
  returned : List Returned

def Sockets.init : Sockets ι where
  files := fun _ => none
  nonblock := fun _ => false
  lastFile := 0
  manager := .init
  ctxs := fun fd => .new fd none
  madeFor := fun _ => none
  calls := fun _ => .user
  returned := []

/-- `m_datas[fd]`. -/
def Sockets.entry (s : Sockets ι) (fd : Nat) : Option CtxId := s.manager.toMap.entry fd

/-! ## Updates -/

def Sockets.become [DecidableEq ι] (s : Sockets ι) (th : ι) (x : Activity) : Sockets ι :=
  { s with calls := Function.update s.calls th x }

/-- The kernel opens a file under the number `fd`; a `type` with `SOCK_NONBLOCK` sets its flag. -/
def Sockets.openFile (s : Sockets ι) (fd : Nat) (nonblock : Bool) : Sockets ι :=
  { s with
    files := Function.update s.files fd (some (s.lastFile + 1))
    nonblock := Function.update s.nonblock (s.lastFile + 1) nonblock
    lastFile := s.lastFile + 1 }

/-- `close_f`. -/
def Sockets.closeFile (s : Sockets ι) (fd : Nat) : Sockets ι :=
  { s with files := Function.update s.files fd none }

/-- The end of `socket` or `accept`, with the context that `get(fd, true)` returned. -/
def Sockets.finish [DecidableEq ι] (s : Sockets ι) (th : ι) (hook : Bool) (fd : Nat) (file : File)
    (ctx : CtxId) : Sockets ι :=
  { s.become th .user with
    returned :=
      ⟨hook, fd, file, s.ctxs ctx, s.madeFor ctx, s.nonblock file⟩ :: s.returned }

/-- `FdCtx::init` on what `fd` names sets `O_NONBLOCK`. -/
def Sockets.initCtx (s : Sockets ι) (fd : Nat) (ctx : CtxId) (manager : FdManager) : Sockets ι :=
  { s with
    manager := manager
    ctxs := Function.update s.ctxs ctx (.new fd (s.files fd))
    madeFor := Function.update s.madeFor ctx (s.files fd)
    nonblock := fun file => s.nonblock file || decide (s.files fd = some file) }

/-! ## Steps -/

inductive Action (ι : Type*) where
  /-- `socket_f` -/
  | socket (th : ι) (hook : Bool) (fd : Nat) (nonblock : Bool)
  /-- the `accept_f` of `do_io` that has a connection -/
  | accept (th : ι) (hook : Bool) (fd : Nat)
  | close (th : ι) (hook : Bool) (fd : Nat)
  /-- the next access of the thread in its call -/
  | next (th : ι)
  /-- the user changes the context that `FdMgr::get(fd)` finds, or the flag of a file -/
  | set (fd : Nat) (setting : Setting)
  | flag (fd : Nat) (nonblock : Bool)

/-- The two sections of `FdMgr::get(fd, true)`. -/
def Sockets.openStep [DecidableEq ι] (s : Sockets ι) (th : ι) (hook : Bool) (fd : Nat)
    (file : File) (create : Bool) : Option (Sockets ι) :=
  if create then
    match s.manager.writeSection fd with
    | .error _ => none
    | .ok (ctx, manager) => some ((s.initCtx fd ctx manager).finish th hook fd file ctx)
  else
    match s.manager.readSection fd true with
    | .ok (.found (some ctx)) => some (s.finish th hook fd file ctx)
    | .ok .create => some (s.become th (.opening hook fd file true))
    | _ => none

/-- The accesses of `close` with hooks enabled; the events that `cancelAll` drops are left out. -/
def Sockets.closeStep [DecidableEq ι] (s : Sockets ι) (th : ι) (fd : Nat) :
    ClosePc → Option (Sockets ι)
  | .get =>
      match s.manager.readSection fd false with
      | .ok (.found (some _)) => some (s.become th (.closing fd .cancelAll))
      | .ok _ => some (s.become th (.closing fd .close))
      | .error _ => none
  | .cancelAll => some (s.become th (.closing fd .del))
  | .del =>
      match s.manager.del fd with
      | .ok manager => some ({ s with manager := manager }.become th (.closing fd .close))
      | .error _ => none
  | .close => some ((s.closeFile fd).become th .user)

/-- Without hooks `socket` and `close` are the system call alone. -/
def step [DecidableEq ι] (s : Sockets ι) : Action ι → Option (Sockets ι)
  | .socket th hook fd nonblock =>
      if s.calls th = .user ∧ s.files fd = none ∧ fd < s.manager.datas.length then
        let s' := s.openFile fd nonblock
        some (if hook then s'.become th (.opening true fd (s.lastFile + 1) false) else s')
      else none
  | .accept th hook fd =>
      if s.calls th = .user ∧ s.files fd = none ∧ fd < s.manager.datas.length then
        some ((s.openFile fd false).become th (.opening hook fd (s.lastFile + 1) false))
      else none
  | .close th hook fd =>
      if s.calls th = .user then
        some (s.become th (.closing fd (if hook then .get else .close)))
      else none
  | .next th =>
      match s.calls th with
      | .user => none
      | .opening hook fd file create => s.openStep th hook fd file create
      | .closing fd pc => s.closeStep th fd pc
  | .set fd setting =>
      match s.manager.readSection fd false with
      | .ok (.found (some ctx)) =>
          some { s with ctxs := Function.update s.ctxs ctx (setting.apply (s.ctxs ctx)) }
      | _ => none
  | .flag fd nonblock =>
      (s.files fd).map fun file => { s with nonblock := Function.update s.nonblock file nonblock }

/-- A call was given `fd` and has not looked it up. -/
def Activity.opens (fd : Nat) : Activity → Bool
  | .opening _ fd' _ _ => decide (fd' = fd)
  | _ => false

/-- The number that the thread's next access closes. -/
def Activity.closes : Activity → Option Nat
  | .closing fd .close => some fd
  | _ => none

/-- `close_f` runs on a number that has no context and that no call has to look up. -/
def Cleared (s : Sockets ι) : Action ι → Prop
  | .next th => ∀ fd ∈ (s.calls th).closes,
      s.entry fd = none ∧ ∀ th', (s.calls th').opens fd = false
  | _ => True

instance {n : Nat} (s : Sockets (Fin n)) (a : Action (Fin n)) : Decidable (Cleared s a) :=
  match a with
  | .next th => inferInstanceAs (Decidable (∀ fd ∈ (s.calls th).closes, _))
  | .socket _ _ _ _ | .accept _ _ _ | .close _ _ _ | .set _ _ | .flag _ _ => isTrue trivial

/-! ## The invariant -/

/-- The new file's own context, as `FdCtx::init` leaves it. -/
structure Returned.Fresh (r : Returned) : Prop where
  madeFor : r.madeFor = some r.file
  ctx : r.ctx = .new r.fd (some r.file)
  nonblock : r.nonblock = true

/-- Every context in the table belongs to the file that its number names, and a number that
is being opened has none. -/
structure Owned (s : Sockets ι) : Prop where
  entry : ∀ fd ctx, s.entry fd = some ctx → ∃ file, s.files fd = some file ∧
    s.madeFor ctx = some file
  made : ∀ fd ctx, s.entry fd = some ctx → ctx ≤ s.manager.lastCtx
  opening : ∀ th hook fd file create, s.calls th = .opening hook fd file create →
    s.files fd = some file ∧ s.entry fd = none ∧ fd < s.manager.datas.length
  alone : ∀ th th' fd, (s.calls th).opens fd = true → (s.calls th').opens fd = true → th = th'
  numbered : ∀ fd file, s.files fd = some file → file ≤ s.lastFile
  files : ∀ ctx file, s.madeFor ctx = some file → file ≤ s.lastFile
  returned : ∀ r ∈ s.returned, r.Fresh

theorem init_entry (fd : Nat) : (Sockets.init : Sockets ι).entry fd = none :=
  congrArg (fun m => m.entry fd) toMap_init

theorem owned_init : Owned (Sockets.init : Sockets ι) where
  entry := by
    intro fd ctx hentry
    cases (init_entry fd).symm.trans hentry
  made := by
    intro fd ctx hentry
    cases (init_entry fd).symm.trans hentry
  opening := by
    intro th hook fd file create hcall
    cases hcall
  alone := by
    intro th th' fd hopens
    cases hopens
  numbered := by
    intro fd file hfile
    cases hfile
  files := by
    intro ctx file hmade
    cases hmade
  returned := by
    intro r hr
    cases hr

variable {s : Sockets ι} {fd : Nat}

theorem Owned.entry_none (h : Owned s) (hfree : s.files fd = none) : s.entry fd = none := by
  by_contra hne
  obtain ⟨ctx, hentry⟩ := Option.ne_none_iff_exists'.mp hne
  obtain ⟨file, hfile, _⟩ := h.entry fd ctx hentry
  rw [hfree] at hfile
  cases hfile

theorem opens_eq_true {x : Activity} (hx : x.opens fd = true) :
    ∃ hook file create, x = .opening hook fd file create := by
  cases x with
  | user => cases hx
  | closing => cases hx
  | opening hook fd' file create =>
      obtain rfl := of_decide_eq_true hx
      exact ⟨hook, file, create, rfl⟩

theorem Owned.opens_false (h : Owned s) (hfree : s.files fd = none) (th : ι) :
    (s.calls th).opens fd = false := by
  rw [Bool.eq_false_iff]
  intro hopens
  obtain ⟨hook, file, create, hcall⟩ := opens_eq_true hopens
  have hfile := (h.opening th hook fd file create hcall).1
  rw [hfree] at hfile
  cases hfile

theorem ne_of_opens_false {x : Activity} (hx : x.opens fd = false) {hook : Bool} {fd' : Nat}
    {file : File} {create : Bool} (hcall : x = .opening hook fd' file create) : fd' ≠ fd := by
  rw [hcall] at hx
  exact of_decide_eq_false hx

theorem closes_eq_some {x : Activity} (hx : x.closes = some fd) : x = .closing fd .close := by
  cases x with
  | user => cases hx
  | opening => cases hx
  | closing fd' pc =>
      cases pc with
      | close =>
          cases hx
          rfl
      | _ => cases hx

/-- A thread moves on; if it opens a number, it does so alone and finds no context. -/
theorem Owned.become [DecidableEq ι] (h : Owned s) {th : ι} {x : Activity}
    (hx : ∀ hook fd file create, x = .opening hook fd file create →
      s.files fd = some file ∧ s.entry fd = none ∧ fd < s.manager.datas.length ∧
        ∀ th', th' ≠ th → (s.calls th').opens fd = false) : Owned (s.become th x) where
  entry := h.entry
  made := h.made
  numbered := h.numbered
  files := h.files
  returned := h.returned
  opening := by
    intro th' hook fd file create hcall
    change Function.update s.calls th x th' = _ at hcall
    by_cases hth : th' = th
    · rw [hth, Function.update_self] at hcall
      obtain ⟨hfile, hentry, hlt, _⟩ := hx hook fd file create hcall
      exact ⟨hfile, hentry, hlt⟩
    · rw [Function.update_of_ne hth] at hcall
      exact h.opening th' hook fd file create hcall
  alone := by
    have hself : ∀ th' fd, th' ≠ th → x.opens fd = true → (s.calls th').opens fd = false := by
      intro th' fd hth hopens
      obtain ⟨hook, file, create, hopening⟩ := opens_eq_true hopens
      exact (hx hook fd file create hopening).2.2.2 th' hth
    intro th₁ th₂ fd h₁ h₂
    change (Function.update s.calls th x th₁).opens fd = true at h₁
    change (Function.update s.calls th x th₂).opens fd = true at h₂
    by_cases hth₁ : th₁ = th
    · by_cases hth₂ : th₂ = th
      · rw [hth₁, hth₂]
      · rw [hth₁, Function.update_self] at h₁
        rw [Function.update_of_ne hth₂, hself th₂ fd hth₂ h₁] at h₂
        cases h₂
    · rw [Function.update_of_ne hth₁] at h₁
      by_cases hth₂ : th₂ = th
      · rw [hth₂, Function.update_self] at h₂
        rw [hself th₁ fd hth₁ h₂] at h₁
        cases h₁
      · rw [Function.update_of_ne hth₂] at h₂
        exact h.alone th₁ th₂ fd h₁ h₂

theorem Owned.openFile (h : Owned s) (hfree : s.files fd = none) (nonblock : Bool) :
    Owned (s.openFile fd nonblock) where
  entry := by
    intro fd' ctx hentry
    obtain ⟨file, hfile, hmade⟩ := h.entry fd' ctx hentry
    have hne : fd' ≠ fd := by
      rintro rfl
      rw [hfree] at hfile
      cases hfile
    exact ⟨file, (Function.update_of_ne hne _ _).trans hfile, hmade⟩
  made := h.made
  opening := by
    intro th hook fd' file create hcall
    obtain ⟨hfile, hrest⟩ := h.opening th hook fd' file create hcall
    have hne : fd' ≠ fd := by
      rintro rfl
      rw [hfree] at hfile
      cases hfile
    exact ⟨(Function.update_of_ne hne _ _).trans hfile, hrest⟩
  alone := h.alone
  numbered := by
    intro fd' file hfile
    change Function.update s.files fd (some (s.lastFile + 1)) fd' = some file at hfile
    by_cases hfd : fd' = fd
    · rw [hfd, Function.update_self, Option.some.injEq] at hfile
      exact hfile.ge
    · rw [Function.update_of_ne hfd] at hfile
      exact (h.numbered fd' file hfile).trans (Nat.le_succ _)
  files := fun ctx file hmade => (h.files ctx file hmade).trans (Nat.le_succ _)
  returned := h.returned

/-- A new file is given to a call that has to look its number up. -/
theorem Owned.opened [DecidableEq ι] (h : Owned s) (th : ι) (hook : Bool)
    (hfree : s.files fd = none) (hlt : fd < s.manager.datas.length) (nonblock : Bool) :
    Owned ((s.openFile fd nonblock).become th (.opening hook fd (s.lastFile + 1) false)) := by
  apply (h.openFile hfree nonblock).become
  intro hook' fd' file create heq
  cases heq
  exact ⟨Function.update_self _ _ _, h.entry_none hfree, hlt, fun th' _ => h.opens_false hfree th'⟩

/-- `close_f` on a number without a context that no call has to look up. -/
theorem Owned.closeFile (h : Owned s) (hnone : s.entry fd = none)
    (hunopened : ∀ th, (s.calls th).opens fd = false) : Owned (s.closeFile fd) where
  entry := by
    intro fd' ctx hentry
    obtain ⟨file, hfile, hmade⟩ := h.entry fd' ctx hentry
    have hne : fd' ≠ fd := by
      rintro rfl
      cases hnone.symm.trans hentry
    exact ⟨file, (Function.update_of_ne hne _ _).trans hfile, hmade⟩
  made := h.made
  opening := by
    intro th hook fd' file create hcall
    change s.calls th = _ at hcall
    obtain ⟨hfile, hrest⟩ := h.opening th hook fd' file create hcall
    have hne := ne_of_opens_false (hunopened th) hcall
    exact ⟨(Function.update_of_ne hne _ _).trans hfile, hrest⟩
  alone := h.alone
  numbered := by
    intro fd' file hfile
    change Function.update s.files fd none fd' = some file at hfile
    by_cases hfd : fd' = fd
    · rw [hfd, Function.update_self] at hfile
      cases hfile
    · rw [Function.update_of_ne hfd] at hfile
      exact h.numbered fd' file hfile
  files := h.files
  returned := h.returned

theorem Owned.del (h : Owned s) {manager : FdManager} (hdel : s.manager.del fd = .ok manager) :
    Owned { s with manager := manager } := by
  obtain ⟨hlast, hentry⟩ := entry_of_del hdel
  have hlength := length_of_del hdel
  have hold : ∀ (fd' : Nat) ctx, manager.toMap.entry fd' = some ctx → s.entry fd' = some ctx := by
    intro fd' ctx hsome
    rw [hentry] at hsome
    split at hsome
    · cases hsome
    · exact hsome
  refine ⟨fun fd' ctx hsome => h.entry fd' ctx (hold fd' ctx hsome),
    fun fd' ctx hsome => ?_, fun th hook fd' file create hcall => ?_, h.alone, h.numbered, h.files,
    h.returned⟩
  · change ctx ≤ manager.lastCtx
    rw [hlast]
    exact h.made fd' ctx (hold fd' ctx hsome)
  · obtain ⟨hfile, hnone, hlt⟩ := h.opening th hook fd' file create hcall
    refine ⟨hfile, ?_, hlength ▸ hlt⟩
    change manager.toMap.entry fd' = none
    rw [hentry]
    split
    · rfl
    · exact hnone

/-- A context is made for the file that its number names. -/
theorem Owned.initCtx (h : Owned s) {file : File} (hfile : s.files fd = some file)
    (hunopened : ∀ th, (s.calls th).opens fd = false) (hlt : fd < s.manager.datas.length)
    {ctx : CtxId} {manager : FdManager}
    (hstore : s.manager.writeSection fd = .ok (ctx, manager)) :
    Owned (s.initCtx fd ctx manager) := by
  have hlength := length_of_store hlt hstore
  obtain ⟨hctx, hlast, hentry⟩ := entry_of_store hstore
  have hother : ∀ fd' ctx', s.entry fd' = some ctx' → ctx' ≠ ctx := by
    intro fd' ctx' hsome
    rw [hctx]
    exact (Nat.lt_succ_of_le (h.made fd' ctx' hsome)).ne
  refine ⟨fun fd' ctx' hsome => ?_, fun fd' ctx' hsome => ?_, fun th hook fd' f create hcall => ?_,
    h.alone, h.numbered, fun ctx' f hmade => ?_, h.returned⟩
  · change manager.toMap.entry fd' = some ctx' at hsome
    change ∃ f, s.files fd' = some f ∧ Function.update s.madeFor ctx (s.files fd) ctx' = some f
    rw [hentry] at hsome
    split at hsome
    · rename_i hfd
      cases hsome
      rw [hfd, Function.update_self]
      exact ⟨file, hfile, hfile⟩
    · rw [Function.update_of_ne (hother fd' ctx' hsome)]
      exact h.entry fd' ctx' hsome
  · change manager.toMap.entry fd' = some ctx' at hsome
    change ctx' ≤ manager.lastCtx
    rw [hlast]
    rw [hentry] at hsome
    split at hsome
    · cases hsome
      exact le_rfl
    · rw [hctx]
      exact (h.made fd' ctx' hsome).trans (Nat.le_succ _)
  · change s.calls th = _ at hcall
    obtain ⟨hfile', hnone, hlt'⟩ := h.opening th hook fd' f create hcall
    have hne := ne_of_opens_false (hunopened th) hcall
    refine ⟨hfile', ?_, hlength ▸ hlt'⟩
    change manager.toMap.entry fd' = none
    rw [hentry, if_neg hne]
    exact hnone
  · change Function.update s.madeFor ctx (s.files fd) ctx' = some f at hmade
    by_cases hctx' : ctx' = ctx
    · rw [hctx', Function.update_self] at hmade
      exact h.numbered fd f hmade
    · rw [Function.update_of_ne hctx'] at hmade
      exact h.files ctx' f hmade

theorem Owned.record (h : Owned s) {r : Returned} (hr : r.Fresh) :
    Owned { s with returned := r :: s.returned } := by
  refine ⟨h.entry, h.made, h.opening, h.alone, h.numbered, h.files, fun r' hr' => ?_⟩
  rcases List.mem_cons.mp hr' with rfl | hr'
  · exact hr
  · exact h.returned r' hr'

/-! ## Steps -/

variable [DecidableEq ι] {t : Sockets ι} {th : ι}

/-- A call finds no context for its number, makes one and returns it. -/
theorem Owned.openStep (h : Owned s) {hook : Bool} {file : File} {create : Bool}
    (hcall : s.calls th = .opening hook fd file create)
    (ht : s.openStep th hook fd file create = some t) : Owned t := by
  obtain ⟨hfile, hnone, hlt⟩ := h.opening th hook fd file create hcall
  have hself : (s.calls th).opens fd = true := by
    rw [hcall]
    exact decide_eq_true rfl
  have hothers : ∀ th', th' ≠ th → (s.calls th').opens fd = false := by
    intro th' hne
    by_contra hopens
    exact hne (h.alone th' th fd (Bool.eq_true_of_not_eq_false hopens) hself)
  unfold Sockets.openStep at ht
  split at ht
  · split at ht
    · cases ht
    · rename_i ctx manager hstore
      cases ht
      have huser : Owned (s.become th .user) := h.become fun _ _ _ _ heq => by cases heq
      have hunopened : ∀ th', ((s.become th .user).calls th').opens fd = false := by
        intro th'
        change (Function.update s.calls th .user th').opens fd = false
        by_cases hth : th' = th
        · rw [hth, Function.update_self]
          rfl
        · rw [Function.update_of_ne hth]
          exact hothers th' hth
      have hmade : Owned ((s.become th .user).initCtx fd ctx manager) :=
        huser.initCtx hfile hunopened hlt hstore
      apply hmade.record
      refine ⟨?_, ?_, ?_⟩
      · exact (Function.update_self _ _ _).trans hfile
      · refine (Function.update_self _ _ _).trans ?_
        rw [hfile]
      · change (s.nonblock file || decide (s.files fd = some file)) = true
        rw [decide_eq_true hfile, Bool.or_true]
  · split at ht
    · rename_i ctx hfound
      cases hnone.symm.trans (entry_of_found hfound)
    · cases ht
      apply h.become
      intro hook' fd' file' create' heq
      cases heq
      exact ⟨hfile, hnone, hlt, hothers⟩
    · cases ht

theorem Owned.closeStep (h : Owned s) {pc : ClosePc}
    (hclear : pc = .close → s.entry fd = none ∧ ∀ th', (s.calls th').opens fd = false)
    (ht : s.closeStep th fd pc = some t) : Owned t := by
  have hmove : ∀ pc', Owned (s.become th (.closing fd pc')) := fun pc' =>
    h.become fun _ _ _ _ heq => by cases heq
  cases pc with
  | get =>
      simp only [Sockets.closeStep] at ht
      split at ht <;> cases ht
      · exact hmove .cancelAll
      · exact hmove .close
  | cancelAll =>
      cases ht
      exact hmove .del
  | del =>
      simp only [Sockets.closeStep] at ht
      split at ht <;> cases ht
      rename_i manager hdel
      exact (h.del hdel).become fun _ _ _ _ heq => by cases heq
  | close =>
      cases ht
      obtain ⟨hnone, hunopened⟩ := hclear rfl
      exact (h.closeFile hnone hunopened).become fun _ _ _ _ heq => by cases heq

theorem owned_step : Preserves (step : Sockets ι → _) Cleared Owned := by
  intro s a t h hg ht
  cases a with
  | socket th hook fd nonblock =>
      simp only [step] at ht
      split at ht <;> cases ht
      rename_i hfree
      cases hook with
      | false => exact h.openFile hfree.2.1 nonblock
      | true => exact h.opened th true hfree.2.1 hfree.2.2 nonblock
  | accept th hook fd =>
      simp only [step] at ht
      split at ht <;> cases ht
      rename_i hfree
      exact h.opened th hook hfree.2.1 hfree.2.2 false
  | close th hook fd =>
      simp only [step] at ht
      split at ht <;> cases ht
      exact h.become fun _ _ _ _ heq => by cases heq
  | next th =>
      simp only [step] at ht
      split at ht
      · cases ht
      · rename_i hook fd file create hcall
        exact h.openStep hcall ht
      · rename_i fd pc hcall
        apply h.closeStep _ ht
        rintro rfl
        apply hg fd
        rw [hcall]
        rfl
  | set fd setting =>
      simp only [step] at ht
      split at ht <;> cases ht
      exact ⟨h.entry, h.made, h.opening, h.alone, h.numbered, h.files, h.returned⟩
  | flag fd nonblock =>
      simp only [step] at ht
      obtain ⟨file, _, rfl⟩ := Option.map_eq_some_iff.mp ht
      exact ⟨h.entry, h.made, h.opening, h.alone, h.numbered, h.files, h.returned⟩

/-! ## What a forbidden `close_f` leads to -/

/-- `socket` finds a context that is left of another file. -/
theorem stale_returned {fd : Nat} {ctx : CtxId} (huser : s.calls th = .user)
    (hfree : s.files fd = none) (hentry : s.entry fd = some ctx)
    (hmade : s.madeFor ctx ≠ some (s.lastFile + 1)) :
    ∃ u, Reaches step Free s u ∧ ∃ r ∈ u.returned, r.hook = true ∧ ¬ r.Fresh := by
  obtain ⟨hlt, hfound⟩ := readSection_of_entry hentry
  obtain ⟨s₁, hs₁⟩ : ∃ s₁,
      s₁ = (s.openFile fd false).become th (.opening true fd (s.lastFile + 1) false) := ⟨_, rfl⟩
  have hopen : step s (.socket th true fd false) = some s₁ := by
    rw [hs₁]
    exact if_pos ⟨huser, hfree, hlt⟩
  have hcall : s₁.calls th = .opening true fd (s.lastFile + 1) false := by
    rw [hs₁]
    exact Function.update_self _ _ _
  have hmade₁ : s₁.madeFor = s.madeFor := by rw [hs₁]; rfl
  have hmanager : s₁.manager = s.manager := by rw [hs₁]; rfl
  have hfinish : step s₁ (.next th) = some (s₁.finish th true fd (s.lastFile + 1) ctx) := by
    simp only [step, hcall, Sockets.openStep, hmanager, hfound, Bool.false_eq_true, if_false]
  refine ⟨_, (Reaches.refl.tail trivial hopen).tail trivial hfinish, _, List.mem_cons_self, rfl, ?_⟩
  intro hfresh
  have hown : s₁.madeFor ctx = some (s.lastFile + 1) := hfresh.madeFor
  rw [hmade₁] at hown
  exact hmade hown

theorem created_for_none {fd : Nat} {hook : Bool} {file : File}
    (hcall : s.calls th = .opening hook fd file true) (hlt : fd < s.manager.datas.length)
    (hfree : s.files fd = none) :
    ∃ u ctx, Reaches step Free s u ∧ u.entry fd = some ctx ∧ u.files fd = none ∧
      u.madeFor ctx = none ∧ ∀ th', th' ≠ th → u.calls th' = s.calls th' := by
  have hstore := writeSection_natCast hlt
  obtain ⟨_, _, hentry⟩ := entry_of_store hstore
  have hfinish : step s (.next th) = some ((s.initCtx fd (s.manager.lastCtx + 1)
      ⟨s.manager.datas.set fd (some (s.manager.lastCtx + 1)), s.manager.lastCtx + 1⟩).finish
        th hook fd file (s.manager.lastCtx + 1)) := by
    simp only [step, hcall, Sockets.openStep, hstore, if_true]
  refine ⟨_, s.manager.lastCtx + 1, Reaches.refl.tail trivial hfinish, ?_, hfree, ?_,
    fun th' hne => Function.update_of_ne hne _ _⟩
  · exact (hentry fd).trans (if_pos rfl)
  · exact (Function.update_self _ _ _).trans hfree

theorem opened_for_none {fd : Nat} {hook create : Bool} {file : File}
    (hcall : s.calls th = .opening hook fd file create) (hlt : fd < s.manager.datas.length)
    (hfree : s.files fd = none) (hentry : s.entry fd = none) :
    ∃ u ctx, Reaches step Free s u ∧ u.entry fd = some ctx ∧ u.files fd = none ∧
      u.madeFor ctx = none ∧ ∀ th', th' ≠ th → u.calls th' = s.calls th' := by
  cases create with
  | true => exact created_for_none hcall hlt hfree
  | false =>
      have hlookup := readSection_of_no_entry hlt hentry
      obtain ⟨s₁, hs₁⟩ : ∃ s₁, s₁ = s.become th (.opening hook fd file true) := ⟨_, rfl⟩
      have hread : step s (.next th) = some s₁ := by
        simp only [step, hcall, Sockets.openStep, hlookup, Bool.false_eq_true, if_false, hs₁]
      have hcall₁ : s₁.calls th = .opening hook fd file true := by
        rw [hs₁]
        exact Function.update_self _ _ _
      have hothers : ∀ th', th' ≠ th → s₁.calls th' = s.calls th' := by
        intro th' hne
        rw [hs₁]
        exact Function.update_of_ne hne _ _
      obtain ⟨u, ctx, hreach, hsome, hnone, hmade, hcalls⟩ :=
        created_for_none hcall₁ (by rw [hs₁]; exact hlt) (by rw [hs₁]; exact hfree)
      exact ⟨u, ctx, .head trivial hread hreach, hsome, hnone, hmade,
        fun th' hne => (hcalls th' hne).trans (hothers th' hne)⟩

/-- After a `close_f` that the guard forbids a hooked `socket` can return another file's context. -/
theorem Owned.forbidden (h : Owned s) {a : Action ι} (ht : step s a = some t)
    (hg : ¬ Cleared s a) :
    ∃ u, Reaches step Free t u ∧ ∃ r ∈ u.returned, r.hook = true ∧ ¬ r.Fresh := by
  cases a with
  | next th =>
      obtain ⟨fd, hg⟩ := not_forall.mp hg
      obtain ⟨hcloses, hg⟩ := Classical.not_imp.mp hg
      have hcall := closes_eq_some hcloses
      have hclose : t = (s.closeFile fd).become th .user := by
        simp only [step, hcall, Sockets.closeStep, Option.some.injEq] at ht
        exact ht.symm
      have huser : t.calls th = .user := by
        rw [hclose]
        exact Function.update_self _ _ _
      have hfree : t.files fd = none := by
        rw [hclose]
        exact Function.update_self _ _ _
      have hentry : t.entry fd = s.entry fd := by rw [hclose]; rfl
      have hmade : t.madeFor = s.madeFor := by rw [hclose]; rfl
      have hlast : t.lastFile = s.lastFile := by rw [hclose]; rfl
      cases hsome : s.entry fd with
      | some ctx =>
          -- the context of the closed file stays in the table
          apply stale_returned huser hfree (hentry.trans hsome)
          rw [hmade, hlast]
          intro hown
          exact Nat.not_succ_le_self _ (h.files ctx _ hown)
      | none =>
          -- a call still has to look the closed number up
          obtain ⟨th', hopens⟩ := not_forall.mp fun hall => hg ⟨hsome, hall⟩
          obtain ⟨hook, file, create, hcall'⟩ :=
            opens_eq_true (Bool.eq_true_of_not_eq_false hopens)
          have hne : th' ≠ th := by
            rintro rfl
            cases hcall.symm.trans hcall'
          have hcall₁ : t.calls th' = .opening hook fd file create := by
            rw [hclose]
            exact (Function.update_of_ne hne _ _).trans hcall'
          have hlt : fd < t.manager.datas.length := by
            rw [hclose]
            exact (h.opening th' hook fd file create hcall').2.2
          obtain ⟨u, ctx, hreach, hctx, hnone, hown, hcalls⟩ :=
            opened_for_none hcall₁ hlt hfree (hentry.trans hsome)
          have hidle : u.calls th = .user := (hcalls th (Ne.symm hne)).trans huser
          obtain ⟨v, hreach', hstale⟩ := stale_returned hidle hnone hctx (by
            rw [hown]
            exact (Option.some_ne_none _).symm)
          exact ⟨v, hreach.trans hreach', hstale⟩
  | socket => exact (hg trivial).elim
  | accept => exact (hg trivial).elim
  | close => exact (hg trivial).elim
  | set => exact (hg trivial).elim
  | flag => exact (hg trivial).elim

/-! ## Every run -/

/-- While each `close_f` is cleared every hooked `socket` and `accept` returns the context of
its own file, as `FdCtx::init` leaves it; one that is not can make a later call return
another. -/
theorem new_socket_fresh (h : Reaches step Cleared (Sockets.init : Sockets ι) s) :
    (∀ r ∈ s.returned, r.hook = true → r.Fresh) ∧
    ∀ a t, step s a = some t → ¬ Cleared s a →
      ∃ u, Reaches step Free t u ∧ ∃ r ∈ u.returned, r.hook = true ∧ ¬ r.Fresh := by
  have hinv := h.invariant owned_step owned_init
  exact ⟨fun r hr _ => hinv.returned r hr, fun a t ht hg => hinv.forbidden ht hg⟩

/-- A number is used twice, with a setting on the first file and a `close` with hooks enabled. -/
def recycledRun : List (Action (Fin 2)) :=
  [.socket 0 true 5 false, .next 0, .next 0, .set 5 (.userNonblock true), .close 0 true 5,
    .next 0, .next 0, .next 0, .next 0, .accept 1 true 5, .next 1, .next 1]

theorem new_socket_fresh_recycled : ∃ s : Sockets (Fin 2),
    checkedRun step (fun s a => decide (Cleared s a)) .init recycledRun = some s ∧
      s.returned.length = 2 ∧ ∀ r ∈ s.returned, r.hook = true → r.Fresh := by
  have hrun : (checkedRun step (fun s a => decide (Cleared s a)) (.init : Sockets (Fin 2))
      recycledRun).any (fun s => decide (s.returned.length = 2)) := by decide
  obtain ⟨s, hr, hlength⟩ := exists_some_of_any hrun
  exact ⟨s, hr, hlength, (new_socket_fresh (.of_decidedRun hr)).1⟩

/-- The same with hooks disabled at the `close`. -/
def unhookedRun : List (Action (Fin 2)) :=
  [.socket 0 true 5 false, .next 0, .next 0, .set 5 (.userNonblock true), .close 0 false 5,
    .next 0, .accept 1 true 5, .next 1]

theorem new_socket_stale :
    ¬ ∀ s : Sockets (Fin 2), Reaches step Free .init s →
      ∀ r ∈ s.returned, r.hook = true → r.Fresh := by
  intro h
  have hrun : (run step (.init : Sockets (Fin 2)) unhookedRun).any (fun s =>
      decide (∃ r ∈ s.returned, r.hook = true ∧ r.madeFor = some 1 ∧ r.file = 2 ∧
        r.ctx.userNonblock = true ∧ r.nonblock = false)) := by decide
  obtain ⟨s, hr, r, hmem, hhook, hmade, hfile, _⟩ := exists_some_of_any hrun
  have hfresh := (h s (.of_run hr) r hmem hhook).madeFor
  rw [hmade, hfile] at hfresh
  cases hfresh

end Sylar.Recycled
