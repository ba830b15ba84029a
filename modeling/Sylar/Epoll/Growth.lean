import Sylar.Epoll.Waiters

/-! # `m_fdContexts` while it grows

The calls of the event interface with their locks apart: the lookup under the read lock, the
resize of `addEvent` under the write lock, and the section under `fd_ctx->mutex`, which does
to the context that the thread holds what the operation of `IOManager` does. The table holds
pointers, numbered as they are allocated, so a context that the table drops is still there for
a thread that holds it.
-/

namespace Sylar.Epoll

open Transition

variable {ι : Type*}

/-! ## One operation stays on its descriptor -/

def Action.fd : Action → Nat
  | .addEvent _ fd _ _ _ => fd
  | .delEvent fd _ _ => fd
  | .cancelEvent fd _ _ => fd
  | .cancelAll fd _ => fd
  | .dispatch fd _ _ => fd
  | .closeFd fd => fd

def Action.isAddEvent : Action → Bool
  | .addEvent .. => true
  | .delEvent .. | .cancelEvent .. | .cancelAll .. | .dispatch .. | .closeFd _ => false

/-- Only the context of `fd` was written, and it is still that of its descriptor. -/
structure Stored (fd : Nat) (m : IOManager) (c : FdContext) (m' : IOManager) (c' : FdContext) :
    Prop where
  table : m'.fdContexts = m.fdContexts.set fd c'
  fd_eq : c'.fd = c.fd

theorem Stored.refl {fd : Nat} {m : IOManager} {c : FdContext} (hc : m.fdContexts[fd]? = some c) :
    Stored fd m c m c := by
  refine ⟨?_, rfl⟩
  obtain ⟨hlt, hget⟩ := List.getElem?_eq_some_iff.mp hc
  rw [← hget, List.set_getElem_self]

theorem Stored.trans {fd : Nat} {m m₁ m₂ : IOManager} {c c₁ c₂ : FdContext}
    (h₁ : Stored fd m c m₁ c₁) (h₂ : Stored fd m₁ c₁ m₂ c₂) : Stored fd m c m₂ c₂ :=
  ⟨by rw [h₂.table, h₁.table, List.set_set], h₂.fd_eq.trans h₁.fd_eq⟩

theorem Stored.getElem? {fd : Nat} {m m' : IOManager} {c c' : FdContext} (h : Stored fd m c m' c')
    (hc : m.fdContexts[fd]? = some c) : m'.fdContexts[fd]? = some c' := by
  rw [h.table, List.getElem?_set_self (List.getElem?_eq_some_iff.mp hc).1]

theorem Stored.of_epollCtl {m u m' : IOManager} {fd : Nat} {c c' : FdContext} {op : EpollOp}
    {events : Mask} {granted : Bool} (hctl : m.epollCtl op fd events granted = some u)
    (h : Stored fd u c m' c') : Stored fd m c m' c' :=
  ⟨by rw [h.table, epollCtl_table hctl], h.fd_eq⟩

theorem FdContext.triggerEvent_fd {c c' : FdContext} {e : Event} {w : Scheduled}
    (h : c.triggerEvent e = .ok (c', w)) : c'.fd = c.fd := by
  unfold FdContext.triggerEvent at h
  split at h
  · cases h
  · dsimp only at h
    split at h
    · cases h
    · split at h
      · cases h
      · split at h <;> cases h <;> exact FdContext.setContext_fd ..

theorem IOManager.triggerPending_stored {m m' : IOManager} {fd : Nat} {c c' : FdContext}
    {e : Event} (h : m.triggerPending fd c e = .ok (c', m')) : Stored fd m c m' c' := by
  unfold triggerPending at h
  split at h <;> cases h
  rename_i w htrigger
  exact ⟨rfl, FdContext.triggerEvent_fd htrigger⟩

theorem Triggered.stored {fd : Nat} {m m' : IOManager} {c c' : FdContext}
    (h : Triggered fd m c m' c') (hc : m.fdContexts[fd]? = some c) : Stored fd m c m' c' := by
  induction h with
  | refl => exact .refl hc
  | tail _ htrigger ih => exact ih.trans (IOManager.triggerPending_stored htrigger)

theorem Fires.stored {fd : Nat} {m m' : IOManager} (h : Fires fd m m') {c : FdContext}
    (hc : m.fdContexts[fd]? = some c) : ∃ c', Stored fd m c m' c' := by
  cases h with
  | early => exact ⟨c, .refl hc⟩
  | granted _ hc' hctl hfired =>
      cases hc.symm.trans hc'
      exact ⟨_, .of_epollCtl hctl (hfired.stored ((epollCtl_table hctl).symm ▸ hc))⟩

theorem IOManager.addEvent_stored {m : IOManager} {caller : Caller} {fd : Nat} {event : Event}
    {cb : Option Cb} {granted : Bool} {r : Int × IOManager} {c : FdContext}
    (hc : m.fdContexts[fd]? = some c) (hr : m.addEvent caller fd event cb granted = .ok r) :
    ∃ c', Stored fd m c r.2 c' := by
  obtain ⟨c₁, hc₁, -, rfl | ⟨u, hctl, rfl⟩⟩ :=
    IOManager.addEvent_cases (if_pos (List.getElem?_eq_some_iff.mp hc).1) hr
  · exact ⟨c, .refl hc⟩
  · cases hc.symm.trans hc₁
    exact ⟨_, .of_epollCtl hctl ⟨rfl, FdContext.setContext_fd ..⟩⟩

theorem IOManager.delEvent_stored {m : IOManager} {fd : Nat} {event : Event} {granted : Bool}
    {r : Bool × IOManager} {c : FdContext} (hc : m.fdContexts[fd]? = some c)
    (hr : m.delEvent fd event granted = .ok r) : ∃ c', Stored fd m c r.2 c' := by
  simp only [IOManager.delEvent, hc] at hr
  split at hr
  · cases hr
    exact ⟨c, .refl hc⟩
  · split at hr
    · cases hr
      exact ⟨c, .refl hc⟩
    · rename_i u hctl
      split at hr <;> cases hr
      exact ⟨_, .of_epollCtl hctl ⟨rfl, FdContext.setContext_fd ..⟩⟩

theorem exists_of_map_eq_ok {ε α β : Type*} {x : Except ε α} {f : α → β} {b : β}
    (h : x.map f = .ok b) : ∃ a, x = .ok a ∧ f a = b := by
  cases x with
  | error e => cases h
  | ok a => exact ⟨a, rfl, Except.ok.inj h⟩

/-- Every call writes the context of its descriptor only. -/
theorem IOManager.act_stored {m m' : IOManager} {a : Action} (ha : a.isCall = true)
    {c : FdContext} (hc : m.fdContexts[a.fd]? = some c) (hm : m.act a = .ok m') :
    ∃ c', Stored a.fd m c m' c' := by
  cases a with
  | addEvent caller fd event cb granted =>
      obtain ⟨r, hr, rfl⟩ := exists_of_map_eq_ok hm
      exact IOManager.addEvent_stored hc hr
  | delEvent fd event granted =>
      obtain ⟨r, hr, rfl⟩ := exists_of_map_eq_ok hm
      exact IOManager.delEvent_stored hc hr
  | cancelEvent fd event granted =>
      obtain ⟨r, hr, rfl⟩ := exists_of_map_eq_ok hm
      exact (IOManager.cancelEvent_fires hr).stored hc
  | cancelAll fd granted =>
      obtain ⟨r, hr, rfl⟩ := exists_of_map_eq_ok hm
      exact (IOManager.cancelAll_fires hr).stored hc
  | dispatch fd report granted => cases ha
  | closeFd fd => cases ha

/-! ## State -/

/-- Where a thread stands in a call: before the write-locked section of `addEvent`, or before
the section of the context that it holds. -/
inductive Phase where
  | idle
  | grow (call : Action)
  | locked (call : Action) (ctx : Nat)
  deriving DecidableEq, Repr

/-- `fdContexts` are the pointers of the table, and `heap` the contexts that were allocated,
at addresses below `allocated`. -/
structure Contexts (ι : Type*) where
  fdContexts : List Nat
  heap : Nat → FdContext
  allocated : Nat
  pendingEventCount : Nat
  interest : Nat → Option Mask
  scheduled : List Scheduled
  underflows : Nat
  threads : ι → Phase

/-- The manager that the table stands for. -/
def Contexts.iom (s : Contexts ι) : IOManager :=
  ⟨s.fdContexts.map s.heap, s.pendingEventCount, s.interest, s.scheduled, s.underflows⟩

/-- `INT_MAX + 1`. -/
def intLimit : Nat := 2 ^ 31

/-- The conversion from `size_t` to `int`. -/
def toInt (size : Nat) : Int :=
  let low := size % (2 * intLimit)
  if low < intLimit then low else (low : Int) - (2 * intLimit : Nat)

/-- `(int)m_fdContexts.size()`. -/
def Contexts.size (s : Contexts ι) : Int := toInt s.fdContexts.length

/-- The read-locked section: `m_fdContexts[fd]` if the size is greater than `fd`. -/
def Contexts.lookup (s : Contexts ι) (fd : Nat) : Option Nat :=
  if (fd : Int) < s.size then s.fdContexts[fd]? else none

/-- `contextResize`. -/
def Contexts.resize (s : Contexts ι) (size : Nat) : Contexts ι :=
  let fresh := size - s.fdContexts.length
  { s with
    fdContexts := s.fdContexts.take size ++ List.range' s.allocated fresh
    heap := fun a =>
      if s.allocated ≤ a ∧ a < s.allocated + fresh then
        FdContext.new (s.fdContexts.length + (a - s.allocated))
      else s.heap a
    allocated := s.allocated + fresh }

def Contexts.init : Contexts ι :=
  Contexts.resize ⟨[], fun _ => FdContext.new 0, 0, 0, fun _ => none, [], 0, fun _ => .idle⟩ 32

/-- The manager with the context at `ctx` as that of `fd`, in a table that reaches so far. -/
def Contexts.through (s : Contexts ι) (fd : Nat) (ctx : Nat) : IOManager :=
  { s.iom with
    fdContexts := (s.fdContexts.map s.heap ++
      List.replicate (fd + 1 - s.fdContexts.length) (FdContext.new 0)).set fd (s.heap ctx) }

/-- What the manager holds for `fd` is stored at `ctx`, and the rest is taken over. -/
def Contexts.store (s : Contexts ι) (fd : Nat) (ctx : Nat) (m : IOManager) : Contexts ι :=
  { s with
    heap := Function.update s.heap ctx (m.fdContexts.getD fd (s.heap ctx))
    pendingEventCount := m.pendingEventCount
    interest := m.interest
    scheduled := m.scheduled
    underflows := m.underflows }

inductive ThreadStep (ι : Type*) where
  /-- the lookup of a call -/
  | call (th : ι) (a : Action)
  /-- the next section -/
  | next (th : ι)

inductive GrowthFault where
  /-- `m_fdContexts[fd]` after the resize, outside the table -/
  | index (fd size : Nat)
  | call (failure : Failure)
  deriving DecidableEq, Repr

def Contexts.at [DecidableEq ι] (s : Contexts ι) (th : ι) (phase : Phase) : Contexts ι :=
  { s with threads := Function.update s.threads th phase }

def Contexts.begin [DecidableEq ι] (s : Contexts ι) (th : ι) (a : Action) : Contexts ι :=
  match s.lookup a.fd with
  | some ctx => s.at th (.locked a ctx)
  -- without a context `addEvent` goes on, and the other calls return `false`
  | none => if a.isAddEvent then s.at th (.grow a) else s

/-- The write-locked section of `addEvent`. -/
def Contexts.grow [DecidableEq ι] (s : Contexts ι) (th : ι) (a : Action) :
    Except GrowthFault (Contexts ι) :=
  let s := s.resize (a.fd * 3 / 2)
  match s.fdContexts[a.fd]? with
  | none => .error (.index a.fd s.fdContexts.length)
  | some ctx => .ok (s.at th (.locked a ctx))

/-- The section under `fd_ctx->mutex`. -/
def Contexts.finish [DecidableEq ι] (s : Contexts ι) (th : ι) (a : Action) (ctx : Nat) :
    Except GrowthFault (Contexts ι) :=
  match (s.through a.fd ctx).act a with
  | .error e => .error (.call e)
  | .ok m => .ok ((s.store a.fd ctx m).at th .idle)

def growthOp [DecidableEq ι] (s : Contexts ι) :
    ThreadStep ι → Option (Except GrowthFault (Contexts ι))
  | .call th a =>
      if s.threads th = .idle ∧ a.isCall = true ∧ a.fd < intLimit then some (.ok (s.begin th a))
      else none
  | .next th =>
      match s.threads th with
      | .idle => none
      | .grow a => some (s.grow th a)
      | .locked a ctx => some (s.finish th a ctx)

def growthStep [DecidableEq ι] : Except GrowthFault (Contexts ι) → ThreadStep ι →
    Option (Except GrowthFault (Contexts ι)) := abortable growthOp

/-! ## Resizes that grow the table -/

/-- A write-locked section finds no more contexts than it is going to leave, and these can be
counted in an `int`. -/
def Phase.Grows (size : Nat) : Phase → Prop
  | .grow a => size ≤ a.fd * 3 / 2 ∧ a.fd * 3 / 2 < intLimit
  | .idle => True
  | .locked _ _ => True

instance (size : Nat) : (phase : Phase) → Decidable (phase.Grows size)
  | .grow a => inferInstanceAs (Decidable (size ≤ a.fd * 3 / 2 ∧ a.fd * 3 / 2 < intLimit))
  | .idle => isTrue trivial
  | .locked _ _ => isTrue trivial

def Growing (s : Contexts ι) : ThreadStep ι → Prop
  | .call _ _ => True
  | .next th => (s.threads th).Grows s.fdContexts.length

instance (s : Contexts ι) : (a : ThreadStep ι) → Decidable (Growing s a)
  | .call _ _ => isTrue trivial
  | .next th => inferInstanceAs (Decidable ((s.threads th).Grows s.fdContexts.length))

/-- Every context that was allocated is the one of its descriptor, and every thread holds or
will find the one of its call. -/
structure Kept (s : Contexts ι) : Prop where
  table : s.fdContexts = List.range s.allocated
  size : 32 ≤ s.allocated ∧ s.allocated < intLimit
  fds : ∀ ctx < s.allocated, (s.heap ctx).fd = ctx
  free : ∀ ctx, s.allocated ≤ ctx → (s.heap ctx).events = 0
  held : ∀ th a ctx, s.threads th = .locked a ctx →
    a.isCall = true ∧ ctx = a.fd ∧ ctx < s.allocated
  growing : ∀ th a, s.threads th = .grow a → a.isCall = true ∧ 32 ≤ a.fd ∧ a.fd < intLimit

variable {s t : Contexts ι}

theorem Kept.length_eq (h : Kept s) : s.fdContexts.length = s.allocated := by
  rw [h.table, List.length_range]

theorem toInt_of_lt {size : Nat} (hsize : size < intLimit) : toInt size = size := by
  have hlow : size % (2 * intLimit) = size := Nat.mod_eq_of_lt (by omega)
  rw [toInt, hlow]
  exact if_pos hsize

theorem toInt_neg {size : Nat} (hge : intLimit ≤ size) (hlt : size < 2 * intLimit) :
    toInt size < 0 := by
  rw [toInt, Nat.mod_eq_of_lt hlt, if_neg (Nat.not_lt.mpr hge)]
  omega

theorem Kept.size_eq (h : Kept s) : s.size = s.allocated := by
  rw [Contexts.size, h.length_eq, toInt_of_lt h.size.2]

theorem Kept.lookup_eq (h : Kept s) (fd : Nat) :
    s.lookup fd = if fd < s.allocated then some fd else none := by
  have hsize := h.size_eq
  rw [Contexts.lookup, hsize, h.table]
  by_cases hfd : fd < s.allocated
  · rw [if_pos (Int.ofNat_lt.mpr hfd), if_pos hfd, List.getElem?_range hfd]
  · rw [if_neg (fun hlt => hfd (Int.ofNat_lt.mp hlt)), if_neg hfd]

theorem kept_init : Kept (Contexts.init : Contexts ι) := by
  have hallocated : (Contexts.init : Contexts ι).allocated = 32 := rfl
  refine ⟨rfl, by rw [hallocated]; decide, fun ctx hctx => ?_, fun ctx hctx => ?_,
    fun _ _ _ hphase => (by cases hphase), fun _ _ hphase => (by cases hphase)⟩
  · rw [hallocated] at hctx
    have hnew : 0 ≤ ctx ∧ ctx < 0 + (32 - 0) := by omega
    simp only [Contexts.init, Contexts.resize, List.length_nil, if_pos hnew, FdContext.new]
    omega
  · rw [hallocated] at hctx
    have hold : ¬ (0 ≤ ctx ∧ ctx < 0 + (32 - 0)) := by omega
    simp only [Contexts.init, Contexts.resize, List.length_nil, if_neg hold]
    rfl

/-! ## One section -/

theorem Kept.resize_table (h : Kept s) {size : Nat} (hsize : s.allocated ≤ size) :
    (s.resize size).fdContexts = List.range size ∧ (s.resize size).allocated = size := by
  have hall : s.allocated + (size - s.allocated) = size := by omega
  have htake : s.fdContexts.take size = List.range s.allocated := by
    rw [h.table, List.take_range, Nat.min_eq_right hsize]
  have hrange : List.range s.allocated ++ List.range' s.allocated (size - s.allocated) =
      List.range size := by
    have happend := List.range'_append_1 (s := 0) (m := s.allocated) (n := size - s.allocated)
    rwa [Nat.zero_add, hall, ← List.range_eq_range', ← List.range_eq_range'] at happend
  constructor
  · simp only [Contexts.resize, h.length_eq, htake, hrange]
  · simp only [Contexts.resize, h.length_eq, hall]

theorem Kept.resize_heap (h : Kept s) (size : Nat) (ctx : Nat) :
    (s.resize size).heap ctx =
      if s.allocated ≤ ctx ∧ ctx < s.allocated + (size - s.allocated) then FdContext.new ctx
      else s.heap ctx := by
  simp only [Contexts.resize, h.length_eq]
  split
  · next hnew => rw [Nat.add_sub_of_le hnew.1]
  · rfl

/-- A resize that does not shrink keeps every context. -/
theorem Kept.resize (h : Kept s) {size : Nat} (hsize : s.allocated ≤ size) (hlt : size < intLimit) :
    Kept (s.resize size) := by
  obtain ⟨htable, hallocated⟩ := h.resize_table hsize
  refine ⟨by rw [htable, hallocated], ?_, fun ctx hctx => ?_, fun ctx hctx => ?_,
    fun th a ctx hphase => ?_, h.growing⟩
  · rw [hallocated]
    exact ⟨h.size.1.trans hsize, hlt⟩
  · rw [hallocated] at hctx
    rw [h.resize_heap]
    split
    · rfl
    · exact h.fds ctx (by omega)
  · rw [hallocated] at hctx
    rw [h.resize_heap, if_neg (by omega)]
    exact h.free ctx (by omega)
  · obtain ⟨hcall, hctx, hheld⟩ := h.held th a ctx hphase
    rw [hallocated]
    exact ⟨hcall, hctx, by omega⟩

theorem Kept.resize_iom (h : Kept s) {size : Nat} (hsize : s.allocated ≤ size) :
    (s.resize size).iom =
      { s.iom with fdContexts := contextResize s.iom.fdContexts size } := by
  have hlength : s.iom.fdContexts.length = s.allocated := by
    rw [Contexts.iom, List.length_map, h.length_eq]
  have hcontexts : (s.resize size).iom.fdContexts = contextResize s.iom.fdContexts size := by
    refine List.ext_getElem? fun fd => ?_
    rw [contextResize_getElem? (hlength.trans_le hsize), hlength]
    simp only [Contexts.iom, (h.resize_table hsize).1, h.table, List.getElem?_map]
    by_cases hfd : fd < s.allocated
    · rw [if_pos hfd, List.getElem?_range (by omega), List.getElem?_range hfd]
      simp only [Option.map_some, h.resize_heap]
      rw [if_neg (by omega)]
    · rw [if_neg hfd]
      by_cases hnew : fd < size
      · rw [if_pos hnew, List.getElem?_range hnew]
        simp only [Option.map_some, h.resize_heap]
        rw [if_pos (by omega)]
      · rw [if_neg hnew, List.getElem?_eq_none (by simpa using hnew)]
        rfl
  rw [← hcontexts]
  rfl

theorem Kept.iom_getElem? (h : Kept s) {fd : Nat} (hfd : fd < s.allocated) :
    s.iom.fdContexts[fd]? = some (s.heap fd) := by
  rw [Contexts.iom, h.table, List.getElem?_map, List.getElem?_range hfd, Option.map_some]

/-- The section of a held context works on the manager that the table stands for. -/
theorem Kept.through_eq (h : Kept s) {fd : Nat} (hfd : fd < s.allocated) :
    s.through fd fd = s.iom := by
  have hlength : fd + 1 - s.fdContexts.length = 0 := by
    rw [h.length_eq]
    omega
  have hset : (s.fdContexts.map s.heap).set fd (s.heap fd) = s.fdContexts.map s.heap := by
    obtain ⟨hlt, hget⟩ := List.getElem?_eq_some_iff.mp (h.iom_getElem? hfd)
    have hself := List.set_getElem_self hlt
    rwa [hget] at hself
  rw [Contexts.through, hlength, List.replicate_zero, List.append_nil, hset]
  rfl

theorem map_update_range {α : Type*} (f : Nat → α) (n i : Nat) (x : α) :
    (List.range n).map (Function.update f i x) = ((List.range n).map f).set i x := by
  refine List.ext_getElem? fun k => ?_
  rw [List.getElem?_set, List.getElem?_map, List.getElem?_map, List.length_map]
  by_cases hk : i = k
  · subst hk
    by_cases hi : i < n <;> simp [hi]
  · have hne : ∀ j, (List.range n)[k]? = some j → j ≠ i := by
      intro j hj
      obtain ⟨hlt, hget⟩ := List.getElem?_eq_some_iff.mp hj
      rw [List.getElem_range] at hget
      omega
    rw [if_neg hk]
    cases hj : (List.range n)[k]? with
    | none => rfl
    | some j => simp [Function.update_of_ne (hne j hj)]

theorem Kept.store_iom (h : Kept s) {fd : Nat} (hfd : fd < s.allocated) {m : IOManager}
    {c : FdContext} (hm : Stored fd s.iom (s.heap fd) m c) : (s.store fd fd m).iom = m := by
  have hget : m.fdContexts.getD fd (s.heap fd) = c := by
    rw [List.getD_eq_getElem?_getD, hm.getElem? (h.iom_getElem? hfd), Option.getD_some]
  have hcontexts : (s.store fd fd m).iom.fdContexts = m.fdContexts := by
    simp only [Contexts.iom, Contexts.store, hget, h.table, map_update_range]
    rw [hm.table, Contexts.iom, h.table]
  obtain ⟨contexts, pending, interest, scheduled, underflows⟩ := m
  simp only [Contexts.iom, Contexts.store] at hcontexts ⊢
  rw [hcontexts]

theorem Kept.store (h : Kept s) {fd : Nat} (hfd : fd < s.allocated) {m : IOManager}
    {c : FdContext} (hm : Stored fd s.iom (s.heap fd) m c) : Kept (s.store fd fd m) := by
  have hget : m.fdContexts.getD fd (s.heap fd) = c := by
    rw [List.getD_eq_getElem?_getD, hm.getElem? (h.iom_getElem? hfd), Option.getD_some]
  refine ⟨h.table, h.size, fun ctx hctx => ?_, fun ctx hctx => ?_, h.held, h.growing⟩
  · simp only [Contexts.store, hget]
    by_cases heq : ctx = fd
    · rw [heq, Function.update_self, hm.fd_eq, h.fds fd hfd]
    · rw [Function.update_of_ne heq, h.fds ctx hctx]
  · have hne : ctx ≠ fd := (hfd.trans_le hctx).ne'
    simp only [Contexts.store, Function.update_of_ne hne]
    exact h.free ctx hctx

theorem Kept.lookup_registered (h : Kept s) {ctx : Nat} {event : Event}
    (hset : (s.heap ctx).events &&& event.bits ≠ 0) : s.lookup (s.heap ctx).fd = some ctx := by
  have hctx : ctx < s.allocated := by
    by_contra hge
    rw [h.free ctx (Nat.not_lt.mp hge)] at hset
    exact hset BitVec.zero_and
  rw [h.fds ctx hctx, h.lookup_eq, if_pos hctx]

theorem Kept.lookup_held (h : Kept s) {th : ι} {a : Action} {ctx : Nat}
    (hphase : s.threads th = .locked a ctx) :
    s.lookup a.fd = some ctx ∧ (s.heap ctx).fd = a.fd := by
  obtain ⟨-, rfl, hlt⟩ := h.held th a ctx hphase
  rw [h.lookup_eq, if_pos hlt]
  exact ⟨rfl, h.fds a.fd hlt⟩

theorem Kept.at [DecidableEq ι] (h : Kept s) {th : ι} {phase : Phase}
    (hheld : ∀ a ctx, phase = .locked a ctx → a.isCall = true ∧ ctx = a.fd ∧ ctx < s.allocated)
    (hgrow : ∀ a, phase = .grow a → a.isCall = true ∧ 32 ≤ a.fd ∧ a.fd < intLimit) :
    Kept (s.at th phase) := by
  refine ⟨h.table, h.size, h.fds, h.free, fun u a ctx hu => ?_, fun u a hu => ?_⟩
  · simp only [Contexts.at] at hu
    by_cases heq : u = th
    · rw [heq, Function.update_self] at hu
      exact hheld a ctx hu
    · rw [Function.update_of_ne heq] at hu
      exact h.held u a ctx hu
  · simp only [Contexts.at] at hu
    by_cases heq : u = th
    · rw [heq, Function.update_self] at hu
      exact hgrow a hu
    · rw [Function.update_of_ne heq] at hu
      exact h.growing u a hu

/-! ## Steps -/

/-- How a step moves the manager: not at all, by a resize that does not shrink it, or by the
whole operation of a call. -/
def Moves (m m' : IOManager) : Prop :=
  m' = m ∨
  (∃ size, m.fdContexts.length ≤ size ∧
    m' = { m with fdContexts := contextResize m.fdContexts size }) ∨
  ∃ a, a.isCall = true ∧ m.act a = .ok m'

structure Extends (s t : Contexts ι) : Prop where
  kept : Kept t
  grows : s.allocated ≤ t.allocated
  moves : Moves s.iom t.iom

variable [DecidableEq ι]

theorem Kept.begin (h : Kept s) {th : ι} {a : Action} (hcall : a.isCall = true)
    (hmax : a.fd < intLimit) : Extends s (s.begin th a) := by
  rw [Contexts.begin, h.lookup_eq]
  by_cases hfd : a.fd < s.allocated
  · rw [if_pos hfd]
    refine ⟨h.at (fun b ctx hb => ?_) (fun b hb => by cases hb), le_rfl, .inl rfl⟩
    cases hb
    exact ⟨hcall, rfl, hfd⟩
  · rw [if_neg hfd]
    dsimp only
    split
    · have hlarge : 32 ≤ a.fd := h.size.1.trans (Nat.not_lt.mp hfd)
      refine ⟨h.at (fun b ctx hb => by cases hb) (fun b hb => ?_), le_rfl, .inl rfl⟩
      cases hb
      exact ⟨hcall, hlarge, hmax⟩
    · exact ⟨h, le_rfl, .inl rfl⟩

/-- The write-locked section of `addEvent` under the guard. -/
theorem Kept.grow (h : Kept s) {th : ι} {a : Action} (hphase : s.threads th = .grow a)
    (hsize : s.allocated ≤ a.fd * 3 / 2) (hlt : a.fd * 3 / 2 < intLimit) :
    ∃ t, s.grow th a = .ok t ∧ Extends s t := by
  obtain ⟨hcall, hlarge, -⟩ := h.growing th a hphase
  have hinside : a.fd < a.fd * 3 / 2 := by omega
  obtain ⟨htable, hallocated⟩ := h.resize_table hsize
  have hresize := h.resize hsize hlt
  refine ⟨(s.resize (a.fd * 3 / 2)).at th (.locked a a.fd), ?_,
    hresize.at (fun b ctx hb => ?_) (fun b hb => by cases hb), ?_, .inr (.inl ?_)⟩
  · simp only [Contexts.grow, htable, List.getElem?_range hinside]
  · cases hb
    exact ⟨hcall, rfl, hallocated.symm ▸ hinside⟩
  · exact hsize.trans_eq hallocated.symm
  · refine ⟨a.fd * 3 / 2, ?_, h.resize_iom hsize⟩
    simpa only [Contexts.iom, List.length_map, h.length_eq] using hsize

theorem Kept.finish (h : Kept s) {th : ι} {a : Action} {ctx : Nat}
    (hphase : s.threads th = .locked a ctx) :
    Holds (Extends s) (fun e => ∃ failure, e = .call failure) (s.finish th a ctx) := by
  obtain ⟨hcall, rfl, hfd⟩ := h.held th a ctx hphase
  rw [Contexts.finish, h.through_eq hfd]
  cases hm : s.iom.act a with
  | error e => exact ⟨e, rfl⟩
  | ok m =>
      obtain ⟨c, hstored⟩ := IOManager.act_stored hcall (h.iom_getElem? hfd) hm
      have hstore := h.store hfd hstored
      refine ⟨hstore.at (fun b ctx hb => by cases hb) (fun b hb => by cases hb), le_rfl,
        .inr (.inr ⟨a, hcall, ?_⟩)⟩
      rw [hm]
      exact congrArg Except.ok (h.store_iom hfd hstored).symm

theorem Kept.op (h : Kept s) {a : ThreadStep ι} (ha : Growing s a)
    {r : Except GrowthFault (Contexts ι)} (hr : growthOp s a = some r) :
    Holds (Extends s) (fun e => ∃ failure, e = .call failure) r := by
  cases a with
  | call th a =>
      unfold growthOp at hr
      dsimp only at hr
      split at hr
      · next hidle =>
          cases hr
          exact h.begin hidle.2.1 hidle.2.2
      · cases hr
  | next th =>
      simp only [Growing] at ha
      unfold growthOp at hr
      dsimp only at hr
      cases hphase : s.threads th with
      | idle =>
          rw [hphase] at hr
          cases hr
      | grow a =>
          rw [hphase] at hr ha
          cases hr
          rw [h.length_eq] at ha
          obtain ⟨t, ht, hextends⟩ := h.grow hphase ha.1 ha.2
          rw [ht]
          exact hextends
      | locked a ctx =>
          rw [hphase] at hr
          cases hr
          exact h.finish hphase

/-! ## Every run -/

/-- A call ends in an assertion of its own or keeps the table. -/
def Faultless : Except GrowthFault (Contexts ι) → Prop :=
  Holds Kept fun e => ∃ failure, e = .call failure

theorem kept_step : Preserves (growthStep : _ → ThreadStep ι → _) (onOk Growing) Faultless := by
  refine preserves_abortable fun s a r h ha hr => ?_
  have hop := h.op ha hr
  cases r with
  | ok t => exact hop.kept
  | error e => exact hop

theorem Kept.prefix_later (h : Kept s)
    (hreach : Reaches growthStep (onOk Growing) (.ok s) (.ok t)) :
    s.fdContexts <+: t.fdContexts := by
  have hstep : Preserves (growthStep : _ → ThreadStep ι → _) (onOk Growing)
      (Holds (fun u => Kept u ∧ s.allocated ≤ u.allocated) fun _ => True) := by
    refine preserves_abortable fun u a r hu ha hr => ?_
    have hop := hu.1.op ha hr
    cases r with
    | ok v => exact ⟨hop.kept, hu.2.trans hop.grows⟩
    | error e => trivial
  obtain ⟨hkept, hle⟩ := hreach.invariant hstep ⟨h, le_rfl⟩
  rw [h.table, hkept.table, List.prefix_iff_eq_take, List.length_range, List.take_range,
    Nat.min_eq_left hle]

/-- A write-locked section that does not grow the table drops contexts, or leaves a size that
no lookup passes. -/
theorem Kept.shrinks (h : Kept s) {a : ThreadStep ι} (ha : ¬ Growing s a)
    (ht : growthOp s a = some (.ok t)) :
    t.fdContexts.length < s.fdContexts.length ∨ ∀ fd, t.lookup fd = none := by
  cases a with
  | call th a => exact (ha trivial).elim
  | next th =>
      simp only [Growing] at ha
      unfold growthOp at ht
      dsimp only at ht
      cases hphase : s.threads th with
      | idle =>
          rw [hphase] at ht
          cases ht
      | locked a ctx =>
          rw [hphase] at ha
          exact (ha trivial).elim
      | grow a =>
          rw [hphase] at ha ht
          obtain ⟨-, -, hmax⟩ := h.growing th a hphase
          have htable : t.fdContexts = (s.resize (a.fd * 3 / 2)).fdContexts := by
            rw [Option.some.injEq, Contexts.grow] at ht
            split at ht <;> cases ht
            rfl
          by_cases hsize : s.allocated ≤ a.fd * 3 / 2
          · right
            intro fd
            have hlimit : intLimit ≤ a.fd * 3 / 2 := by
              by_contra hlt
              exact ha ⟨h.length_eq.trans_le hsize, Nat.not_le.mp hlt⟩
            have hneg : toInt (a.fd * 3 / 2) < 0 := toInt_neg hlimit (by omega)
            rw [Contexts.lookup, Contexts.size, htable, (h.resize_table hsize).1,
              List.length_range, if_neg (by omega)]
          · left
            rw [htable, h.length_eq]
            simp only [Contexts.resize, h.length_eq, List.length_append, List.length_take,
              List.length_range']
            omega

/-- Under growing resizes no context is ever dropped or replaced, the index after a resize is
inside, and every registered event is found under its descriptor; a resize that does not grow
drops contexts at once or hides them all. -/
theorem contexts_stable {r : Except GrowthFault (Contexts ι)}
    (h : Reaches growthStep (onOk Growing) (.ok .init) r) :
    (∀ fd size, r ≠ .error (.index fd size)) ∧
    ∀ s, r = .ok s →
      (∀ t, Reaches growthStep (onOk Growing) (.ok s) (.ok t) → s.fdContexts <+: t.fdContexts) ∧
      (∀ th a ctx, s.threads th = .locked a ctx →
        s.lookup a.fd = some ctx ∧ (s.heap ctx).fd = a.fd) ∧
      (∀ ctx event, (s.heap ctx).events &&& Event.bits event ≠ 0 →
        s.lookup (s.heap ctx).fd = some ctx) ∧
      ∀ a t, growthOp s a = some (.ok t) → ¬ Growing s a →
        t.fdContexts.length < s.fdContexts.length ∨ ∀ fd, t.lookup fd = none := by
  have hinv : Faultless r := h.invariant kept_step kept_init
  refine ⟨fun fd size hr => ?_, fun s hs => ?_⟩
  · rw [hr] at hinv
    obtain ⟨failure, hfailure⟩ := hinv
    cases hfailure
  · rw [hs] at hinv
    have hkept : Kept s := hinv
    exact ⟨fun t ht => hkept.prefix_later ht, fun th a ctx => hkept.lookup_held,
      fun ctx event => hkept.lookup_registered, fun a t ht ha => hkept.shrinks ha ht⟩

/-- The sections of the calls are the steps of the manager, with the resizes apart. -/
theorem contexts_refine (h : Reaches growthStep (onOk Growing) (.ok .init) (.ok s))
    {a : ThreadStep ι} (ha : Growing s a) (ht : growthOp s a = some (.ok t)) :
    Moves s.iom t.iom := by
  have hkept : Faultless (.ok s) := h.invariant kept_step kept_init
  exact (Kept.op hkept ha ht).moves

/-- `addEvent(fd, READ)` of a fiber on a worker. -/
def addRead (fd : Nat) : Action := .addEvent ⟨some 0, 7, .exec⟩ fd .read none true

/-- One call grows the table, while the other registers inside it. -/
def growingRun : List (ThreadStep (Fin 2)) :=
  [.call 0 (addRead 100), .call 1 (addRead 5), .next 0, .next 1, .next 0]

theorem contexts_stable_sample :
    ∃ s : Contexts (Fin 2),
      checkedRun growthStep (fun s a => decide (onOk Growing s a)) (.ok .init) growingRun =
        some (.ok s) ∧ s.fdContexts.length = 150 ∧ s.lookup 100 = some 100 := by
  have hrun : (checkedRun growthStep (fun s a => decide (onOk Growing s a))
      (.ok (.init : Contexts (Fin 2))) growingRun).any (okAnd fun s =>
        decide (s.fdContexts.length = 150 ∧ (s.heap 100).fd = 100 ∧
          (s.heap 100).events &&& Event.read.bits ≠ 0)) := by decide +kernel
  obtain ⟨s, hr, hlength, hfd, hset⟩ := exists_ok_of_any hrun
  have hfound := ((contexts_stable (.of_decidedRun hr)).2 s rfl).2.2.1 100 .read hset
  rw [hfd] at hfound
  exact ⟨s, hr, hlength, hfound⟩

/-- Both calls find 32 contexts; the one with the larger descriptor resizes and registers
first. -/
def shrinkingRun : List (ThreadStep (Fin 2)) :=
  [.call 0 (addRead 32), .call 1 (addRead 100), .next 1, .next 1, .next 0]

theorem resize_drops_registered :
    ∃ s : Contexts (Fin 2), Reaches growthStep Free (.ok .init) (.ok s) ∧
      s.fdContexts.length = 48 ∧ (s.heap 100).fd = 100 ∧
      (s.heap 100).events = Event.read.bits ∧ s.lookup 100 = none := by
  have hrun : (run growthStep (.ok (.init : Contexts (Fin 2))) shrinkingRun).any (okAnd fun s =>
        decide (s.fdContexts.length = 48 ∧ (s.heap 100).fd = 100 ∧
          (s.heap 100).events = Event.read.bits ∧ s.lookup 100 = none)) := by decide +kernel
  obtain ⟨s, hr, hs⟩ := exists_ok_of_any hrun
  exact ⟨s, .of_run hr, hs⟩

end Sylar.Epoll
