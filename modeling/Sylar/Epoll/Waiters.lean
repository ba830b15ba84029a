import Sylar.Epoll.Bookkeeping

/-! # The fibers that wait for events

Which fibers the table names, and what the operations do to them while nothing is known
of the kernel's interest list: a descriptor can be closed with events registered, and its
context then stays behind. A fiber is scheduled only from a descriptor that the kernel knows.
-/

namespace Sylar.Epoll

/-! ## Contexts -/

/-- The fiber that waits for `event`. -/
def FdContext.fiberOf (c : FdContext) (event : Event) : Option FiberId :=
  (c.getContext event).bind EventContext.fiber

theorem FdContext.Consistent.bit_of_fiber {c : FdContext} (h : c.Consistent) {e : Event}
    {f : FiberId} (hf : c.fiberOf e = some f) : c.events &&& e.bits ≠ 0 := by
  obtain ⟨x, hx, hfiber⟩ := Option.bind_eq_some_iff.mp hf
  intro hclear
  rw [(h.agrees e x hx).2 hclear] at hfiber
  cases hfiber

theorem FdContext.Consistent.fiberOf_of_clear {c : FdContext} (h : c.Consistent) {e : Event}
    (hclear : c.events &&& e.bits = 0) : c.fiberOf e = none := by
  by_contra hne
  obtain ⟨f, hf⟩ := Option.ne_none_iff_exists'.mp hne
  exact h.bit_of_fiber hf hclear

theorem FdContext.fiberOf_new (fd : Nat) (e : Event) : (FdContext.new fd).fiberOf e = none := by
  cases e <;> rfl

theorem FdContext.triggerEvent_other {c c' : FdContext} {e : Event} {w : Scheduled}
    (h : c.triggerEvent e = .ok (c', w)) {d : Event} (hde : d ≠ e) :
    c'.getContext d = c.getContext d := by
  unfold FdContext.triggerEvent at h
  split at h
  · cases h
  · dsimp only at h
    split at h
    · cases h
    · split at h
      · cases h
      · split at h <;> cases h <;> rw [FdContext.getContext_setContext_ne _ _ hde] <;>
          cases d <;> rfl

/-! ## What an operation fires -/

/-- Events of the context at `fd` fire, one after the other. -/
inductive Triggered (fd : Nat) (m : IOManager) (c : FdContext) : IOManager → FdContext → Prop where
  | refl : Triggered fd m c m c
  | tail {m₁ m₂ : IOManager} {c₁ c₂ : FdContext} {e : Event} : Triggered fd m c m₁ c₁ →
      m₁.triggerPending fd c₁ e = .ok (c₂, m₂) → Triggered fd m c m₂ c₂

theorem Triggered.triggerIf {fd : Nat} {m m₁ m₂ : IOManager} {c c₁ c₂ : FdContext} {e : Event}
    {mask : FdContext → Mask} (h : Triggered fd m c m₁ c₁)
    (hr : m₁.triggerIf fd c₁ mask e = .ok (c₂, m₂)) : Triggered fd m c m₂ c₂ := by
  unfold IOManager.triggerIf at hr
  split at hr
  · exact h.tail hr
  · cases hr
    exact h

/-- The operation returns early, or `epoll_ctl` changes or deletes the descriptor and events
fire. -/
inductive Fires (fd : Nat) (m : IOManager) : IOManager → Prop where
  | early : Fires fd m m
  | granted {u m' : IOManager} {c c' : FdContext} {op : EpollOp} {events : Mask} {granted : Bool} :
      op ≠ .add → m.fdContexts[fd]? = some c → m.epollCtl op fd events granted = some u →
      Triggered fd u c m' c' → Fires fd m m'

theorem left_ne_add (left : Mask) : (if left ≠ 0 then EpollOp.mod else .del) ≠ .add := by
  split <;> nofun

theorem IOManager.cancelEvent_fires {m : IOManager} {fd : Nat} {event : Event} {granted : Bool}
    {r : Bool × IOManager} (hr : m.cancelEvent fd event granted = .ok r) : Fires fd m r.2 := by
  unfold IOManager.cancelEvent at hr
  split at hr
  · cases hr
    exact .early
  · rename_i c hc
    split at hr
    · cases hr
      exact .early
    · dsimp only at hr
      split at hr
      · cases hr
        exact .early
      · rename_i u hctl
        cases htrigger : u.triggerPending fd c event with
        | error e =>
            rw [htrigger] at hr
            cases hr
        | ok q =>
            rw [htrigger] at hr
            cases hr
            exact .granted (left_ne_add _) hc hctl (.tail .refl htrigger)

theorem IOManager.cancelAll_fires {m : IOManager} {fd : Nat} {granted : Bool}
    {r : Bool × IOManager} (hr : m.cancelAll fd granted = .ok r) : Fires fd m r.2 := by
  unfold IOManager.cancelAll at hr
  split at hr
  · cases hr
    exact .early
  · rename_i c hc
    split at hr
    · cases hr
      exact .early
    · split at hr
      · cases hr
        exact .early
      · rename_i u hctl
        split at hr
        · cases hr
        · rename_i c₁ m₁ hread
          split at hr
          · cases hr
          · rename_i c₂ m₂ hwrite
            split at hr <;> cases hr
            have hfired := Triggered.refl.triggerIf hread
            exact .granted (by decide) hc hctl (hfired.triggerIf hwrite)

theorem IOManager.dispatch_fires {m m' : IOManager} {fd : Nat} {report : Mask} {granted : Bool}
    (hr : m.dispatch fd report granted = .ok m') : Fires fd m m' := by
  unfold IOManager.dispatch at hr
  split at hr
  · cases hr
  · rename_i c hc
    dsimp only at hr
    split at hr
    · cases hr
      exact .early
    · split at hr
      · cases hr
        exact .early
      · rename_i u hctl
        split at hr
        · cases hr
        · rename_i c₁ m₁ hread
          split at hr <;> cases hr
          rename_i c₂ hwrite
          have hfired := Triggered.refl.triggerIf hread
          exact .granted (left_ne_add _) hc hctl (hfired.triggerIf hwrite)

theorem epollCtl_table {m u : IOManager} {op : EpollOp} {fd : Nat} {events : Mask} {granted : Bool}
    (h : m.epollCtl op fd events granted = some u) : u.fdContexts = m.fdContexts := by
  rw [IOManager.epollCtl_some h]

/-! ## Firing -/

/-- Some events of the context at `fd` fired: each scheduled fiber was waiting there and
waits no more. -/
structure Woke (fd : Nat) (m : IOManager) (c : FdContext) (m' : IOManager) (c' : FdContext) :
    Prop where
  consistent : c'.Consistent
  table : m'.fdContexts = m.fdContexts.set fd c'
  interest : m'.interest = m.interest
  fibers : ∀ e f, c'.fiberOf e = some f → c.fiberOf e = some f
  scheduled : ∃ new, m'.scheduled = m.scheduled ++ new ∧ ∀ x ∈ new, ∀ f, x.task.fiber = some f →
    ∃ e, c.fiberOf e = some f ∧ c'.fiberOf e = none

theorem Woke.refl {fd : Nat} {m : IOManager} {c : FdContext} (hc : m.fdContexts[fd]? = some c)
    (hcons : c.Consistent) : Woke fd m c m c := by
  refine ⟨hcons, ?_, rfl, fun _ _ hf => hf, [], (List.append_nil _).symm, nofun⟩
  obtain ⟨hlt, hget⟩ := List.getElem?_eq_some_iff.mp hc
  rw [← hget, List.set_getElem_self]

theorem Woke.trans {fd : Nat} {m m₁ m₂ : IOManager} {c c₁ c₂ : FdContext}
    (h₁ : Woke fd m c m₁ c₁) (h₂ : Woke fd m₁ c₁ m₂ c₂) : Woke fd m c m₂ c₂ := by
  obtain ⟨new₁, hnew₁, hfrom₁⟩ := h₁.scheduled
  obtain ⟨new₂, hnew₂, hfrom₂⟩ := h₂.scheduled
  refine ⟨h₂.consistent, ?_, h₂.interest.trans h₁.interest,
    fun e f hf => h₁.fibers e f (h₂.fibers e f hf), new₁ ++ new₂, ?_, fun x hx f hf => ?_⟩
  · rw [h₂.table, h₁.table, List.set_set]
  · rw [hnew₂, hnew₁, List.append_assoc]
  · rcases List.mem_append.mp hx with hx | hx
    · obtain ⟨e, he, hgone⟩ := hfrom₁ x hx f hf
      refine ⟨e, he, ?_⟩
      by_contra hne
      obtain ⟨g, hg⟩ := Option.ne_none_iff_exists'.mp hne
      rw [h₂.fibers e g hg] at hgone
      cases hgone
    · obtain ⟨e, he, hgone⟩ := hfrom₂ x hx f hf
      exact ⟨e, h₁.fibers e f he, hgone⟩

/-- What firing one event writes to the table, and whom it schedules: the fiber that waited for
the event. -/
theorem IOManager.triggerPending_effect {m m' : IOManager} {fd : Nat} {c c' : FdContext}
    {e : Event} (hcons : c.Consistent) (h : m.triggerPending fd c e = .ok (c', m')) :
    (c'.Consistent ∧ m'.fdContexts = m.fdContexts.set fd c' ∧ m'.interest = m.interest) ∧
      ∃ w, m'.scheduled = m.scheduled ++ [w] ∧ w.task.fiber = c.fiberOf e ∧
        c'.fiberOf e = none ∧ ∀ d, d ≠ e → c'.fiberOf d = c.fiberOf d := by
  unfold triggerPending at h
  split at h <;> cases h
  rename_i w htrigger
  have hset : c.events &&& e.bits ≠ 0 := by
    intro hclear
    rw [FdContext.triggerEvent, if_pos hclear] at htrigger
    cases htrigger
  obtain ⟨c₁, w₁, hrun, hcons', -, hevents, -, x, hx, -, htask⟩ := hcons.triggerEvent hset
  cases hrun.symm.trans htrigger
  have hgone : c'.fiberOf e = none := by
    refine hcons'.fiberOf_of_clear ?_
    rw [hevents]
    exact and_andNot_self hcons.registrable e
  refine ⟨⟨hcons', rfl, rfl⟩, w, rfl, by rw [htask, FdContext.fiberOf, hx]; rfl, hgone,
    fun d hde => ?_⟩
  rw [FdContext.fiberOf, FdContext.triggerEvent_other htrigger hde]
  rfl

theorem IOManager.triggerPending_woke {m m' : IOManager} {fd : Nat} {c c' : FdContext} {e : Event}
    (hcons : c.Consistent) (h : m.triggerPending fd c e = .ok (c', m')) : Woke fd m c m' c' := by
  obtain ⟨⟨hcons', htable, hinterest⟩, w, hnew, hfiber, hgone, hother⟩ :=
    triggerPending_effect hcons h
  refine ⟨hcons', htable, hinterest, fun d f hf => ?_, [w], hnew, fun y hy f hf => ⟨e, ?_, hgone⟩⟩
  · have hde : d ≠ e := by
      rintro rfl
      cases hgone.symm.trans hf
    exact (hother d hde).symm.trans hf
  · rw [List.mem_singleton.mp hy, hfiber] at hf
    exact hf

theorem Triggered.woke {fd : Nat} {m m' : IOManager} {c c' : FdContext}
    (h : Triggered fd m c m' c') (hc : m.fdContexts[fd]? = some c) (hcons : c.Consistent) :
    Woke fd m c m' c' := by
  induction h with
  | refl => exact .refl hc hcons
  | tail _ htrigger ih => exact ih.trans (IOManager.triggerPending_woke ih.consistent htrigger)

/-! ## The operations -/

def IOManager.fiberAt (m : IOManager) (fd : Nat) (event : Event) : Option FiberId :=
  m.fdContexts[fd]?.bind fun c => c.fiberOf event

def Coherent (m : IOManager) : Prop :=
  ∀ (fd : Nat) (c : FdContext), m.fdContexts[fd]? = some c → c.Consistent

theorem coherent_init : Coherent .init := bookkept_init.contexts

theorem fiberAt_init (fd : Nat) (e : Event) : IOManager.init.fiberAt fd e = none := by
  by_contra hne
  obtain ⟨f, hf⟩ := Option.ne_none_iff_exists'.mp hne
  obtain ⟨c, hc, hfiber⟩ := Option.bind_eq_some_iff.mp hf
  have hget := contextResize_getElem? (show ([] : List FdContext).length ≤ 32 by decide) fd
  change (contextResize [] 32)[fd]? = some c at hc
  rw [hget, if_neg (by simp)] at hc
  split at hc <;> cases hc
  rw [FdContext.fiberOf_new] at hfiber
  cases hfiber

/-- An operation on `fd` registers nobody, adds nothing to the interest list, and schedules
only fibers that were waiting there while the kernel knew the descriptor. -/
structure Releases (m m' : IOManager) (fd : Nat) : Prop where
  coherent : Coherent m'
  fibers : ∀ k e f, m'.fiberAt k e = some f → m.fiberAt k e = some f
  interest : ∀ k, m.interest k = none → m'.interest k = none
  scheduled : ∃ new, m'.scheduled = m.scheduled ++ new ∧ ∀ x ∈ new, ∀ f, x.task.fiber = some f →
    m.interest fd ≠ none ∧ ∃ e, m.fiberAt fd e = some f ∧ m'.fiberAt fd e = none

theorem Releases.refl {m : IOManager} (h : Coherent m) (fd : Nat) : Releases m m fd :=
  ⟨h, fun _ _ _ hf => hf, fun _ hk => hk, [], (List.append_nil _).symm, nofun⟩

/-- Changing or deleting needs a descriptor that the kernel knows. -/
theorem IOManager.epollCtl_known {m u : IOManager} {op : EpollOp} {fd : Nat} {events : Mask}
    {granted : Bool} (hop : op ≠ .add) (h : m.epollCtl op fd events granted = some u) :
    m.interest fd ≠ none := by
  intro hnone
  cases op
  case add => exact hop rfl
  all_goals cases granted <;> simp [epollCtl, hnone] at h

/-- A granted change or deletion, then the firing of events. -/
theorem Coherent.releases {m u m' : IOManager} (h : Coherent m) {fd : Nat} {c c' : FdContext}
    {op : EpollOp} {events : Mask} {granted : Bool} (hop : op ≠ .add)
    (hc : m.fdContexts[fd]? = some c) (hctl : m.epollCtl op fd events granted = some u)
    (hwoke : Woke fd u c m' c') : Releases m m' fd := by
  have hknown := IOManager.epollCtl_known hop hctl
  have hu := IOManager.epollCtl_some hctl
  have htable : m'.fdContexts = m.fdContexts.set fd c' := by rw [hwoke.table, hu]
  have hget : ∀ k, m'.fdContexts[k]? = if fd = k then some c' else m.fdContexts[k]? := by
    intro k
    rw [htable, getElem?_set_present hc]
  refine ⟨fun k x hx => ?_, fun k e f hf => ?_, fun k hk => ?_, ?_⟩
  · rw [hget] at hx
    split at hx
    · cases hx
      exact hwoke.consistent
    · exact h k x hx
  · unfold IOManager.fiberAt at hf ⊢
    rw [hget] at hf
    split at hf
    · rename_i heq
      rw [← heq, hc]
      exact hwoke.fibers e f hf
    · exact hf
  · have hne : k ≠ fd := by
      rintro rfl
      exact hknown hk
    rw [hwoke.interest, hu]
    simp only [Function.update_of_ne hne, hk]
  · obtain ⟨new, hnew, hfrom⟩ := hwoke.scheduled
    refine ⟨new, by rw [hnew, hu], fun x hx f hf => ⟨hknown, ?_⟩⟩
    obtain ⟨e, he, hgone⟩ := hfrom x hx f hf
    refine ⟨e, ?_, ?_⟩
    · rw [IOManager.fiberAt, hc]
      exact he
    · rw [IOManager.fiberAt, hget, if_pos rfl]
      exact hgone

theorem Coherent.fires {m m' : IOManager} (h : Coherent m) {fd : Nat} (hfires : Fires fd m m') :
    Releases m m' fd := by
  cases hfires with
  | early => exact .refl h fd
  | granted hop hc hctl hfired =>
      exact h.releases hop hc hctl (hfired.woke ((epollCtl_table hctl).symm ▸ hc) (h fd _ hc))

theorem Coherent.cancelEvent {m : IOManager} (h : Coherent m) {fd : Nat} {event : Event}
    {granted : Bool} {r : Bool × IOManager} (hr : m.cancelEvent fd event granted = .ok r) :
    Releases m r.2 fd := h.fires (IOManager.cancelEvent_fires hr)

theorem Coherent.cancelAll {m : IOManager} (h : Coherent m) {fd : Nat} {granted : Bool}
    {r : Bool × IOManager} (hr : m.cancelAll fd granted = .ok r) : Releases m r.2 fd :=
  h.fires (IOManager.cancelAll_fires hr)

theorem Coherent.dispatch {m m' : IOManager} (h : Coherent m) {fd : Nat} {report : Mask}
    {granted : Bool} (hr : m.dispatch fd report granted = .ok m') : Releases m m' fd :=
  h.fires (IOManager.dispatch_fires hr)

/-! ## Registration -/

/-- `addEvent` of a fiber: it registers that fiber and no other, and it adds a descriptor
to the interest list only while no fiber waits there. -/
structure Registers (m m' : IOManager) (fd : Nat) (event : Event) (f : FiberId) : Prop where
  coherent : Coherent m'
  scheduled : m'.scheduled = m.scheduled
  fibers : ∀ k e g, m'.fiberAt k e = some g → k = fd ∧ e = event ∧ g = f ∨ m.fiberAt k e = some g
  interest : ∀ k, k ≠ fd → m'.interest k = m.interest k
  fresh : m.interest fd = none → m'.interest fd ≠ none → ∀ e, m.fiberAt fd e = none

/-- A resize adds contexts in which nobody waits. -/
theorem Coherent.resize {m : IOManager} (h : Coherent m) {size : Nat}
    (hsize : m.fdContexts.length ≤ size) :
    Coherent { m with fdContexts := contextResize m.fdContexts size } ∧
      ∀ k e, { m with fdContexts := contextResize m.fdContexts size }.fiberAt k e =
        m.fiberAt k e := by
  have hget := contextResize_getElem? hsize
  refine ⟨fun fd c hc => ?_, fun k e => ?_⟩
  · change (contextResize m.fdContexts size)[fd]? = some c at hc
    rw [hget] at hc
    split at hc
    · exact h fd c hc
    · split at hc <;> cases hc
      exact FdContext.consistent_new fd
  · simp only [IOManager.fiberAt, hget]
    split
    · rfl
    · rename_i hk
      rw [List.getElem?_eq_none (Nat.not_lt.mp hk)]
      split
      · exact FdContext.fiberOf_new k e
      · rfl

/-- What an `addEvent` that returns has done, on the table `t` after the first section: nothing
more, or it has set the bit with its context. -/
theorem IOManager.addEvent_cases {m t : IOManager} {caller : Caller} {fd : Nat} {event : Event}
    {cb : Option Cb} {granted : Bool} {r : Int × IOManager}
    (ht : (if fd < m.fdContexts.length then m
      else { m with fdContexts := contextResize m.fdContexts (fd * 3 / 2) }) = t)
    (hr : m.addEvent caller fd event cb granted = .ok r) :
    ∃ c, t.fdContexts[fd]? = some c ∧ c.events &&& event.bits = 0 ∧ (r = (-1, t) ∨
      ∃ u, t.epollCtl (if c.events ≠ 0 then EpollOp.mod else .add) fd
          (epollEt ||| c.events ||| event.bits) granted = some u ∧
        r = (0, { u with pendingEventCount := u.pendingEventCount + 1 }.setContext fd
          ({ c with events := c.events ||| event.bits }.setContext
            (if cb.isSome then ⟨caller.scheduler, none, cb⟩
              else ⟨caller.scheduler, some caller.fiber, none⟩) event))) := by
  unfold IOManager.addEvent at hr
  rw [ht] at hr
  dsimp only at hr
  split at hr
  · cases hr
  · rename_i c hc
    split at hr
    · cases hr
    · rename_i hclear
      refine ⟨c, hc, not_not.mp hclear, ?_⟩
      split at hr
      · cases hr
        exact .inl rfl
      · rename_i u hctl
        split at hr
        · cases hr
        · rename_i x hx
          split at hr
          · cases hr
          · rename_i hempty
            have hx : x = .empty := not_not.mp hempty
            subst hx
            split at hr <;> cases hr
            exact .inr ⟨u, hctl, rfl⟩

/-- The part of `addEvent` under the context's lock, on a table that has the descriptor. -/
theorem Coherent.register {m u : IOManager} (h : Coherent m) {fd : Nat} {c : FdContext}
    {event : Event} {f : FiberId} {scheduler : Nat} {granted : Bool}
    (hc : m.fdContexts[fd]? = some c) (hevent : event ≠ .none)
    (hclear : c.events &&& event.bits = 0)
    (hctl : m.epollCtl (if c.events ≠ 0 then EpollOp.mod else .add) fd
      (epollEt ||| c.events ||| event.bits) granted = some u) :
    Registers m
      ({ u with pendingEventCount := u.pendingEventCount + 1 }.setContext fd
        ({ c with events := c.events ||| event.bits }.setContext
          ⟨some scheduler, some f, none⟩ event)) fd event f := by
  have hcons := h fd c hc
  have hu := IOManager.epollCtl_some hctl
  have hcons' : ({ c with events := c.events ||| event.bits }.setContext
      ⟨some scheduler, some f, none⟩ event).Consistent :=
    hcons.replace hevent (hcons.registrable.or_bits event)
      (fun d hd => and_or_of_ne hcons.registrable hd)
      ⟨⟨fun _ => by simp [EventContext.Armed], fun _ => and_or_self hcons.registrable hevent⟩,
        fun hzero => (and_or_self hcons.registrable hevent hzero).elim⟩
  have hget : ∀ k, (u.fdContexts.set fd ({ c with events := c.events ||| event.bits }.setContext
      ⟨some scheduler, some f, none⟩ event))[k]? =
      if fd = k then some ({ c with events := c.events ||| event.bits }.setContext
        ⟨some scheduler, some f, none⟩ event) else m.fdContexts[k]? := by
    intro k
    rw [hu, getElem?_set_present hc]
  refine ⟨fun k x hx => ?_, by rw [hu]; rfl, fun k e g hg => ?_, fun k hk => ?_,
    fun hnone _ e => ?_⟩
  · rw [IOManager.setContext, hget] at hx
    split at hx
    · cases hx
      exact hcons'
    · exact h k x hx
  · rw [IOManager.fiberAt, IOManager.setContext, hget] at hg
    split at hg
    · rename_i heq
      subst heq
      by_cases he : e = event
      · subst he
        rw [Option.bind_some, FdContext.fiberOf,
          FdContext.getContext_setContext_self _ _ hevent] at hg
        cases hg
        exact .inl ⟨rfl, rfl, rfl⟩
      · right
        rw [Option.bind_some, FdContext.fiberOf, FdContext.getContext_setContext_ne _ _ he] at hg
        rw [IOManager.fiberAt, hc]
        cases e <;> exact hg
    · exact .inr hg
  · rw [hu]
    exact Function.update_of_ne hk _ _
  · -- the kernel did not know the descriptor, so this was an `ADD` without events
    have hzero : c.events = 0 := by
      by_contra hne
      rw [if_pos hne] at hctl
      exact IOManager.epollCtl_known (by decide) hctl hnone
    rw [IOManager.fiberAt, hc]
    refine hcons.fiberOf_of_clear ?_
    rw [hzero]
    exact BitVec.zero_and

theorem Coherent.grown {m : IOManager} (h : Coherent m) (fd : Nat) :
    ∃ t, (if fd < m.fdContexts.length then m
        else { m with fdContexts := contextResize m.fdContexts (fd * 3 / 2) }) = t ∧ Coherent t ∧
      (∀ k e, t.fiberAt k e = m.fiberAt k e) ∧ t.interest = m.interest ∧
      t.scheduled = m.scheduled := by
  by_cases hfd : fd < m.fdContexts.length
  · exact ⟨m, if_pos hfd, h, fun _ _ => rfl, rfl, rfl⟩
  · have hsize : m.fdContexts.length ≤ fd * 3 / 2 := by omega
    obtain ⟨hcoherent, hfibers⟩ := h.resize hsize
    exact ⟨_, if_neg hfd, hcoherent, hfibers, rfl, rfl⟩

theorem Registers.of_grown {m t m' : IOManager} {fd : Nat} {event : Event} {f : FiberId}
    (h : Registers t m' fd event f) (hfibers : ∀ k e, t.fiberAt k e = m.fiberAt k e)
    (hinterest : t.interest = m.interest) (hscheduled : t.scheduled = m.scheduled) :
    Registers m m' fd event f where
  coherent := h.coherent
  scheduled := h.scheduled.trans hscheduled
  fibers := fun k e g hg => by rw [← hfibers]; exact h.fibers k e g hg
  interest := fun k hk => by rw [← hinterest]; exact h.interest k hk
  fresh := fun hnone hsome e => by
    rw [← hfibers]
    exact h.fresh (hinterest ▸ hnone) hsome e

theorem Coherent.addEvent {m : IOManager} (h : Coherent m) {fd : Nat} {event : Event}
    (hevent : event ≠ .none) {f : FiberId} {scheduler : Nat} {granted : Bool}
    {r : Int × IOManager}
    (hr : m.addEvent ⟨some scheduler, f, .exec⟩ fd event none granted = .ok r) :
    Registers m r.2 fd event f ∧
      (r.1 ≠ 0 → (∀ k e, r.2.fiberAt k e = m.fiberAt k e) ∧ r.2.interest = m.interest) ∧
      (r.1 = 0 → granted = true) := by
  obtain ⟨t, ht, hcoherent, hfibers, hinterest, hscheduled⟩ := h.grown fd
  obtain ⟨c, hc, hclear, rfl | ⟨u, hctl, rfl⟩⟩ := IOManager.addEvent_cases ht hr
  · have hsame : Registers t t fd event f :=
      ⟨hcoherent, rfl, fun _ _ _ hg => .inr hg, fun _ _ => rfl, fun hn hs => (hs hn).elim⟩
    exact ⟨hsame.of_grown hfibers hinterest hscheduled, fun _ => ⟨hfibers, hinterest⟩,
      fun hzero => by cases hzero⟩
  · refine ⟨?_, fun hne => (hne rfl).elim, fun _ => ?_⟩
    · exact (hcoherent.register hc hevent hclear hctl).of_grown hfibers hinterest hscheduled
    · cases granted
      · rw [IOManager.epollCtl_refused] at hctl
        cases hctl
      · rfl

end Sylar.Epoll
