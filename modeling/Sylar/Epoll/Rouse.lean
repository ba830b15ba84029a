import Sylar.Epoll.Waiters

/-! # No waiter is lost

What an operation takes out of the table it schedules: a fiber that waited for an event still
waits there afterwards, or an entry for it was scheduled. A granted `cancelEvent` schedules
the fiber that waits for its event, and an `addEvent` that returns 0 leaves its caller waiting.
-/

namespace Sylar.Epoll

/-! ## Firing -/

/-- Every fiber of `c` still waits in `c'` or is among the entries scheduled since `m`. -/
def Rouses (m : IOManager) (c : FdContext) (m' : IOManager) (c' : FdContext) : Prop :=
  ∃ new, m'.scheduled = m.scheduled ++ new ∧ ∀ e f, c.fiberOf e = some f →
    c'.fiberOf e = some f ∨ ∃ x ∈ new, x.task.fiber = some f

theorem Rouses.refl (m : IOManager) (c : FdContext) : Rouses m c m c :=
  ⟨[], (List.append_nil _).symm, fun _ _ hf => .inl hf⟩

theorem Rouses.trans {m m₁ m₂ : IOManager} {c c₁ c₂ : FdContext} (h₁ : Rouses m c m₁ c₁)
    (h₂ : Rouses m₁ c₁ m₂ c₂) : Rouses m c m₂ c₂ := by
  obtain ⟨new₁, hnew₁, hfrom₁⟩ := h₁
  obtain ⟨new₂, hnew₂, hfrom₂⟩ := h₂
  refine ⟨new₁ ++ new₂, by rw [hnew₂, hnew₁, List.append_assoc], fun e f hf => ?_⟩
  rcases hfrom₁ e f hf with hf | ⟨x, hx, hfiber⟩
  · rcases hfrom₂ e f hf with hf | ⟨x, hx, hfiber⟩
    · exact .inl hf
    · exact .inr ⟨x, List.mem_append_right _ hx, hfiber⟩
  · exact .inr ⟨x, List.mem_append_left _ hx, hfiber⟩

theorem IOManager.triggerPending_rouses {m m' : IOManager} {fd : Nat} {c c' : FdContext}
    {e : Event} (hcons : c.Consistent) (h : m.triggerPending fd c e = .ok (c', m')) :
    Rouses m c m' c' := by
  obtain ⟨-, w, hnew, hfiber, -, hother⟩ := triggerPending_effect hcons h
  refine ⟨[w], hnew, fun d f hf => ?_⟩
  by_cases hde : d = e
  · subst hde
    exact .inr ⟨w, List.mem_singleton_self w, hfiber.trans hf⟩
  · exact .inl ((hother d hde).trans hf)

theorem Triggered.rouses {fd : Nat} {m m' : IOManager} {c c' : FdContext}
    (h : Triggered fd m c m' c') (hc : m.fdContexts[fd]? = some c) (hcons : c.Consistent) :
    Rouses m c m' c' := by
  induction h with
  | refl => exact .refl m c
  | tail hfired htrigger ih =>
      exact ih.trans (IOManager.triggerPending_rouses (hfired.woke hc hcons).consistent htrigger)

def FdContext.waits (c : FdContext) (f : FiberId) : Nat :=
  (if c.fiberOf .read = some f then 1 else 0) + if c.fiberOf .write = some f then 1 else 0

theorem FdContext.waits_zero {c : FdContext} {f : FiberId} :
    c.waits f = 0 ↔ ∀ e, c.fiberOf e ≠ some f := by
  constructor
  · intro h e hf
    cases e with
    | none => cases hf
    | read =>
        rw [waits, if_pos hf] at h
        omega
    | write =>
        rw [waits, if_pos hf] at h
        omega
  · intro h
    rw [waits, if_neg (h .read), if_neg (h .write)]

theorem FdContext.waits_le_one {c : FdContext} {f : FiberId} {event : Event}
    (h : ∀ e, c.fiberOf e = some f → e = event) : c.waits f ≤ 1 := by
  unfold waits
  split
  · rename_i hread
    rw [if_neg]
    intro hwrite
    cases (h .read hread).trans (h .write hwrite).symm
  · split <;> omega

theorem IOManager.triggerPending_counts {m m' : IOManager} {fd : Nat} {c c' : FdContext}
    {e : Event} (hcons : c.Consistent) (h : m.triggerPending fd c e = .ok (c', m')) :
    ∃ w, m'.scheduled = m.scheduled ++ [w] ∧ ∀ f,
      [w].countP (fun x => decide (x.task.fiber = some f)) + c'.waits f = c.waits f := by
  obtain ⟨-, w, hnew, hfiber, hgone, hother⟩ := triggerPending_effect hcons h
  refine ⟨w, hnew, fun f => ?_⟩
  rw [List.countP_singleton, hfiber, FdContext.waits, FdContext.waits]
  cases e with
  | none =>
      have hnone : c.fiberOf .none = none := rfl
      rw [hother .read (by decide), hother .write (by decide), hnone]
      simp
  | read =>
      rw [hgone, hother .write (by decide)]
      simp
  | write =>
      rw [hgone, hother .read (by decide)]
      simp [Nat.add_comm]

theorem Triggered.counts {fd : Nat} {m m' : IOManager} {c c' : FdContext}
    (h : Triggered fd m c m' c') (hc : m.fdContexts[fd]? = some c) (hcons : c.Consistent) :
    ∃ new, m'.scheduled = m.scheduled ++ new ∧ ∀ f,
      new.countP (fun x => decide (x.task.fiber = some f)) + c'.waits f = c.waits f := by
  induction h with
  | refl => exact ⟨[], (List.append_nil _).symm, fun f => Nat.zero_add _⟩
  | tail hfired htrigger ih =>
      obtain ⟨new, hnew, hcount⟩ := ih
      obtain ⟨w, hw, hone⟩ :=
        IOManager.triggerPending_counts (hfired.woke hc hcons).consistent htrigger
      refine ⟨new ++ [w], by rw [hw, hnew, List.append_assoc], fun f => ?_⟩
      rw [List.countP_append, Nat.add_assoc, hone, hcount]

/-! ## The operations -/

/-- Every waiting fiber still waits or is among the entries scheduled since `m`. -/
def KeepsWaiters (m m' : IOManager) : Prop :=
  ∃ new, m'.scheduled = m.scheduled ++ new ∧ ∀ k e f, m.fiberAt k e = some f →
    m'.fiberAt k e = some f ∨ ∃ x ∈ new, x.task.fiber = some f

theorem KeepsWaiters.refl (m : IOManager) : KeepsWaiters m m :=
  ⟨[], (List.append_nil _).symm, fun _ _ _ hf => .inl hf⟩

theorem KeepsWaiters.of_rouses {m u m' : IOManager} {fd : Nat} {c c' : FdContext} {op : EpollOp}
    {events : Mask} {granted : Bool} (hc : m.fdContexts[fd]? = some c)
    (hctl : m.epollCtl op fd events granted = some u)
    (htable : m'.fdContexts = u.fdContexts.set fd c') (hrouses : Rouses u c m' c') :
    KeepsWaiters m m' := by
  have hu := IOManager.epollCtl_some hctl
  obtain ⟨new, hnew, hfrom⟩ := hrouses
  refine ⟨new, by rw [hnew, hu], fun k e f hf => ?_⟩
  rw [epollCtl_table hctl] at htable
  by_cases hk : fd = k
  · subst hk
    rw [IOManager.fiberAt, hc] at hf
    rw [IOManager.fiberAt, htable, List.getElem?_set_self (List.getElem?_eq_some_iff.mp hc).1]
    exact hfrom e f hf
  · left
    rw [IOManager.fiberAt, htable, List.getElem?_set_ne hk]
    exact hf

theorem Coherent.keeps {m m' : IOManager} (h : Coherent m) {fd : Nat} (hfires : Fires fd m m') :
    KeepsWaiters m m' := by
  cases hfires with
  | early => exact .refl m
  | granted _ hc hctl hfired =>
      have hcu := (epollCtl_table hctl).symm ▸ hc
      have hcons := h fd _ hc
      exact .of_rouses hc hctl (hfired.woke hcu hcons).table (hfired.rouses hcu hcons)

theorem Coherent.fires_once {m m' : IOManager} (h : Coherent m) {fd : Nat}
    (hfires : Fires fd m m') {f : FiberId} {event : Event}
    (hone : ∀ e, m.fiberAt fd e = some f → e = event) :
    ∃ new, m'.scheduled = m.scheduled ++ new ∧
      (new.countP (fun x => decide (x.task.fiber = some f)) = 0 ∨
        new.countP (fun x => decide (x.task.fiber = some f)) = 1 ∧
          m.fiberAt fd event = some f ∧ ∀ e, m'.fiberAt fd e ≠ some f) := by
  cases hfires with
  | early => exact ⟨[], (List.append_nil _).symm, .inl rfl⟩
  | @granted u m' c c' _ _ _ _ hc hctl hfired =>
      have hcu := (epollCtl_table hctl).symm ▸ hc
      have hcons := h fd c hc
      obtain ⟨new, hnew, hcount⟩ := hfired.counts hcu hcons
      have hbefore : ∀ e, m.fiberAt fd e = c.fiberOf e := fun e => by
        rw [IOManager.fiberAt, hc, Option.bind_some]
      have hafter : ∀ e, m'.fiberAt fd e = c'.fiberOf e := fun e => by
        rw [IOManager.fiberAt, (hfired.woke hcu hcons).table, epollCtl_table hctl,
          List.getElem?_set_self (List.getElem?_eq_some_iff.mp hc).1, Option.bind_some]
      simp only [hbefore] at hone
      have hle := FdContext.waits_le_one hone
      have hf := hcount f
      refine ⟨new, by rw [hnew, IOManager.epollCtl_some hctl], ?_⟩
      by_cases hzero : new.countP (fun x => decide (x.task.fiber = some f)) = 0
      · exact .inl hzero
      · refine .inr ⟨by omega, ?_, fun e => ?_⟩
        · have hwaits : c.waits f ≠ 0 := by omega
          rw [Ne, FdContext.waits_zero] at hwaits
          push Not at hwaits
          obtain ⟨e, he⟩ := hwaits
          rw [hbefore, ← hone e he, he]
        · rw [hafter]
          exact FdContext.waits_zero.1 (by omega) e

theorem Bookkept.cancelEvent_schedules {m : IOManager} (h : Bookkept m) {fd : Nat} {event : Event}
    {f : FiberId} (hf : m.fiberAt fd event = some f) {r : Bool × IOManager}
    (hr : m.cancelEvent fd event true = .ok r) :
    ∃ w, r.2.scheduled = m.scheduled ++ [w] ∧ w.task.fiber = some f := by
  obtain ⟨c, hc, hfiber⟩ := Option.bind_eq_some_iff.mp hf
  have hcons := h.contexts fd c hc
  have hset := hcons.bit_of_fiber hfiber
  have hne : c.events ≠ 0 := by
    intro hzero
    rw [hzero] at hset
    exact hset BitVec.zero_and
  obtain ⟨u, hctl⟩ := IOManager.epollCtl_present (h.interest_of_set hc hne)
    (if c.events &&& ~~~event.bits ≠ 0 then .mod else .del) (left_ne_add _)
    (epollEt ||| c.events &&& ~~~event.bits)
  simp only [IOManager.cancelEvent, hc, if_neg hset, hctl] at hr
  cases htrigger : u.triggerPending fd c event with
  | error e =>
      rw [htrigger] at hr
      cases hr
  | ok q =>
      rw [htrigger] at hr
      cases hr
      obtain ⟨-, w, hnew, hw, -⟩ := IOManager.triggerPending_effect hcons htrigger
      refine ⟨w, ?_, hw.trans hfiber⟩
      rw [hnew, IOManager.epollCtl_some hctl]

theorem Coherent.cancelEvent_other {m : IOManager} (h : Coherent m) {fd : Nat} {event : Event}
    {granted : Bool} {r : Bool × IOManager} (hr : m.cancelEvent fd event granted = .ok r)
    {d : Event} (hd : d ≠ event) : r.2.fiberAt fd d = m.fiberAt fd d := by
  unfold IOManager.cancelEvent at hr
  split at hr
  · cases hr
    rfl
  · rename_i c hc
    split at hr
    · cases hr
      rfl
    · dsimp only at hr
      split at hr
      · cases hr
        rfl
      · rename_i u hctl
        cases htrigger : u.triggerPending fd c event with
        | error e =>
            rw [htrigger] at hr
            cases hr
        | ok q =>
            rw [htrigger] at hr
            cases hr
            have hcons := h fd c hc
            obtain ⟨⟨-, htable, -⟩, -, -, -, -, hother⟩ :=
              IOManager.triggerPending_effect hcons htrigger
            rw [IOManager.fiberAt, htable, epollCtl_table hctl,
              List.getElem?_set_self (List.getElem?_eq_some_iff.mp hc).1, IOManager.fiberAt, hc]
            exact hother d hd

/-- The kernel changes and deletes only what it knows. -/
theorem IOManager.epollCtl_declined {m : IOManager} {op : EpollOp} {fd : Nat} {events : Mask}
    {granted : Bool} (hop : op ≠ .add) (h : ¬ (granted = true ∧ m.interest fd ≠ none)) :
    m.epollCtl op fd events granted = none := by
  by_contra hne
  obtain ⟨u, hctl⟩ := Option.ne_none_iff_exists'.mp hne
  refine h ⟨?_, epollCtl_known hop hctl⟩
  by_contra hrefused
  rw [Bool.eq_false_of_not_eq_true hrefused, epollCtl_refused] at hctl
  cases hctl

theorem IOManager.cancelEvent_declined {m : IOManager} {fd : Nat} {event : Event} {granted : Bool}
    {r : Bool × IOManager} (h : ¬ (granted = true ∧ m.interest fd ≠ none))
    (hr : m.cancelEvent fd event granted = .ok r) : r.2 = m := by
  unfold IOManager.cancelEvent at hr
  split at hr
  · cases hr
    rfl
  · split at hr
    · cases hr
      rfl
    · dsimp only at hr
      rw [epollCtl_declined (left_ne_add _) h] at hr
      cases hr
      rfl

theorem IOManager.cancelAll_declined {m : IOManager} {fd : Nat} {granted : Bool}
    {r : Bool × IOManager} (h : ¬ (granted = true ∧ m.interest fd ≠ none))
    (hr : m.cancelAll fd granted = .ok r) : r.2 = m := by
  unfold IOManager.cancelAll at hr
  split at hr
  · cases hr
    rfl
  · split at hr
    · cases hr
      rfl
    · rw [epollCtl_declined (by decide) h] at hr
      cases hr
      rfl

/-- `addEvent` takes no fiber out of the table, and its caller waits once it returned 0. -/
theorem Coherent.addEvent_keeps {m : IOManager} (h : Coherent m) {fd : Nat} {event : Event}
    (hevent : event ≠ .none) {f : FiberId} {scheduler : Nat} {granted : Bool}
    {r : Int × IOManager}
    (hr : m.addEvent ⟨some scheduler, f, .exec⟩ fd event none granted = .ok r) :
    (∀ k e g, m.fiberAt k e = some g → r.2.fiberAt k e = some g) ∧
      (r.1 = 0 → r.2.fiberAt fd event = some f) := by
  obtain ⟨t, ht, hcoherent, hfibers, -, -⟩ := h.grown fd
  obtain ⟨c, hc, hclear, rfl | ⟨u, hctl, rfl⟩⟩ := IOManager.addEvent_cases ht hr
  · exact ⟨fun k e g hg => (hfibers k e).trans hg, fun hzero => by cases hzero⟩
  · have hlt := (List.getElem?_eq_some_iff.mp hc).1
    refine ⟨fun k e g hg => ?_, fun _ => ?_⟩
    · rw [← hfibers] at hg
      rw [IOManager.fiberAt, IOManager.setContext]
      simp only [epollCtl_table hctl]
      by_cases hk : fd = k
      · subst hk
        rw [IOManager.fiberAt, hc] at hg
        have hother : e ≠ event := by
          rintro rfl
          exact (hcoherent fd c hc).bit_of_fiber hg hclear
        rw [List.getElem?_set_self hlt, Option.bind_some, FdContext.fiberOf,
          FdContext.getContext_setContext_ne _ _ hother]
        cases e <;> exact hg
      · rw [List.getElem?_set_ne hk]
        exact hg
    · rw [IOManager.fiberAt, IOManager.setContext]
      simp only [epollCtl_table hctl]
      rw [List.getElem?_set_self hlt, Option.bind_some, FdContext.fiberOf,
        FdContext.getContext_setContext_self _ _ hevent]
      rfl

/-! ## Calls that return -/

theorem Bookkept.addEvent_returns {m : IOManager} (h : Bookkept m) {caller : Caller} {fd : Nat}
    {event : Event} {cb : Option Cb} {granted : Bool} (hcaller : caller.OnWorker)
    (hevent : event ≠ .none) {r : Int × IOManager}
    (hr : m.addEvent caller fd event cb granted = .ok r) : Bookkept r.2 := by
  obtain ⟨rt, m', hrun, hadv⟩ := h.addEvent cb granted hcaller hevent fun c hc => by
    by_contra hset
    rw [IOManager.addEvent_registered hc hset] at hr
    cases hr
  cases hrun.symm.trans hr
  exact hadv.bookkept

theorem Bookkept.cancelEvent_returns {m : IOManager} (h : Bookkept m) {fd : Nat} {event : Event}
    {granted : Bool} {r : Bool × IOManager} (hr : m.cancelEvent fd event granted = .ok r) :
    Bookkept r.2 := by
  obtain ⟨b, m', hrun, hadv⟩ := h.cancelEvent fd event granted
  cases hrun.symm.trans hr
  exact hadv.bookkept

theorem Bookkept.cancelAll_returns {m : IOManager} (h : Bookkept m) {fd : Nat} {granted : Bool}
    {r : Bool × IOManager} (hr : m.cancelAll fd granted = .ok r) : Bookkept r.2 := by
  obtain ⟨b, m', hrun, hadv⟩ := h.cancelAll fd granted
  cases hrun.symm.trans hr
  exact hadv.bookkept

/-- A dispatch section that passes its assertions fired set events only. -/
theorem Bookkept.dispatch_returns {m m' : IOManager} (h : Bookkept m) {fd : Nat} {report : Mask}
    {granted : Bool} (hr : m.dispatch fd report granted = .ok m') : Bookkept m' := by
  cases hc : m.fdContexts[fd]? with
  | none => simp [IOManager.dispatch, hc] at hr
  | some c =>
      have hmatch : c.events &&& realEvents c.events report = 0 ∨ Fresh c.events report ∨
          granted = false := by
        by_contra hn
        obtain ⟨hhit, hn⟩ := not_or.mp hn
        obtain ⟨hstale, hgranted⟩ := not_or.mp hn
        rw [Bool.not_eq_false] at hgranted
        subst hgranted
        rw [h.dispatch_stale hc hhit hstale] at hr
        cases hr
      obtain ⟨m₁, hrun, hadv⟩ := h.dispatch granted hc hmatch
      cases hrun.symm.trans hr
      exact hadv.bookkept

end Sylar.Epoll
