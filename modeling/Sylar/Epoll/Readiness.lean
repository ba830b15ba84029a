import Sylar.Epoll.Rouse
import Sylar.Epoll.StaleReport

/-! # No readiness is lost

Every mask of `m_epfd` has `EPOLLET`, so the kernel reports a descriptor once for each arrival
and once for each `epoll_ctl` that finds it ready. An event that fires leaves the mask, and the
other event of the descriptor is looked at again with it: what is registered and ready is on the
kernel's ready list, or in an entry that a worker has still to dispatch.

The reading end of the tickle pipe is a descriptor without a context and is left out.
-/

namespace Sylar.Epoll

open Transition

/-! ## The kernel's ready list -/

/-- The loop beside the kernel: `ready` is what polling a descriptor returns, and `queued` says
which descriptors are on the ready list of `m_epfd`. -/
structure Polled where
  loop : Loop
  ready : Nat → Mask
  queued : Nat → Bool

def Polled.init : Polled := ⟨.init, fun _ => 0, fun _ => false⟩

/-- What `m_epfd` reports of a descriptor: errors and hang-ups are in every mask. -/
def watched (m : IOManager) (fd : Nat) : Mask :=
  match m.interest fd with
  | none => 0
  | some mask => mask ||| epollErr ||| epollHup

/-- The ready list after the interest list has changed: `epoll_ctl` polls the descriptor whose
mask it sets, and unlinks the one that it deletes. -/
def Polled.relink (p : Polled) (loop : Loop) : Polled :=
  { p with
    loop := loop
    queued := fun fd =>
      if loop.io.interest fd = p.loop.io.interest fd then p.queued fd
      else if loop.io.interest fd = none then false
      else p.queued fd || decide (p.ready fd &&& watched loop.io fd ≠ 0) }

/-- The entries for descriptors of the ready list, each polled once more. -/
def Polled.reportsOf (p : Polled) (fds : List Nat) : List (Nat × Mask) :=
  (fds.map fun fd => (fd, p.ready fd &&& watched p.loop.io fd)).filter fun r => decide (r.2 ≠ 0)

inductive PolledAction where
  | call (a : Action)
  /-- `epoll_wait` takes these descriptors off the ready list. -/
  | wait (worker : Nat) (fds : List Nat)
  | dispatch (worker : Nat) (granted : Bool)
  /-- The descriptor becomes ready for more. -/
  | arrive (fd : Nat) (bits : Mask)
  /-- A read, a write or an accept takes readiness away. -/
  | consume (fd : Nat) (bits : Mask)
  | close (fd : Nat)
  deriving DecidableEq, Repr

def Polled.act (p : Polled) : PolledAction → Option (Except Failure Polled)
  | .call a => (p.loop.act (.call a)).map fun r => r.map p.relink
  | .wait worker fds =>
      if fds.Nodup ∧ ∀ fd ∈ fds, p.queued fd = true then
        (p.loop.act (.epollWait worker (p.reportsOf fds))).map fun r => r.map fun loop =>
          { p with loop := loop, queued := fun fd => p.queued fd && decide (fd ∉ fds) }
      else none
  | .dispatch worker granted => (p.loop.act (.dispatch worker granted)).map fun r => r.map p.relink
  | .arrive fd bits => some (.ok { p with
      ready := Function.update p.ready fd (p.ready fd ||| bits)
      queued := Function.update p.queued fd
        (p.queued fd || decide (bits &&& watched p.loop.io fd ≠ 0)) })
  | .consume fd bits =>
      some (.ok { p with ready := Function.update p.ready fd (p.ready fd &&& ~~~bits) })
  | .close fd => some (.ok ({ p with ready := Function.update p.ready fd 0 }.relink
      { p.loop with io := p.loop.io.closeFd fd }))

def polledStep : Except Failure Polled → PolledAction → Option (Except Failure Polled) :=
  abortable Polled.act

/-- Events are registered on workers, no `epoll_ctl` of a dispatch section is refused, and a
descriptor is closed without events. -/
def Heeding (p : Polled) : PolledAction → Prop
  | .call a => OnWorkers p.loop (.call a)
  | .dispatch _ granted => granted = true
  | .close fd => p.loop.io.eventsAt fd = 0
  | .wait _ _ | .arrive _ _ | .consume _ _ => True

instance (p : Polled) (a : PolledAction) : Decidable (Heeding p a) :=
  match a with
  | .call a => inferInstanceAs (Decidable (OnWorkers p.loop (.call a)))
  | .dispatch _ _ => inferInstanceAs (Decidable (_ = _))
  | .close _ => inferInstanceAs (Decidable (_ = _))
  | .wait _ _ => inferInstanceAs (Decidable True)
  | .arrive _ _ => inferInstanceAs (Decidable True)
  | .consume _ _ => inferInstanceAs (Decidable True)

def Polled.Due (p : Polled) (fd : Nat) (e : Event) : Prop :=
  p.loop.io.eventsAt fd &&& e.bits ≠ 0 ∧
    p.ready fd &&& (e.bits ||| epollErr ||| epollHup) ≠ 0

/-- A worker has an entry whose dispatch would fire the event. -/
def Loop.Reported (l : Loop) (fd : Nat) (e : Event) : Prop :=
  ∃ worker, ∃ r ∈ l.reports worker,
    r.1 = fd ∧ realEvents (l.io.eventsAt fd) r.2 &&& e.bits ≠ 0

structure PolledInv (p : Polled) : Prop where
  loop : LoopInv p.loop
  kept : ∀ fd e, p.Due fd e → p.queued fd = true ∨ p.loop.Reported fd e

/-! ## Masks -/

theorem Bookkept.eventsAt_registrable {m : IOManager} (h : Bookkept m) (fd : Nat) :
    Registrable (m.eventsAt fd) := by
  cases hc : m.fdContexts[fd]? with
  | none => simp [IOManager.eventsAt, hc, Registrable]
  | some c => exact IOManager.eventsAt_eq hc ▸ (h.contexts fd c hc).registrable

theorem Bookkept.interest_eq {m : IOManager} (h : Bookkept m) (fd : Nat) :
    m.interest fd =
      if m.eventsAt fd = 0 then none else some (epollEt ||| m.eventsAt fd) := by
  rw [h.interest fd]
  cases hc : m.fdContexts[fd]? with
  | none => simp [IOManager.eventsAt, hc]
  | some c => simp only [IOManager.eventsAt_eq hc, Option.bind_some, kernelMask]

theorem Bookkept.eventsAt_of_interest {m m' : IOManager} (h : Bookkept m) (h' : Bookkept m')
    {fd : Nat} (hsame : m'.interest fd = m.interest fd) : m'.eventsAt fd = m.eventsAt fd := by
  rw [h.interest_eq, h'.interest_eq] at hsame
  have hreg := h.eventsAt_registrable fd
  have hreg' := h'.eventsAt_registrable fd
  generalize m.eventsAt fd = events at *
  generalize m'.eventsAt fd = events' at *
  revert hsame
  rcases hreg with rfl | rfl | rfl | rfl <;> rcases hreg' with rfl | rfl | rfl | rfl <;> decide

theorem and_ne_zero_of_subset {a b c : Mask} (h : a &&& b ≠ 0) (hsub : b &&& c = b) :
    a &&& c ≠ 0 := by
  intro hzero
  rw [← hsub, BitVec.and_comm b, ← BitVec.and_assoc, hzero] at h
  exact h BitVec.zero_and

theorem Bookkept.watched_eq {m : IOManager} (h : Bookkept m) (fd : Nat) :
    watched m fd =
      if m.eventsAt fd = 0 then 0 else epollEt ||| m.eventsAt fd ||| epollErr ||| epollHup := by
  unfold watched
  rw [h.interest_eq]
  by_cases hevents : m.eventsAt fd = 0
  · rw [if_pos hevents, if_pos hevents]
  · rw [if_neg hevents, if_neg hevents]

theorem Bookkept.watched_event {m : IOManager} (h : Bookkept m) {fd : Nat} {e : Event}
    (hset : m.eventsAt fd &&& e.bits ≠ 0) :
    (e.bits ||| epollErr ||| epollHup) &&& watched m fd = e.bits ||| epollErr ||| epollHup := by
  have hreg := h.eventsAt_registrable fd
  rw [h.watched_eq]
  generalize m.eventsAt fd = events at *
  revert hset
  cases e <;> rcases hreg with rfl | rfl | rfl | rfl <;> decide

theorem realEvents_bit (events report : Mask) {e : Event} (he : e ≠ .none) :
    realEvents events report &&& e.bits ≠ 0 ↔ widenReport events report &&& e.bits ≠ 0 := by
  unfold realEvents
  generalize widenReport events report = widened
  cases e with
  | none => exact (he rfl).elim
  | read =>
      change _ ↔ widened &&& epollIn ≠ 0
      by_cases hin : widened &&& epollIn ≠ 0
      · rw [if_pos hin]
        exact iff_of_true (by split <;> decide) hin
      · rw [if_neg hin]
        exact iff_of_false (by split <;> decide) hin
  | write =>
      change _ ↔ widened &&& epollOut ≠ 0
      by_cases hout : widened &&& epollOut ≠ 0
      · rw [if_pos hout]
        exact iff_of_true (by split <;> decide) hout
      · rw [if_neg hout]
        exact iff_of_false (by split <;> decide) hout

theorem PolledInv.reports_due {p : Polled} (h : PolledInv p) {fd : Nat} {e : Event}
    (hdue : p.Due fd e) :
    p.ready fd &&& watched p.loop.io fd ≠ 0 ∧
      realEvents (p.loop.io.eventsAt fd) (p.ready fd &&& watched p.loop.io fd) &&& e.bits ≠ 0 := by
  obtain ⟨hset, hready⟩ := hdue
  have he : e ≠ .none := by
    rintro rfl
    exact hset BitVec.and_zero
  have hsub := h.loop.bookkept.watched_event hset
  refine ⟨and_ne_zero_of_subset hready hsub, (realEvents_bit _ _ he).mpr ?_⟩
  -- either the event's own bit is ready, or an error or a hang-up widens the report
  have hreport : (p.ready fd &&& watched p.loop.io fd) &&&
      (e.bits ||| epollErr ||| epollHup) ≠ 0 := by
    rwa [BitVec.and_assoc, BitVec.and_comm (watched _ _), hsub]
  have hreg := h.loop.bookkept.eventsAt_registrable fd
  generalize p.ready fd &&& watched p.loop.io fd = report at *
  generalize p.loop.io.eventsAt fd = events at *
  unfold widenReport
  split
  · rw [BitVec.and_or_distrib_right]
    intro hzero
    have hwidened := (BitVec.or_eq_zero_iff.mp hzero).2
    revert hset hwidened
    cases e <;> rcases hreg with rfl | rfl | rfl | rfl <;> decide
  · rename_i hplain
    rw [not_not] at hplain
    rw [BitVec.or_assoc, BitVec.and_or_distrib_left, hplain] at hreport
    simpa using hreport

/-! ## One step -/

/-- A descriptor whose mask stays keeps its place on the ready list and its entries; one whose
mask changes is polled. -/
theorem PolledInv.relink {p : Polled} (h : PolledInv p) {loop : Loop} (hloop : LoopInv loop)
    (hentries : ∀ fd e, loop.io.eventsAt fd = p.loop.io.eventsAt fd → p.Due fd e →
      p.loop.Reported fd e → loop.Reported fd e) : PolledInv (p.relink loop) := by
  refine ⟨hloop, fun fd e hdue => ?_⟩
  simp only [Polled.relink] at hdue ⊢
  by_cases hmask : loop.io.interest fd = p.loop.io.interest fd
  · rw [if_pos hmask]
    have hevents := h.loop.bookkept.eventsAt_of_interest hloop.bookkept hmask
    have hbefore : p.Due fd e := ⟨hevents ▸ hdue.1, hdue.2⟩
    exact (h.kept fd e hbefore).imp_right (hentries fd e hevents hbefore)
  · have hne : loop.io.interest fd ≠ none := by
      rw [hloop.bookkept.interest_eq, if_neg]
      · exact Option.some_ne_none _
      · intro hzero
        rw [Polled.Due, hzero] at hdue
        exact hdue.1 BitVec.zero_and
    have hready := and_ne_zero_of_subset hdue.2 (hloop.bookkept.watched_event hdue.1)
    rw [if_neg hmask, if_neg hne, decide_eq_true hready, Bool.or_true]
    exact .inl rfl

/-- What a granted dispatch section leaves registered. -/
theorem Bookkept.dispatch_leaves {m m' : IOManager} (h : Bookkept m) {fd : Nat} {report : Mask}
    (hr : m.dispatch fd report true = .ok m') :
    m'.eventsAt fd = m.eventsAt fd &&& ~~~realEvents (m.eventsAt fd) report := by
  cases hc : m.fdContexts[fd]? with
  | none => simp [IOManager.dispatch, hc] at hr
  | some c =>
      have hcons := h.contexts fd c hc
      have hreal := realEvents_registrable c.events report
      rw [IOManager.eventsAt_eq hc]
      by_cases hmiss : c.events &&& realEvents c.events report = 0
      · have hkept : m' = m := by
          have hnone : c.events &&& realEvents c.events report = Event.none.bits := hmiss
          simp only [IOManager.dispatch, hc, if_pos hnone] at hr
          exact (Except.ok.inj hr).symm
        rw [hkept, IOManager.eventsAt_eq hc]
        have hreg := hcons.registrable
        generalize realEvents c.events report = real at *
        generalize c.events = events at *
        revert hmiss
        rcases hreal with rfl | rfl | rfl | rfl <;> rcases hreg with rfl | rfl | rfl | rfl <;>
          decide
      · have hsub : Fresh c.events report := by
          by_contra hstale
          rw [h.dispatch_stale hc hmiss hstale] at hr
          cases hr
        have hset : c.events ≠ 0 := by
          intro hzero
          rw [hzero] at hmiss
          exact hmiss BitVec.zero_and
        have hne : ¬ c.events &&& realEvents c.events report = Event.none.bits := hmiss
        obtain ⟨u, hctl⟩ := IOManager.epollCtl_present (h.interest_of_set hc hset)
          (if c.events &&& ~~~realEvents c.events report ≠ 0 then .mod else .del)
          (by split <;> decide) (epollEt ||| c.events &&& ~~~realEvents c.events report)
        obtain ⟨hcu, hpending⟩ := h.granted hc (IOManager.epollCtl_some hctl)
        obtain ⟨c₁, m₁, c₂, m₂, h₁, h₂, hf, hevents⟩ :=
          IOManager.triggerBoth_fired (fun _ => realEvents c.events report) hcu hcons
            hpending hreal (hsub.bit hcons.registrable) (fun _ _ => rfl)
        simp only [IOManager.dispatch, hc, if_neg hne, hctl, h₁, h₂] at hr
        cases hr
        rw [IOManager.eventsAt_eq (hf.getElem? hcu), hevents]

theorem PolledInv.call {p : Polled} (h : PolledInv p) {a : Action}
    (hworker : OnWorkers p.loop (.call a)) {r : Except Failure Loop}
    (hr : p.loop.act (.call a) = some r) :
    Holds PolledInv (fun _ => True) (r.map p.relink) := by
  simp only [Loop.act] at hr
  split at hr
  · rename_i hcall
    cases hr
    rcases h.loop.call hcall hworker with he | ⟨io, hio, hadv⟩
    · rw [he]
      trivial
    · rw [hio]
      refine h.relink (h.loop.advance hadv) fun fd e hevents _ hreported => ?_
      simp only [Loop.Reported] at hreported ⊢
      rwa [hevents]
  · cases hr

/-- An entry that is dispatched while the mask of its descriptor stays would fire nothing. -/
theorem PolledInv.dispatch {p : Polled} (h : PolledInv p) {worker : Nat}
    {r : Except Failure Loop} (hr : p.loop.act (.dispatch worker true) = some r) :
    Holds PolledInv (fun _ => True) (r.map p.relink) := by
  simp only [Loop.act] at hr
  cases hentries : p.loop.reports worker with
  | nil => simp [hentries] at hr
  | cons x rest =>
      simp only [hentries, Option.some.injEq] at hr
      subst hr
      cases hio : p.loop.io.dispatch x.1 x.2 true with
      | error e => trivial
      | ok io =>
          have hx : x ∈ p.loop.reports worker := hentries ▸ List.mem_cons_self
          have hadv : Advances p.loop.io io := by
            by_cases hmatch : Matching p.loop.io x true
            · obtain ⟨io', hio', hadv⟩ := (h.loop.dispatch_iff worker hx true).1 hmatch
              cases hio.symm.trans hio'
              exact hadv
            · cases hio.symm.trans ((h.loop.dispatch_iff worker hx true).2 hmatch)
          have hloop : LoopInv ⟨io, Function.update p.loop.reports worker rest⟩ := by
            refine ⟨hadv.bookkept, fun w y hy => ?_⟩
            rcases mem_update hy with ⟨rfl, hrest⟩ | hold
            · exact (h.loop.inTable w y (hentries ▸ List.mem_cons_of_mem x hrest)).trans_le
                hadv.grows
            · exact (h.loop.inTable w y hold).trans_le hadv.grows
          refine h.relink hloop fun fd e hevents hdue hreported => ?_
          obtain ⟨w, y, hy, hfd, hfires⟩ := hreported
          refine ⟨w, y, ?_, hfd, hevents ▸ hfires⟩
          by_cases hw : w = worker
          · subst hw
            rw [hentries] at hy
            change y ∈ Function.update p.loop.reports w rest w
            rw [Function.update_self]
            refine (List.mem_cons.mp hy).resolve_left fun hyx => ?_
            subst hyx
            subst hfd
            -- the dispatch would have taken the event out of the mask
            have hleft : p.loop.io.eventsAt y.1 =
                p.loop.io.eventsAt y.1 &&& ~~~realEvents (p.loop.io.eventsAt y.1) y.2 :=
              hevents.symm.trans (h.loop.bookkept.dispatch_leaves hio)
            have hreal := realEvents_registrable (p.loop.io.eventsAt y.1) y.2
            have hreg := h.loop.bookkept.eventsAt_registrable y.1
            have hset := hdue.1
            generalize realEvents (p.loop.io.eventsAt y.1) y.2 = real at *
            generalize p.loop.io.eventsAt y.1 = events at *
            revert hleft hset hfires
            cases e <;> rcases hreal with rfl | rfl | rfl | rfl <;>
              rcases hreg with rfl | rfl | rfl | rfl <;> decide
          · change y ∈ Function.update p.loop.reports worker rest w
            rwa [Function.update_of_ne hw]

theorem Polled.mem_reportsOf {p : Polled} {fds : List Nat} {r : Nat × Mask} :
    r ∈ p.reportsOf fds ↔
      r.1 ∈ fds ∧ r.2 = p.ready r.1 &&& watched p.loop.io r.1 ∧ r.2 ≠ 0 := by
  simp only [reportsOf, List.mem_filter, List.mem_map, decide_eq_true_eq]
  constructor
  · rintro ⟨⟨fd, hfd, rfl⟩, hne⟩
    exact ⟨hfd, rfl, hne⟩
  · rintro ⟨hfd, hr, hne⟩
    exact ⟨⟨r.1, hfd, Prod.ext rfl hr.symm⟩, hne⟩

theorem PolledInv.wait {p : Polled} (h : PolledInv p) {worker : Nat} {fds : List Nat}
    {r : Except Failure Loop} (hr : p.loop.act (.epollWait worker (p.reportsOf fds)) = some r) :
    Holds PolledInv (fun _ => True) (r.map fun loop =>
      { p with loop := loop, queued := fun fd => p.queued fd && decide (fd ∉ fds) }) := by
  simp only [Loop.act] at hr
  split at hr
  · rename_i hwait
    cases hr
    refine ⟨⟨h.loop.bookkept, fun w y hy => ?_⟩, fun fd e hdue => ?_⟩
    · rcases mem_update hy with ⟨_, hnew⟩ | hold
      · exact reportable_lt h.loop.bookkept (List.all_eq_true.mp hwait.2 y hnew)
      · exact h.loop.inTable w y hold
    · have hbefore : p.Due fd e := hdue
      obtain ⟨hreport, hfires⟩ := h.reports_due hbefore
      rcases h.kept fd e hbefore with hqueued | ⟨w, y, hy, hfd, hy'⟩
      · by_cases hfd : fd ∈ fds
        · refine .inr ⟨worker, (fd, p.ready fd &&& watched p.loop.io fd), ?_, rfl, hfires⟩
          change _ ∈ Function.update p.loop.reports worker (p.reportsOf fds) worker
          rw [Function.update_self, Polled.mem_reportsOf]
          exact ⟨hfd, rfl, hreport⟩
        · left
          change (p.queued fd && decide (fd ∉ fds)) = true
          rw [hqueued, decide_eq_true hfd]
          rfl
      · refine .inr ⟨w, y, ?_, hfd, hy'⟩
        have hw : w ≠ worker := by
          rintro rfl
          rw [hwait.1] at hy
          cases hy
        change y ∈ Function.update p.loop.reports worker (p.reportsOf fds) w
        rwa [Function.update_of_ne hw]
  · cases hr

theorem PolledInv.arrive {p : Polled} (h : PolledInv p) (fd : Nat) (bits : Mask) :
    PolledInv { p with
      ready := Function.update p.ready fd (p.ready fd ||| bits)
      queued := Function.update p.queued fd
        (p.queued fd || decide (bits &&& watched p.loop.io fd ≠ 0)) } := by
  refine ⟨h.loop, fun k e hdue => ?_⟩
  by_cases hk : k = fd
  · subst hk
    simp only [Polled.Due, Function.update_self] at hdue ⊢
    by_cases hnew : bits &&& watched p.loop.io k ≠ 0
    · rw [decide_eq_true hnew, Bool.or_true]
      exact .inl rfl
    · -- what arrived is not watched, so the event was due before
      rw [decide_eq_false hnew, Bool.or_false]
      refine h.kept k e ⟨hdue.1, fun hzero => ?_⟩
      have hbits : bits &&& (e.bits ||| epollErr ||| epollHup) ≠ 0 := by
        have hready := hdue.2
        rw [BitVec.and_or_distrib_right, hzero] at hready
        simpa using hready
      exact hnew (and_ne_zero_of_subset hbits (h.loop.bookkept.watched_event hdue.1))
  · simp only [Polled.Due, Function.update_of_ne hk] at hdue ⊢
    exact h.kept k e hdue

theorem PolledInv.shrink {p : Polled} (h : PolledInv p) {ready : Nat → Mask}
    (hready : ∀ fd, ready fd &&& p.ready fd = ready fd) : PolledInv { p with ready := ready } := by
  refine ⟨h.loop, fun fd e hdue => h.kept fd e ⟨hdue.1, ?_⟩⟩
  have hbits : (e.bits ||| epollErr ||| epollHup) &&& ready fd ≠ 0 := by
    rw [BitVec.and_comm]
    exact hdue.2
  rw [BitVec.and_comm]
  exact and_ne_zero_of_subset hbits (hready fd)

theorem PolledInv.close {p : Polled} (h : PolledInv p) {fd : Nat}
    (hfree : p.loop.io.eventsAt fd = 0) :
    PolledInv (p.relink { p.loop with io := p.loop.io.closeFd fd }) := by
  have hadv : Advances p.loop.io (p.loop.io.closeFd fd) :=
    h.loop.bookkept.closeFd fun c hc => (IOManager.eventsAt_eq hc).symm.trans hfree
  exact h.relink (h.loop.advance hadv) fun _ _ _ _ hreported => hreported

theorem polledInv_init : PolledInv .init := by
  refine ⟨loopInv_init, fun fd e hdue => ?_⟩
  exact (hdue.2 BitVec.zero_and).elim

theorem polled_preserved :
    Preserves polledStep (onOk Heeding) (Holds PolledInv fun _ => True) := by
  refine preserves_abortable fun p a r h ha hr => ?_
  cases a with
  | call a =>
      obtain ⟨q, hq, rfl⟩ := Option.map_eq_some_iff.mp hr
      exact h.call ha hq
  | dispatch worker granted =>
      obtain ⟨q, hq, rfl⟩ := Option.map_eq_some_iff.mp hr
      cases (ha : granted = true)
      exact h.dispatch hq
  | wait worker fds =>
      simp only [Polled.act] at hr
      split at hr
      · obtain ⟨q, hq, rfl⟩ := Option.map_eq_some_iff.mp hr
        exact h.wait hq
      · cases hr
  | arrive fd bits =>
      cases hr
      exact h.arrive fd bits
  | consume fd bits =>
      cases hr
      refine h.shrink fun k => ?_
      by_cases hk : k = fd
      · subst hk
        rw [Function.update_self, BitVec.and_assoc, BitVec.and_comm (~~~bits),
          ← BitVec.and_assoc, BitVec.and_self]
      · rw [Function.update_of_ne hk, BitVec.and_self]
  | close fd =>
      cases hr
      refine (h.shrink fun k => ?_).close ha
      by_cases hk : k = fd
      · subst hk
        rw [Function.update_self]
        exact BitVec.zero_and
      · rw [Function.update_of_ne hk, BitVec.and_self]

/-! ## Firing what is due -/

/-- The waiter of a set event still waits for it, or was scheduled as it stood there. -/
def Hands (m : IOManager) (c : FdContext) (m' : IOManager) (c' : FdContext) : Prop :=
  ∃ new, m'.scheduled = m.scheduled ++ new ∧ ∀ e x, c.getContext e = some x →
    c.events &&& e.bits ≠ 0 → (c'.getContext e = some x ∧ c'.events &&& e.bits ≠ 0) ∨
      ∃ w ∈ new, w.task = ⟨x.fiber, x.cb, -1⟩ ∧ x.scheduler = some w.scheduler

theorem Hands.refl (m : IOManager) (c : FdContext) : Hands m c m c :=
  ⟨[], (List.append_nil _).symm, fun _ _ hx hset => .inl ⟨hx, hset⟩⟩

theorem Hands.trans {m m₁ m₂ : IOManager} {c c₁ c₂ : FdContext} (h₁ : Hands m c m₁ c₁)
    (h₂ : Hands m₁ c₁ m₂ c₂) : Hands m c m₂ c₂ := by
  obtain ⟨new₁, hnew₁, hfrom₁⟩ := h₁
  obtain ⟨new₂, hnew₂, hfrom₂⟩ := h₂
  refine ⟨new₁ ++ new₂, by rw [hnew₂, hnew₁, List.append_assoc], fun e x hx hset => ?_⟩
  rcases hfrom₁ e x hx hset with ⟨hx₁, hset₁⟩ | ⟨w, hw, htask⟩
  · rcases hfrom₂ e x hx₁ hset₁ with hkept | ⟨w, hw, htask⟩
    · exact .inl hkept
    · exact .inr ⟨w, List.mem_append_right _ hw, htask⟩
  · exact .inr ⟨w, List.mem_append_left _ hw, htask⟩

theorem IOManager.triggerPending_hands {m m' : IOManager} {fd : Nat} {c c' : FdContext}
    {e : Event} (hcons : c.Consistent) (h : m.triggerPending fd c e = .ok (c', m')) :
    Hands m c m' c' := by
  unfold triggerPending at h
  split at h <;> cases h
  rename_i w htrigger
  have hset : c.events &&& e.bits ≠ 0 := by
    intro hclear
    rw [FdContext.triggerEvent, if_pos hclear] at htrigger
    cases htrigger
  obtain ⟨c₁, w₁, hrun, -, -, hevents, -, x, hx, hscheduler, htask⟩ := hcons.triggerEvent hset
  cases hrun.symm.trans htrigger
  refine ⟨[w], rfl, fun d y hy hd => ?_⟩
  by_cases hde : d = e
  · subst hde
    cases hx.symm.trans hy
    exact .inr ⟨w, List.mem_singleton_self w, htask, hscheduler⟩
  · left
    rw [FdContext.triggerEvent_other htrigger hde, hevents, and_andNot_of_ne hcons.registrable hde]
    exact ⟨hy, hd⟩

theorem Triggered.hands {fd : Nat} {m m' : IOManager} {c c' : FdContext}
    (h : Triggered fd m c m' c') (hc : m.fdContexts[fd]? = some c) (hcons : c.Consistent) :
    Hands m c m' c' := by
  induction h with
  | refl => exact .refl m c
  | tail hfired htrigger ih =>
      exact ih.trans (IOManager.triggerPending_hands (hfired.woke hc hcons).consistent htrigger)

/-- An event that an operation clears hands its waiter to the waiter's scheduler. -/
theorem Fires.hands {m m' : IOManager} {fd : Nat} (h : Fires fd m m') (hcoherent : Coherent m)
    {c : FdContext} (hc : m.fdContexts[fd]? = some c) {e : Event} {x : EventContext}
    (hx : c.getContext e = some x) (hset : c.events &&& e.bits ≠ 0)
    (hclear : m'.eventsAt fd &&& e.bits = 0) :
    ∃ new, m'.scheduled = m.scheduled ++ new ∧
      ∃ w ∈ new, w.task = ⟨x.fiber, x.cb, -1⟩ ∧ x.scheduler = some w.scheduler := by
  cases h with
  | early =>
      rw [IOManager.eventsAt_eq hc] at hclear
      exact (hset hclear).elim
  | @granted u m' c₁ c' op events granted hop hc' hctl hfired =>
      cases hc.symm.trans hc'
      have hcu := (epollCtl_table hctl).symm ▸ hc
      have hcons := hcoherent fd c hc
      obtain ⟨new, hnew, hfrom⟩ := hfired.hands hcu hcons
      refine ⟨new, by rw [hnew, IOManager.epollCtl_some hctl], ?_⟩
      refine (hfrom e x hx hset).resolve_left fun hkept => hkept.2 ?_
      have hc₂ : m'.fdContexts[fd]? = some c' := by
        rw [(hfired.woke hcu hcons).table, epollCtl_table hctl]
        exact List.getElem?_set_self (List.getElem?_eq_some_iff.mp hc).1
      rw [← IOManager.eventsAt_eq hc₂]
      exact hclear

theorem Bookkept.polled_subset {m : IOManager} (h : Bookkept m) (fd : Nat) (ready : Mask) :
    ready &&& watched m fd &&& (epollIn ||| epollOut) &&& ~~~m.eventsAt fd = 0 := by
  have hnothing : watched m fd &&& ((epollIn ||| epollOut) &&& ~~~m.eventsAt fd) = 0 := by
    have hreg := h.eventsAt_registrable fd
    rw [h.watched_eq]
    generalize m.eventsAt fd = events at *
    rcases hreg with rfl | rfl | rfl | rfl <;> decide
  rw [BitVec.and_assoc, BitVec.and_assoc, hnothing]
  exact BitVec.and_zero

theorem PolledInv.reportable {p : Polled} (h : PolledInv p) {fds : List Nat} {r : Nat × Mask}
    (hr : r ∈ p.reportsOf fds) : reportable p.loop.io r = true := by
  obtain ⟨-, hreport, hne⟩ := Polled.mem_reportsOf.mp hr
  have hsubset := h.loop.bookkept.polled_subset r.1 (p.ready r.1)
  rw [← hreport] at hsubset
  unfold Epoll.reportable
  rw [h.loop.bookkept.watched_eq] at hreport
  rw [h.loop.bookkept.interest_eq]
  by_cases hevents : p.loop.io.eventsAt r.1 = 0
  · rw [if_pos hevents] at hreport
    exact (hne (hreport.trans BitVec.and_zero)).elim
  · rw [if_neg hevents]
    refine decide_eq_true ?_
    have hedge : (epollIn ||| epollOut) &&& ~~~(epollEt ||| p.loop.io.eventsAt r.1) =
        (epollIn ||| epollOut) &&& ~~~p.loop.io.eventsAt r.1 := by
      have hreg := h.loop.bookkept.eventsAt_registrable r.1
      generalize p.loop.io.eventsAt r.1 = events at *
      rcases hreg with rfl | rfl | rfl | rfl <;> decide
    rwa [BitVec.and_assoc, hedge, ← BitVec.and_assoc]

/-- The event is registered no more, and its waiter was scheduled as it stood in the table. -/
def Served (m m' : IOManager) (fd : Nat) (e : Event) : Prop :=
  m'.eventsAt fd &&& e.bits = 0 ∧
    ∀ (c : FdContext) (x : EventContext), m.fdContexts[fd]? = some c → c.getContext e = some x →
      ∃ new, m'.scheduled = m.scheduled ++ new ∧
        ∃ w ∈ new, w.task = ⟨x.fiber, x.cb, -1⟩ ∧ x.scheduler = some w.scheduler

theorem Bookkept.dispatch_serves {m m' : IOManager} (h : Bookkept m) {fd : Nat} {report : Mask}
    (hr : m.dispatch fd report true = .ok m') {e : Event} (hset : m.eventsAt fd &&& e.bits ≠ 0)
    (hfires : realEvents (m.eventsAt fd) report &&& e.bits ≠ 0) : Served m m' fd e := by
  have hclear : m'.eventsAt fd &&& e.bits = 0 := by
    rw [h.dispatch_leaves hr]
    have hreg := h.eventsAt_registrable fd
    have hreal := realEvents_registrable (m.eventsAt fd) report
    generalize realEvents _ _ = real at *
    generalize m.eventsAt fd = events at *
    revert hfires
    cases e <;> rcases hreal with rfl | rfl | rfl | rfl <;>
      rcases hreg with rfl | rfl | rfl | rfl <;> decide
  refine ⟨hclear, fun c x hc hx => ?_⟩
  exact (IOManager.dispatch_fires hr).hands h.contexts hc hx (IOManager.eventsAt_eq hc ▸ hset)
    hclear

theorem PolledInv.fires {p : Polled} (h : PolledInv p) {fd : Nat} {e : Event}
    (hdue : p.Due fd e) (hqueued : p.queued fd = true) {worker : Nat}
    (hworker : p.loop.reports worker = []) :
    ∃ p₁ p₂, p.act (.wait worker [fd]) = some (.ok p₁) ∧
      p₁.act (.dispatch worker true) = some (.ok p₂) ∧ Served p.loop.io p₂.loop.io fd e := by
  obtain ⟨hreport, hfires⟩ := h.reports_due hdue
  have hbook := h.loop.bookkept
  have hreported : p.reportsOf [fd] = [(fd, p.ready fd &&& watched p.loop.io fd)] := by
    rw [Polled.reportsOf, List.map_singleton, List.filter_singleton, decide_eq_true hreport]
    rfl
  let entries := Function.update p.loop.reports worker
    [(fd, p.ready fd &&& watched p.loop.io fd)]
  let p₁ : Polled :=
    ⟨⟨p.loop.io, entries⟩, p.ready, fun k => p.queued k && decide (k ∉ [fd])⟩
  have hwait : p.act (.wait worker [fd]) = some (.ok p₁) := by
    have hall : (p.reportsOf [fd]).all (Epoll.reportable p.loop.io) = true :=
      List.all_eq_true.mpr fun r hr => h.reportable hr
    have hstart : [fd].Nodup ∧ ∀ k ∈ [fd], p.queued k = true :=
      ⟨List.nodup_singleton fd, fun k hk => List.mem_singleton.mp hk ▸ hqueued⟩
    rw [Polled.act, if_pos hstart, Loop.act, if_pos ⟨hworker, hall⟩, hreported]
    rfl
  -- the report was polled just now, so it asks for registered events only
  obtain ⟨io, hio, -⟩ : ∃ io, p.loop.io.dispatch fd (p.ready fd &&& watched p.loop.io fd) true =
      .ok io ∧ Advances p.loop.io io := by
    cases hc : p.loop.io.fdContexts[fd]? with
    | none =>
        have hset := hdue.1
        simp only [IOManager.eventsAt, hc] at hset
        exact (hset BitVec.zero_and).elim
    | some c =>
        refine hbook.dispatch true hc (.inr (.inl ?_))
        rw [← IOManager.eventsAt_eq hc]
        exact fresh_of_subset (hbook.eventsAt_registrable fd)
          (hbook.polled_subset fd (p.ready fd))
  have hfirst : entries worker = [(fd, p.ready fd &&& watched p.loop.io fd)] :=
    Function.update_self ..
  have hdispatch : p₁.loop.act (.dispatch worker true) =
      some (.ok ⟨io, Function.update entries worker []⟩) := by
    simp only [Loop.act, p₁, hfirst, hio, Except.map]
  refine ⟨p₁, p₁.relink ⟨io, Function.update entries worker []⟩, hwait, ?_,
    hbook.dispatch_serves hio hdue.1 hfires⟩
  rw [Polled.act, hdispatch]
  rfl

/-- The dispatch of an entry that stands for a registered event serves it or fails the
assertion. -/
theorem PolledInv.entry_serves {p p' : Polled} (h : PolledInv p) {worker : Nat} {r : Nat × Mask}
    (hfirst : r ∈ (p.loop.reports worker).head?) {e : Event}
    (hset : p.loop.io.eventsAt r.1 &&& e.bits ≠ 0)
    (hfires : realEvents (p.loop.io.eventsAt r.1) r.2 &&& e.bits ≠ 0)
    (hp' : p.act (.dispatch worker true) = some (.ok p')) :
    Served p.loop.io p'.loop.io r.1 e := by
  obtain ⟨q, hq, hmap⟩ := Option.map_eq_some_iff.mp hp'
  cases hentries : p.loop.reports worker with
  | nil => simp [hentries] at hfirst
  | cons x rest =>
      have hx : x = r := by simpa [hentries] using hfirst
      subst hx
      simp only [Loop.act, hentries, Option.some.injEq] at hq
      subst hq
      cases hio : p.loop.io.dispatch x.1 x.2 true with
      | error e =>
          rw [hio] at hmap
          cases hmap
      | ok io =>
          rw [hio] at hmap
          cases hmap
          exact h.loop.bookkept.dispatch_serves hio hset hfires

/-- In every run that registers on workers, whose dispatches the kernel grants and whose
descriptors are closed without events, an event that is registered and ready is on the kernel's
ready list or has an entry that stands for it; from the list any worker that waits next serves
it, and so does the entry when its turn comes and its assertion holds. -/
theorem readiness_kept {p : Polled}
    (h : Reaches polledStep (onOk Heeding) (.ok .init) (.ok p)) {fd : Nat} {e : Event}
    (hdue : p.Due fd e) :
    (p.queued fd = true ∨ p.loop.Reported fd e) ∧
    (p.queued fd = true → ∀ worker, p.loop.reports worker = [] →
      ∃ p₁ p₂, p.act (.wait worker [fd]) = some (.ok p₁) ∧
        p₁.act (.dispatch worker true) = some (.ok p₂) ∧ Served p.loop.io p₂.loop.io fd e) ∧
    ∀ worker, ∀ r ∈ (p.loop.reports worker).head?, r.1 = fd →
      realEvents (p.loop.io.eventsAt fd) r.2 &&& e.bits ≠ 0 →
      ∀ p', p.act (.dispatch worker true) = some (.ok p') →
        Served p.loop.io p'.loop.io fd e := by
  have hinv : PolledInv p := h.invariant polled_preserved polledInv_init
  refine ⟨hinv.kept fd e hdue, fun hqueued worker hworker => hinv.fires hdue hqueued hworker,
    fun worker r hr hfd hfires p' hp' => ?_⟩
  subst hfd
  exact hinv.entry_serves hr hdue.1 hfires hp'

def overlappingRun : List PolledAction :=
  [.call (.addEvent ⟨some 1, 7, .exec⟩ 5 .read none true),
    .call (.addEvent ⟨some 1, 8, .exec⟩ 5 .write none true), .arrive 5 epollIn, .wait 0 [5],
    .arrive 5 epollOut, .dispatch 0 true]

theorem readiness_kept_sample :
    ∃ p, checkedRun polledStep (fun s a => decide (onOk Heeding s a)) (.ok .init)
        overlappingRun = some (.ok p) ∧ p.loop.io.eventsAt 5 = epollOut ∧
      ∃ p₁ p₂, p.act (.wait 1 [5]) = some (.ok p₁) ∧
        p₁.act (.dispatch 1 true) = some (.ok p₂) ∧ Served p.loop.io p₂.loop.io 5 .write := by
  have hrun : (checkedRun polledStep (fun s a => decide (onOk Heeding s a)) (.ok .init)
      overlappingRun).any (okAnd fun p => decide ((p.loop.io.eventsAt 5 = epollOut ∧
        p.ready 5 &&& (Event.write.bits ||| epollErr ||| epollHup) ≠ 0) ∧
        p.queued 5 = true ∧ p.loop.reports 1 = [])) = true := by decide
  obtain ⟨p, hp, ⟨hevents, hready⟩, hqueued, hidle⟩ := exists_ok_of_any hrun
  have hdue : p.Due 5 .write := ⟨by rw [hevents]; decide, hready⟩
  exact ⟨p, hp, hevents, (readiness_kept (.of_decidedRun hp) hdue).2.1 hqueued 1 hidle⟩

/-- An event whose dispatch the kernel refuses is due, and nothing stands for it. -/
example : (checkedRun polledStep (fun _ _ => true) (.ok .init)
    [.call (.addEvent ⟨some 1, 7, .exec⟩ 5 .read none true), .arrive 5 epollIn, .wait 0 [5],
      .dispatch 0 false]).any (okAnd fun p => decide (p.loop.io.eventsAt 5 = epollIn ∧
        p.ready 5 = epollIn ∧ p.queued 5 = false ∧ p.loop.reports 0 = [])) = true := by decide

end Sylar.Epoll
