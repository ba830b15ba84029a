import Sylar.Collection.Sum
import Sylar.Epoll.Manager

/-! # Event bookkeeping

Four pieces of state describe the registered events: the mask and the two
`EventContext`s of every descriptor, the pending counter, and the kernel's
interest list. `Bookkept` says how they agree; every operation keeps it, whatever
`epoll_ctl` returns.
-/

namespace Sylar.Epoll

/-! ## The invariant -/

/-- All `READ`/`WRITE` bits set over the table. -/
def IOManager.totalBits (m : IOManager) : Nat :=
  (m.fdContexts.map fun c => bitCount c.events).sum

/-- The mask the kernel has for a context: none without events, else the events
and the edge-trigger flag. -/
def kernelMask (c : FdContext) : Option Mask :=
  if c.events = 0 then none else some (epollEt ||| c.events)

structure Bookkept (m : IOManager) : Prop where
  table : 32 ≤ m.fdContexts.length
  contexts : ∀ (fd : Nat) (c : FdContext), m.fdContexts[fd]? = some c → c.Consistent
  pending : m.pendingEventCount = m.totalBits
  interest : ∀ fd : Nat, m.interest fd = m.fdContexts[fd]?.bind kernelMask
  underflows : m.underflows = 0

/-- What one call does to a bookkept manager: it stays bookkept and the table does not shrink. -/
structure Advances (m m' : IOManager) : Prop where
  bookkept : Bookkept m'
  grows : m.fdContexts.length ≤ m'.fdContexts.length

theorem Bookkept.refl {m : IOManager} (h : Bookkept m) : Advances m m := ⟨h, le_rfl⟩

theorem Advances.trans {m m₁ m₂ : IOManager} (h₁ : Advances m m₁) (h₂ : Advances m₁ m₂) :
    Advances m m₂ := ⟨h₂.bookkept, h₁.grows.trans h₂.grows⟩

/-! ## The table -/

theorem contextResize_getElem? {l : List FdContext} {size : Nat} (h : l.length ≤ size) (fd : Nat) :
    (contextResize l size)[fd]? =
      if fd < l.length then l[fd]? else if fd < size then some (.new fd) else none := by
  have htake : l.take size = l := List.take_of_length_le h
  rw [contextResize, htake, List.getElem?_append]
  split
  · rfl
  · rename_i hfd
    rw [List.getElem?_map]
    by_cases hs : fd < size
    · rw [if_pos hs, List.getElem?_range' (by omega)]
      have hidx : l.length + 1 * (fd - l.length) = fd := by omega
      rw [Option.map_some, hidx]
    · rw [if_neg hs, List.getElem?_eq_none (by simpa using by omega)]
      rfl

theorem contextResize_length {l : List FdContext} {size : Nat} (h : l.length ≤ size) :
    (contextResize l size).length = size := by
  simp only [contextResize, List.length_append, List.length_take, List.length_map,
    List.length_range']
  omega

/-- The table after a store to a descriptor that it has. -/
theorem getElem?_set_present {l : List FdContext} {fd : Nat} {c : FdContext} (hc : l[fd]? = some c)
    (c' : FdContext) (k : Nat) : (l.set fd c')[k]? = if fd = k then some c' else l[k]? := by
  rw [List.getElem?_set]
  by_cases hk : fd = k
  · subst hk
    rw [if_pos rfl, if_pos rfl, if_pos (List.getElem?_eq_some_iff.mp hc).1]
  · rw [if_neg hk, if_neg hk]

/-- A growing resize adds contexts without events. -/
theorem Bookkept.resize {m : IOManager} (h : Bookkept m) {size : Nat}
    (hsize : m.fdContexts.length ≤ size) :
    Advances m { m with fdContexts := contextResize m.fdContexts size } := by
  have hget := contextResize_getElem? hsize
  refine ⟨⟨?_, ?_, ?_, ?_, h.underflows⟩, by rwa [contextResize_length hsize]⟩
  · rw [contextResize_length hsize]
    exact le_trans h.table hsize
  · intro fd c hc
    simp only [hget] at hc
    split at hc
    · exact h.contexts fd c hc
    · split at hc
      · cases hc
        exact FdContext.consistent_new fd
      · cases hc
  · have hzero : ∀ fds : List Nat,
        ((fds.map FdContext.new).map fun c => bitCount c.events).sum = 0 := by
      intro fds
      rw [List.map_map, List.sum_eq_zero]
      intro n hn
      obtain ⟨fd, _, rfl⟩ := List.mem_map.mp hn
      exact (by decide : bitCount 0x0#32 = 0)
    have htake : m.fdContexts.take size = m.fdContexts := List.take_of_length_le hsize
    simp only [IOManager.totalBits, contextResize, htake, List.map_append, List.sum_append, hzero,
      Nat.add_zero]
    exact h.pending
  · intro fd
    simp only [hget, h.interest fd]
    split
    · rfl
    · rename_i hfd
      rw [List.getElem?_eq_none (by omega)]
      split <;> rfl

/-- The invariant after one context, its share of the counter and its kernel
mask have been replaced together. -/
theorem Bookkept.replace {m : IOManager} (h : Bookkept m) {fd : Nat} {c c' : FdContext}
    (hc : m.fdContexts[fd]? = some c) (hc' : c'.Consistent) {m' : IOManager}
    (htable : m'.fdContexts = m.fdContexts.set fd c')
    (hpending : m'.pendingEventCount + bitCount c.events =
      m.pendingEventCount + bitCount c'.events)
    (hinterest : m'.interest = Function.update m.interest fd (kernelMask c'))
    (hunder : m'.underflows = m.underflows) : Advances m m' := by
  have hget : ∀ k, m'.fdContexts[k]? = if fd = k then some c' else m.fdContexts[k]? := by
    intro k
    rw [htable, getElem?_set_present hc]
  refine ⟨⟨?_, ?_, ?_, ?_, by rw [hunder, h.underflows]⟩, by rw [htable, List.length_set]⟩
  · rw [htable, List.length_set]
    exact h.table
  · intro k x hx
    rw [hget] at hx
    split at hx
    · cases hx
      exact hc'
    · exact h.contexts k x hx
  · have hsum := Collection.sum_map_set (fun x : FdContext => bitCount x.events) hc c'
    have htotal : m'.totalBits + bitCount c.events = m.totalBits + bitCount c'.events := by
      simp only [IOManager.totalBits, htable]
      exact hsum
    have hold := h.pending
    omega
  · intro k
    rw [hinterest, hget]
    by_cases hk : fd = k
    · subst hk
      simp
    · rw [Function.update_of_ne (Ne.symm hk), if_neg hk]
      exact h.interest k

theorem Bookkept.lt_length {m : IOManager} (h : Bookkept m) {fd : Nat} {mask : Mask}
    (hmask : m.interest fd = some mask) : fd < m.fdContexts.length := by
  rw [h.interest fd] at hmask
  obtain ⟨c, hc, _⟩ := Option.bind_eq_some_iff.mp hmask
  exact (List.getElem?_eq_some_iff.mp hc).1

theorem Bookkept.interest_of_set {m : IOManager} (h : Bookkept m) {fd : Nat} {c : FdContext}
    (hc : m.fdContexts[fd]? = some c) (hset : c.events ≠ 0) :
    m.interest fd = some (epollEt ||| c.events) := by
  rw [h.interest fd, hc]
  exact if_neg hset

theorem Bookkept.bitCount_le {m : IOManager} (h : Bookkept m) {fd : Nat} {c : FdContext}
    (hc : m.fdContexts[fd]? = some c) : bitCount c.events ≤ m.pendingEventCount := by
  rw [h.pending]
  exact Collection.le_sum_map (fun x : FdContext => bitCount x.events) hc

theorem bookkept_init : Bookkept IOManager.init := by
  have hget : ∀ fd : Nat,
      IOManager.init.fdContexts[fd]? = if fd < 32 then some (.new fd) else none := by
    intro fd
    have h := contextResize_getElem? (show ([] : List FdContext).length ≤ 32 by decide) fd
    change (contextResize [] 32)[fd]? = _
    simpa only [List.length_nil, Nat.not_lt_zero, if_false] using h
  refine ⟨by decide, ?_, by decide, ?_, rfl⟩
  · intro fd c hc
    rw [hget] at hc
    split at hc
    · cases hc
      exact FdContext.consistent_new fd
    · cases hc
  · intro fd
    rw [hget]
    split <;> rfl

/-! ## The kernel's answer -/

/-- A granted call sets the descriptor's mask, or removes it. -/
theorem IOManager.epollCtl_some {m m' : IOManager} {op : EpollOp} {fd : Nat} {events : Mask}
    {granted : Bool} (h : m.epollCtl op fd events granted = some m') :
    m' = { m with interest :=
      Function.update m.interest fd (if op = .del then none else some events) } := by
  unfold IOManager.epollCtl at h
  split at h <;> cases h <;> rfl

@[simp] theorem IOManager.epollCtl_refused (m : IOManager) (op : EpollOp) (fd : Nat)
    (events : Mask) : m.epollCtl op fd events false = none := by simp [IOManager.epollCtl]

/-- Changing or deleting a present descriptor is granted unless the kernel refuses. -/
theorem IOManager.epollCtl_present {m : IOManager} {fd : Nat} {mask : Mask}
    (h : m.interest fd = some mask) (op : EpollOp) (hop : op ≠ .add) (events : Mask) :
    ∃ u, m.epollCtl op fd events true = some u := by
  cases op
  case add => exact (hop rfl).elim
  all_goals simp [IOManager.epollCtl, h]

theorem kernelMask_left {c : FdContext} {left : Mask} (hleft : c.events = left) :
    (if (if left ≠ 0 then EpollOp.mod else .del) = .del then none
      else some (epollEt ||| left)) = kernelMask c := by
  subst hleft
  unfold kernelMask
  by_cases h : c.events = 0
  · simp [h]
  · rw [if_pos h, if_neg (by decide), if_neg h]

/-! ## Firing -/

/-- From `m` with context `c` at `fd` to `m'` with context `c'`: events have been
cleared, each with its decrement, and nothing else has changed. -/
structure Fired (fd : Nat) (m : IOManager) (c : FdContext) (m' : IOManager) (c' : FdContext) :
    Prop where
  consistent : c'.Consistent
  table : m'.fdContexts = m.fdContexts.set fd c'
  pending : m'.pendingEventCount + bitCount c.events = m.pendingEventCount + bitCount c'.events
  interest : m'.interest = m.interest
  underflows : m'.underflows = m.underflows

theorem Fired.refl {fd : Nat} {m : IOManager} {c : FdContext} (hc : m.fdContexts[fd]? = some c)
    (hcons : c.Consistent) : Fired fd m c m c := by
  refine ⟨hcons, ?_, rfl, rfl, rfl⟩
  obtain ⟨hlt, hget⟩ := List.getElem?_eq_some_iff.mp hc
  rw [← hget, List.set_getElem_self]

theorem Fired.trans {fd : Nat} {m m₁ m₂ : IOManager} {c c₁ c₂ : FdContext}
    (h₁ : Fired fd m c m₁ c₁) (h₂ : Fired fd m₁ c₁ m₂ c₂) : Fired fd m c m₂ c₂ := by
  refine ⟨h₂.consistent, ?_, ?_, h₂.interest.trans h₁.interest, h₂.underflows.trans h₁.underflows⟩
  · rw [h₂.table, h₁.table, List.set_set]
  · have := h₁.pending
    have := h₂.pending
    omega

theorem IOManager.triggerPending_fired {m : IOManager} (fd : Nat) {c : FdContext} {e : Event}
    (hcons : c.Consistent) (hpending : bitCount c.events ≤ m.pendingEventCount)
    (hset : c.events &&& e.bits ≠ 0) :
    ∃ c' m', m.triggerPending fd c e = .ok (c', m') ∧ Fired fd m c m' c' ∧
      c'.events = c.events &&& ~~~e.bits := by
  obtain ⟨c', w, htrigger, hcons', _, hevents, _⟩ := hcons.triggerEvent hset
  have hcount := bitCount_andNot hcons.registrable hset
  have hpos : m.pendingEventCount ≠ 0 := by omega
  refine ⟨c', { m with scheduled := m.scheduled ++ [w] }.decPending.setContext fd c',
    by simp only [triggerPending, htrigger], ⟨hcons', rfl, ?_, rfl, ?_⟩, hevents⟩
  · simp only [setContext, decPending, sizeDec, if_neg hpos, hevents]
    omega
  · simp only [setContext, decPending, if_neg hpos]

theorem IOManager.triggerIf_fired {m : IOManager} {fd : Nat} {c : FdContext} (e : Event)
    (mask : FdContext → Mask) (hc : m.fdContexts[fd]? = some c) (hcons : c.Consistent)
    (hpending : bitCount c.events ≤ m.pendingEventCount)
    (hmask : mask c &&& e.bits ≠ 0 → c.events &&& e.bits ≠ 0) :
    ∃ c' m', m.triggerIf fd c mask e = .ok (c', m') ∧ Fired fd m c m' c' ∧
      c'.events = c.events &&& ~~~(if mask c &&& e.bits ≠ 0 then e.bits else 0) := by
  unfold triggerIf
  by_cases htest : mask c &&& e.bits ≠ 0
  · simp only [if_pos htest]
    exact triggerPending_fired fd hcons hpending (hmask htest)
  · simp only [if_neg htest]
    exact ⟨c, m, rfl, .refl hc hcons, (andNot_zero _).symm⟩

theorem Fired.getElem? {fd : Nat} {m m' : IOManager} {c c' : FdContext} (h : Fired fd m c m' c')
    (hc : m.fdContexts[fd]? = some c) : m'.fdContexts[fd]? = some c' := by
  rw [h.table, List.getElem?_set_self (List.getElem?_eq_some_iff.mp hc).1]

theorem Fired.bitCount_le {fd : Nat} {m m' : IOManager} {c c' : FdContext}
    (h : Fired fd m c m' c') (hle : bitCount c.events ≤ m.pendingEventCount) :
    bitCount c'.events ≤ m'.pendingEventCount := by
  have := h.pending
  omega

/-- Both tests in turn: every event that is tested positively is set, so both
sections succeed and clear exactly the tested bits. -/
theorem IOManager.triggerBoth_fired {m : IOManager} {fd : Nat} {c : FdContext}
    (mask : FdContext → Mask) (hc : m.fdContexts[fd]? = some c) (hcons : c.Consistent)
    (hpending : bitCount c.events ≤ m.pendingEventCount) (hreg : Registrable (mask c))
    (hsub : ∀ e : Event, mask c &&& e.bits ≠ 0 → c.events &&& e.bits ≠ 0)
    (hstable : ∀ x : FdContext, x.events &&& Event.write.bits = c.events &&& Event.write.bits →
      mask x &&& Event.write.bits = mask c &&& Event.write.bits) :
    ∃ c₁ m₁ c₂ m₂, m.triggerIf fd c mask .read = .ok (c₁, m₁) ∧
      m₁.triggerIf fd c₁ mask .write = .ok (c₂, m₂) ∧ Fired fd m c m₂ c₂ ∧
      c₂.events = c.events &&& ~~~mask c := by
  obtain ⟨c₁, m₁, h₁, hf₁, he₁⟩ :=
    triggerIf_fired .read mask hc hcons hpending (hsub .read)
  have hwrite : c₁.events &&& Event.write.bits = c.events &&& Event.write.bits := by
    rw [he₁]
    split
    · exact and_andNot_of_ne hcons.registrable (by decide)
    · rw [andNot_zero]
  have hmask := hstable c₁ hwrite
  obtain ⟨c₂, m₂, h₂, hf₂, he₂⟩ :=
    triggerIf_fired .write mask (hf₁.getElem? hc) hf₁.consistent
      (hf₁.bitCount_le hpending) (by rw [hmask, hwrite]; exact hsub .write)
  refine ⟨c₁, m₁, c₂, m₂, h₁, h₂, hf₁.trans hf₂, ?_⟩
  rw [he₂, he₁, hmask]
  exact andNot_andNot hcons.registrable hreg

/-! ## Each operation keeps the invariant -/

theorem Bookkept.addEvent {m : IOManager} (h : Bookkept m) {caller : Caller} {fd : Nat}
    {event : Event} (cb : Option Cb) (granted : Bool) (hcaller : caller.OnWorker)
    (hevent : event ≠ .none)
    (hfree : ∀ c : FdContext, m.fdContexts[fd]? = some c → c.events &&& event.bits = 0) :
    ∃ r m', m.addEvent caller fd event cb granted = .ok (r, m') ∧ Advances m m' := by
  -- the table after the fast or the slow path, and the context found in it
  obtain ⟨t, ht, hmt, c, hc, hclear⟩ : ∃ t,
      (if fd < m.fdContexts.length then m
        else { m with fdContexts := contextResize m.fdContexts (fd * 3 / 2) }) = t ∧
        Advances m t ∧
      ∃ c, t.fdContexts[fd]? = some c ∧ c.events &&& event.bits = 0 := by
    by_cases hfd : fd < m.fdContexts.length
    · refine ⟨m, if_pos hfd, h.refl, m.fdContexts[fd], List.getElem?_eq_getElem hfd, ?_⟩
      exact hfree _ (List.getElem?_eq_getElem hfd)
    · have htable := h.table
      have hsize : m.fdContexts.length ≤ fd * 3 / 2 := by omega
      refine ⟨_, if_neg hfd, h.resize hsize, .new fd, ?_, BitVec.zero_and⟩
      rw [contextResize_getElem? hsize, if_neg hfd, if_pos (by omega)]
  have htb := hmt.bookkept
  have hcons := htb.contexts fd c hc
  obtain ⟨x, hx⟩ : ∃ x, c.getContext event = some x := by
    cases event
    · exact (hevent rfl).elim
    · exact ⟨_, rfl⟩
    · exact ⟨_, rfl⟩
  have hempty : x = .empty := (hcons.agrees event x hx).2 hclear
  have hstate : ¬ (cb = none ∧ caller.state ≠ .exec) := fun hn => hn.2 hcaller.2
  unfold IOManager.addEvent
  simp only [ht, hc, if_neg (not_not.mpr hclear)]
  cases hctl : t.epollCtl (if c.events ≠ 0 then EpollOp.mod else .add) fd
      (epollEt ||| c.events ||| event.bits) granted with
  | none => exact ⟨_, _, rfl, hmt⟩
  | some u =>
      have hu := IOManager.epollCtl_some hctl
      have hop : (if c.events ≠ 0 then EpollOp.mod else .add) ≠ .del := by split <;> decide
      simp only [hx, hempty, ne_eq, not_true_eq_false, if_false, if_neg hstate]
      refine ⟨_, _, rfl, ?_⟩
      have hset := and_or_self hcons.registrable hevent
      refine hmt.trans (htb.replace hc (hcons.replace hevent (hcons.registrable.or_bits event)
        (fun d hd => and_or_of_ne hcons.registrable hd)
        (x := if cb.isSome then ⟨caller.scheduler, none, cb⟩
          else ⟨caller.scheduler, some caller.fiber, none⟩) ⟨⟨fun _ => ?_, fun _ => hset⟩, ?_⟩)
        ?_ ?_ ?_ ?_)
      · have hsched := hcaller.1
        cases cb <;> simp [EventContext.Armed, hsched]
      · exact fun hz => (hset hz).elim
      · subst hu
        rfl
      · subst hu
        simp only [IOManager.setContext, FdContext.setContext_events]
        rw [bitCount_or hcons.registrable hevent hclear]
        omega
      · subst hu
        have hne : c.events ||| event.bits ≠ 0 := by
          intro hz
          rw [hz] at hset
          exact hset BitVec.zero_and
        simp only [IOManager.setContext, if_neg hop, kernelMask, FdContext.setContext_events,
          if_neg hne, BitVec.or_assoc]
      · subst hu
        rfl

theorem IOManager.addEvent_registered {m : IOManager} {fd : Nat} {c : FdContext} {event : Event}
    (hc : m.fdContexts[fd]? = some c) (hset : c.events &&& event.bits ≠ 0) (caller : Caller)
    (cb : Option Cb) (granted : Bool) :
    m.addEvent caller fd event cb granted = .error .addEvent := by
  have hfd : fd < m.fdContexts.length := (List.getElem?_eq_some_iff.mp hc).1
  simp only [IOManager.addEvent, if_pos hfd, hc, if_pos hset]

theorem Bookkept.delEvent {m : IOManager} (h : Bookkept m) (fd : Nat) (event : Event)
    (granted : Bool) : ∃ r m', m.delEvent fd event granted = .ok (r, m') ∧ Advances m m' := by
  unfold IOManager.delEvent
  cases hc : m.fdContexts[fd]? with
  | none => exact ⟨_, _, rfl, h.refl⟩
  | some c =>
      by_cases hset : c.events &&& event.bits = 0
      · simp only [if_pos hset]
        exact ⟨_, _, rfl, h.refl⟩
      · simp only [if_neg hset]
        have hcons := h.contexts fd c hc
        cases hctl : m.epollCtl (if c.events &&& ~~~event.bits ≠ 0 then EpollOp.mod else .del) fd
            (epollEt ||| c.events &&& ~~~event.bits) granted with
        | none => exact ⟨_, _, rfl, h.refl⟩
        | some u =>
            have hu := IOManager.epollCtl_some hctl
            obtain ⟨x, hx, _⟩ := hcons.armed hset
            have hevent : event ≠ .none := by
              rintro rfl
              exact hset BitVec.and_zero
            have hcount := bitCount_andNot hcons.registrable hset
            have hpos : m.pendingEventCount ≠ 0 := by
              have := h.bitCount_le hc
              omega
            simp only [hx]
            refine ⟨_, _, rfl, h.replace hc (hcons.replace hevent
              (hcons.registrable.andNot event.registrable)
              (fun d hd => and_andNot_of_ne hcons.registrable hd)
              ⟨⟨fun hn => (hn (and_andNot_self hcons.registrable event)).elim,
                fun ha => (EventContext.not_armed_empty ha).elim⟩, fun _ => rfl⟩) ?_ ?_ ?_ ?_⟩
            · subst hu
              rfl
            · subst hu
              simp only [IOManager.setContext, IOManager.decPending, sizeDec, if_neg hpos,
                FdContext.setContext_events]
              omega
            · subst hu
              simp only [IOManager.setContext, IOManager.decPending]
              exact congrArg _ (kernelMask_left (FdContext.setContext_events _ _ _))
            · subst hu
              simp only [IOManager.setContext, IOManager.decPending, if_neg hpos]

/-- A granted `epoll_ctl` leaves the table alone, and the pending events of a context are
counted. -/
theorem Bookkept.granted {m u : IOManager} (h : Bookkept m) {fd : Nat} {c : FdContext}
    (hc : m.fdContexts[fd]? = some c) {mask : Option Mask}
    (hu : u = { m with interest := Function.update m.interest fd mask }) :
    u.fdContexts[fd]? = some c ∧ bitCount c.events ≤ u.pendingEventCount := by
  subst hu
  exact ⟨hc, h.bitCount_le hc⟩

/-- A granted `epoll_ctl` for the events that are left, followed by the firing
of the others, is one replacement. -/
theorem Bookkept.fired {m u m' : IOManager} (h : Bookkept m) {fd : Nat} {c c' : FdContext}
    (hc : m.fdContexts[fd]? = some c)
    (hu : u = { m with interest := Function.update m.interest fd (kernelMask c') })
    (hf : Fired fd u c m' c') : Advances m m' := by
  subst hu
  exact h.replace hc hf.consistent hf.table hf.pending hf.interest hf.underflows

theorem Bookkept.cancelEvent {m : IOManager} (h : Bookkept m) (fd : Nat) (event : Event)
    (granted : Bool) : ∃ r m', m.cancelEvent fd event granted = .ok (r, m') ∧ Advances m m' := by
  unfold IOManager.cancelEvent
  cases hc : m.fdContexts[fd]? with
  | none => exact ⟨_, _, rfl, h.refl⟩
  | some c =>
      by_cases hset : c.events &&& event.bits = 0
      · simp only [if_pos hset]
        exact ⟨_, _, rfl, h.refl⟩
      · simp only [if_neg hset]
        cases hctl : m.epollCtl (if c.events &&& ~~~event.bits ≠ 0 then EpollOp.mod else .del) fd
            (epollEt ||| c.events &&& ~~~event.bits) granted with
        | none => exact ⟨_, _, rfl, h.refl⟩
        | some u =>
            have hu := IOManager.epollCtl_some hctl
            obtain ⟨_, hpending⟩ := h.granted hc hu
            obtain ⟨c', m', htrigger, hf, hevents⟩ :=
              IOManager.triggerPending_fired fd (h.contexts fd c hc) hpending hset
            rw [kernelMask_left hevents] at hu
            exact ⟨true, m', by simp only [htrigger, Except.map], h.fired hc hu hf⟩

theorem Bookkept.cancelAll {m : IOManager} (h : Bookkept m) (fd : Nat) (granted : Bool) :
    ∃ r m', m.cancelAll fd granted = .ok (r, m') ∧ Advances m m' := by
  unfold IOManager.cancelAll
  cases hc : m.fdContexts[fd]? with
  | none => exact ⟨_, _, rfl, h.refl⟩
  | some c =>
      by_cases hset : c.events = 0
      · simp only [if_pos hset]
        exact ⟨_, _, rfl, h.refl⟩
      · simp only [if_neg hset]
        cases hctl : m.epollCtl .del fd 0 granted with
        | none => exact ⟨_, _, rfl, h.refl⟩
        | some u =>
            have hu := IOManager.epollCtl_some hctl
            have hcons := h.contexts fd c hc
            obtain ⟨hcu, hpending⟩ := h.granted hc hu
            obtain ⟨c₁, m₁, c₂, m₂, h₁, h₂, hf, hevents⟩ :=
              IOManager.triggerBoth_fired FdContext.events hcu hcons hpending
                hcons.registrable (fun _ hx => hx) (fun _ hx => hx)
            -- both tests read the context itself, so nothing is left
            have hzero : c₂.events = 0 := by
              rw [hevents]
              rcases hcons.registrable with hr | hr | hr | hr <;> rw [hr] <;> decide
            rw [if_pos rfl] at hu
            have hmask : kernelMask c₂ = none := if_pos hzero
            rw [← hmask] at hu
            exact ⟨true, m₂, by simp only [h₁, h₂, if_pos hzero], h.fired hc hu hf⟩

theorem realEvents_registrable (events report : Mask) :
    Registrable (realEvents events report) := by
  unfold realEvents
  split <;> split <;> decide

/-- The events that a dispatch section would fire are all set. -/
def Fresh (events report : Mask) : Prop := realEvents events report &&& ~~~events = 0

instance (events report : Mask) : Decidable (Fresh events report) :=
  inferInstanceAs (Decidable (_ = _))

theorem Fresh.bit {events report : Mask} (h : Fresh events report) (hreg : Registrable events)
    (e : Event) (he : realEvents events report &&& e.bits ≠ 0) : events &&& e.bits ≠ 0 := by
  have hreal := realEvents_registrable events report
  unfold Fresh at h
  generalize realEvents events report = real at *
  revert h he
  cases e <;> rcases hreal with rfl | rfl | rfl | rfl <;> rcases hreg with rfl | rfl | rfl | rfl <;>
    decide

theorem Bookkept.dispatch {m : IOManager} (h : Bookkept m) {fd : Nat} {report : Mask}
    (granted : Bool) {c : FdContext} (hc : m.fdContexts[fd]? = some c)
    (hmatch : c.events &&& realEvents c.events report = 0 ∨ Fresh c.events report ∨
      granted = false) :
    ∃ m', m.dispatch fd report granted = .ok m' ∧ Advances m m' := by
  unfold IOManager.dispatch
  simp only [hc]
  by_cases hmiss : c.events &&& realEvents c.events report = Event.none.bits
  · simp only [if_pos hmiss]
    exact ⟨m, rfl, h.refl⟩
  · have hcons := h.contexts fd c hc
    simp only [if_neg hmiss]
    cases hctl : m.epollCtl
        (if c.events &&& ~~~realEvents c.events report ≠ 0 then EpollOp.mod else .del) fd
        (epollEt ||| c.events &&& ~~~realEvents c.events report) granted with
    | none => exact ⟨m, rfl, h.refl⟩
    | some u =>
        have hsub : Fresh c.events report := by
          rcases hmatch with hz | hf | rfl
          · exact (hmiss hz).elim
          · exact hf
          · simp at hctl
        have hu := IOManager.epollCtl_some hctl
        obtain ⟨hcu, hpending⟩ := h.granted hc hu
        obtain ⟨c₁, m₁, c₂, m₂, h₁, h₂, hf, hevents⟩ :=
          IOManager.triggerBoth_fired (fun _ => realEvents c.events report) hcu hcons
            hpending (realEvents_registrable _ _) (hsub.bit hcons.registrable) (fun _ _ => rfl)
        rw [kernelMask_left hevents] at hu
        exact ⟨m₂, by simp only [h₁, h₂], h.fired hc hu hf⟩

/-- A granted dispatch that would fire an event whose bit is clear fails the assertion. -/
theorem Bookkept.dispatch_stale {m : IOManager} (h : Bookkept m) {fd : Nat} {report : Mask}
    {c : FdContext} (hc : m.fdContexts[fd]? = some c)
    (hhit : c.events &&& realEvents c.events report ≠ 0) (hstale : ¬ Fresh c.events report) :
    m.dispatch fd report true = .error .triggerEvent := by
  have hcons := h.contexts fd c hc
  have hset : c.events ≠ 0 := by
    intro hz
    rw [hz] at hhit
    exact hhit BitVec.zero_and
  obtain ⟨u, hctl⟩ := IOManager.epollCtl_present (h.interest_of_set hc hset)
    (if c.events &&& ~~~realEvents c.events report ≠ 0 then .mod else .del)
    (by split <;> decide) (epollEt ||| c.events &&& ~~~realEvents c.events report)
  have hu := IOManager.epollCtl_some hctl
  obtain ⟨hcu, hpending⟩ := h.granted hc hu
  have hclear : ∀ (v : IOManager) (x : FdContext) (e : Event),
      realEvents c.events report &&& e.bits ≠ 0 → x.events &&& e.bits = 0 →
      v.triggerIf fd x (fun _ => realEvents c.events report) e = .error .triggerEvent := by
    intro v x e he hx
    simp only [IOManager.triggerIf, if_pos he, IOManager.triggerPending, FdContext.triggerEvent,
      if_pos hx]
  have hne : ¬ c.events &&& realEvents c.events report = Event.none.bits := hhit
  unfold IOManager.dispatch
  simp only [hc, if_neg hne, hctl]
  by_cases hread : realEvents c.events report &&& Event.read.bits ≠ 0 ∧
      c.events &&& Event.read.bits = 0
  · simp only [hclear u c .read hread.1 hread.2]
  · -- the read event is safe, so it is the write event that is reported and clear
    have hwrite : realEvents c.events report &&& Event.write.bits ≠ 0 ∧
        c.events &&& Event.write.bits = 0 := by
      have hreal := realEvents_registrable c.events report
      have hreg := hcons.registrable
      unfold Fresh at hstale
      generalize realEvents c.events report = real at *
      generalize c.events = events at *
      revert hstale hread
      rcases hreal with rfl | rfl | rfl | rfl <;> rcases hreg with rfl | rfl | rfl | rfl <;> decide
    obtain ⟨c₁, m₁, h₁, hf₁, he₁⟩ := IOManager.triggerIf_fired .read
      (fun _ => realEvents c.events report) hcu hcons hpending
      (fun hr hz => hread ⟨hr, hz⟩)
    have hkeep : c₁.events &&& Event.write.bits = 0 := by
      rw [he₁]
      split
      · rw [and_andNot_of_ne hcons.registrable (by decide)]
        exact hwrite.2
      · rw [andNot_zero]
        exact hwrite.2
    simp only [h₁, hclear m₁ c₁ .write hwrite.1 hkeep]

theorem Bookkept.closeFd {m : IOManager} (h : Bookkept m) {fd : Nat}
    (hfree : ∀ c : FdContext, m.fdContexts[fd]? = some c → c.events = 0) :
    Advances m (m.closeFd fd) := by
  refine ⟨⟨h.table, h.contexts, h.pending, fun k => ?_, h.underflows⟩, le_rfl⟩
  simp only [IOManager.closeFd]
  by_cases hk : k = fd
  · subst hk
    rw [Function.update_self]
    cases hc : m.fdContexts[k]? with
    | none => rfl
    | some c => exact (if_pos (hfree c hc)).symm
  · rw [Function.update_of_ne hk]
    exact h.interest k

/-! ## Reports that are up to date -/

theorem widenReport_bit {events report b : Mask} (h : widenReport events report &&& b ≠ 0) :
    report &&& b ≠ 0 ∨ events &&& b ≠ 0 := by
  by_contra hn
  obtain ⟨hr, hc⟩ := not_or.mp hn
  rw [not_not] at hr hc
  apply h
  unfold widenReport
  split
  · rw [BitVec.and_or_distrib_right, hr, BitVec.and_assoc, hc]
    decide
  · exact hr

theorem fresh_of_subset {events report : Mask} (hreg : Registrable events)
    (h : report &&& (epollIn ||| epollOut) &&& ~~~events = 0) : Fresh events report := by
  -- an event that is not set is in neither part of the widened report
  have hclear : ∀ e : Event, events &&& e.bits = 0 → widenReport events report &&& e.bits = 0 := by
    intro e he
    by_contra hne
    have hmask : (epollIn ||| epollOut) &&& (~~~events &&& e.bits) = e.bits := by
      revert he
      cases e <;> rcases hreg with rfl | rfl | rfl | rfl <;> decide
    apply (widenReport_bit hne).resolve_right (not_not.mpr he)
    rw [← hmask, ← BitVec.and_assoc, ← BitVec.and_assoc, h]
    exact BitVec.zero_and
  have hin : (if widenReport events report &&& epollIn ≠ 0 then Event.read.bits
        else Event.none.bits) = Event.none.bits ∨
      (if widenReport events report &&& epollIn ≠ 0 then Event.read.bits
        else Event.none.bits) = Event.read.bits ∧ events &&& Event.read.bits ≠ 0 := by
    by_cases hw : widenReport events report &&& epollIn ≠ 0
    · exact .inr ⟨if_pos hw, fun he => hw (hclear .read he)⟩
    · exact .inl (if_neg hw)
  have hout : (if widenReport events report &&& epollOut ≠ 0 then Event.write.bits
        else Event.none.bits) = Event.none.bits ∨
      (if widenReport events report &&& epollOut ≠ 0 then Event.write.bits
        else Event.none.bits) = Event.write.bits ∧ events &&& Event.write.bits ≠ 0 := by
    by_cases hw : widenReport events report &&& epollOut ≠ 0
    · exact .inr ⟨if_pos hw, fun he => hw (hclear .write he)⟩
    · exact .inl (if_neg hw)
  unfold Fresh realEvents
  rcases hin with hin | ⟨hin, hr⟩ <;> rcases hout with hout | ⟨hout, hw⟩ <;> rw [hin, hout]
  · exact BitVec.zero_and
  · revert hw
    rcases hreg with rfl | rfl | rfl | rfl <;> decide
  · revert hr
    rcases hreg with rfl | rfl | rfl | rfl <;> decide
  · revert hr hw
    rcases hreg with rfl | rfl | rfl | rfl <;> decide

/-! ## Whole runs -/

/-- What the callers and the kernel promise: `addEvent` runs on a worker thread for an
event that is not registered, a dispatched report has no `IN`/`OUT` bit outside
the descriptor's events, and a descriptor is closed without events. -/
def Promised (m : IOManager) : Action → Prop
  | .addEvent caller fd event _ _ =>
      caller.OnWorker ∧ event ≠ .none ∧ m.eventsAt fd &&& event.bits = 0
  | .dispatch fd report _ =>
      fd < m.fdContexts.length ∧ report &&& (epollIn ||| epollOut) &&& ~~~m.eventsAt fd = 0
  | .closeFd fd => m.eventsAt fd = 0
  | _ => True

instance (m : IOManager) (a : Action) : Decidable (Promised m a) :=
  match a with
  | .addEvent _ _ _ _ _ => inferInstanceAs (Decidable (_ ∧ _ ∧ _))
  | .dispatch _ _ _ => inferInstanceAs (Decidable (_ ∧ _))
  | .closeFd _ => inferInstanceAs (Decidable (_ = _))
  | .delEvent _ _ _ => inferInstanceAs (Decidable True)
  | .cancelEvent _ _ _ => inferInstanceAs (Decidable True)
  | .cancelAll _ _ => inferInstanceAs (Decidable True)

/-- The step lemma: a promised call fails no assertion and keeps the invariant. -/
theorem Bookkept.act {m : IOManager} (h : Bookkept m) {a : Action} (ha : Promised m a) :
    ∃ m', m.act a = .ok m' ∧ Advances m m' := by
  cases a with
  | addEvent caller fd event cb granted =>
      obtain ⟨hcaller, hevent, hfree⟩ := ha
      obtain ⟨r, m', hr, hm'⟩ := h.addEvent cb granted hcaller hevent fun c hc => by
        rwa [← IOManager.eventsAt_eq hc]
      exact ⟨m', by simp [IOManager.act, hr, Except.map], hm'⟩
  | delEvent fd event granted =>
      obtain ⟨r, m', hr, hm'⟩ := h.delEvent fd event granted
      exact ⟨m', by simp [IOManager.act, hr, Except.map], hm'⟩
  | cancelEvent fd event granted =>
      obtain ⟨r, m', hr, hm'⟩ := h.cancelEvent fd event granted
      exact ⟨m', by simp [IOManager.act, hr, Except.map], hm'⟩
  | cancelAll fd granted =>
      obtain ⟨r, m', hr, hm'⟩ := h.cancelAll fd granted
      exact ⟨m', by simp [IOManager.act, hr, Except.map], hm'⟩
  | dispatch fd report granted =>
      obtain ⟨hfd, hsub⟩ := ha
      have hc := List.getElem?_eq_getElem hfd
      rw [IOManager.eventsAt_eq hc] at hsub
      have hfresh := fresh_of_subset (h.contexts _ _ hc).registrable hsub
      exact h.dispatch granted hc (.inr (.inl hfresh))
  | closeFd fd =>
      exact ⟨_, rfl, h.closeFd fun c hc => by rwa [← IOManager.eventsAt_eq hc]⟩

theorem bookkept_preserved :
    Transition.Preserves step (Transition.onOk Promised)
      (Transition.Holds Bookkept fun _ => False) := by
  refine Transition.preserves_abortable fun m a r h ha hr => ?_
  obtain ⟨m', hm', hb⟩ := h.act ha
  cases hr
  rw [hm']
  exact hb.bookkept

/-- Event bookkeeping over whole runs: no assertion has failed; the counter is the
number of set bits and was never decremented at 0; a bit is set exactly when its context
has a scheduler and one of fiber and callback, and a clear bit has an empty
context; the kernel holds the events with the edge-trigger flag, and no entry for a
descriptor without events. -/
theorem event_bookkeeping {s : Except Failure IOManager}
    (h : Transition.Reaches step (Transition.onOk Promised) (.ok .init) s) :
    ∃ m, s = .ok m ∧
      (m.pendingEventCount = (m.fdContexts.map fun c => bitCount c.events).sum ∧
        m.underflows = 0) ∧
      (∀ (fd : Nat) (c : FdContext) (event : Event) (x : EventContext),
        m.fdContexts[fd]? = some c → c.getContext event = some x →
        (c.events &&& event.bits ≠ 0 ↔
          x.scheduler.isSome ∧ (x.fiber.isSome ↔ ¬ x.cb.isSome)) ∧
        (c.events &&& event.bits = 0 → x = .empty)) ∧
      (∀ fd : Nat, m.interest fd =
        if m.eventsAt fd = 0 then none else some (epollEt ||| m.eventsAt fd)) := by
  have hs := h.invariant bookkept_preserved bookkept_init
  cases s with
  | error e => exact hs.elim
  | ok m =>
      have hb : Bookkept m := hs
      refine ⟨m, rfl, ⟨hb.pending, hb.underflows⟩, ?_, ?_⟩
      · intro fd c event x hc hx
        exact (hb.contexts fd c hc).agrees event x hx
      · intro fd
        rw [hb.interest fd, IOManager.eventsAt]
        cases m.fdContexts[fd]? with
        | none => rfl
        | some c => rfl

/-- Both events of a descriptor are registered, a report fires one and closing cancels the other. -/
def sampleRun : List Action :=
  [.addEvent ⟨some 1, 7, .exec⟩ 40 .read none true,
    .addEvent ⟨some 1, 7, .exec⟩ 40 .write (some 3) true,
    .dispatch 40 epollIn true, .cancelAll 40 true, .closeFd 40]

theorem event_bookkeeping_sample :
    ∃ m, Transition.checkedRun step (fun s a => decide (Transition.onOk Promised s a))
        (.ok .init) sampleRun = some (.ok m) ∧
      m.pendingEventCount = (m.fdContexts.map fun c => bitCount c.events).sum ∧
      m.underflows = 0 := by
  have hrun : (Transition.checkedRun step (fun s a => decide (Transition.onOk Promised s a))
      (.ok .init) sampleRun).isSome := by decide
  obtain ⟨s, hs⟩ := Option.isSome_iff_exists.mp hrun
  obtain ⟨m, rfl, hm, _⟩ := event_bookkeeping (.of_decidedRun hs)
  exact ⟨m, hs, hm⟩

end Sylar.Epoll
