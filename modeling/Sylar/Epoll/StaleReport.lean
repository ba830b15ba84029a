import Sylar.Epoll.Bookkeeping

/-! # Reports that wait for their dispatch section

`epoll_wait` fills a worker's array from the kernel masks of that moment; each
entry is dispatched later, under the descriptor's mutex, while other threads keep
calling the event interface. The guard of the dispatch section tests the two
events of a report together and its triggers test them one by one, so a report
with both events is unsafe once exactly one of them is gone.
-/

namespace Sylar.Epoll

/-! ## The loop -/

/-- The manager and, for every worker, the entries of its `events` array that it
has not dispatched yet. -/
structure Loop where
  io : IOManager
  reports : Nat → List (Nat × Mask)

def Loop.init : Loop := ⟨.init, fun _ => []⟩

/-- What `epoll_wait` may report: a descriptor of the interest list, with `IN`/`OUT`
bits of its mask and any other bits. -/
def reportable (m : IOManager) (r : Nat × Mask) : Bool :=
  match m.interest r.1 with
  | none => false
  | some mask => r.2 &&& (epollIn ||| epollOut) &&& ~~~mask = 0

inductive LoopAction where
  | call (a : Action)
  | epollWait (worker : Nat) (reports : List (Nat × Mask))
  | dispatch (worker : Nat) (granted : Bool)
  deriving DecidableEq, Repr

/-- Any thread makes a call; a worker calls `epoll_wait` once its array is
exhausted and dispatches the entries in order. -/
def Loop.act (l : Loop) : LoopAction → Option (Except Failure Loop)
  | .call a => if a.isCall then some ((l.io.act a).map fun io => { l with io := io }) else none
  | .epollWait worker reports =>
      if l.reports worker = [] ∧ reports.all (reportable l.io) then
        some (.ok { l with reports := Function.update l.reports worker reports })
      else none
  | .dispatch worker granted =>
      match l.reports worker with
      | [] => none
      | r :: rest => some ((l.io.dispatch r.1 r.2 granted).map fun io =>
          ⟨io, Function.update l.reports worker rest⟩)

def loopStep : Except Failure Loop → LoopAction → Option (Except Failure Loop) :=
  Transition.abortable Loop.act

/-- `addEvent` runs on a worker thread, for one of the two events. -/
def OnWorkers : Loop → LoopAction → Prop
  | _, .call (.addEvent caller _ event _ _) => caller.OnWorker ∧ event ≠ .none
  | _, _ => True

instance (l : Loop) (a : LoopAction) : Decidable (OnWorkers l a) :=
  match a with
  | .call (.addEvent _ _ _ _ _) => inferInstanceAs (Decidable (_ ∧ _))
  | .call (.delEvent _ _ _) => inferInstanceAs (Decidable True)
  | .call (.cancelEvent _ _ _) => inferInstanceAs (Decidable True)
  | .call (.cancelAll _ _) => inferInstanceAs (Decidable True)
  | .call (.dispatch _ _ _) => inferInstanceAs (Decidable True)
  | .call (.closeFd _) => inferInstanceAs (Decidable True)
  | .epollWait _ _ => inferInstanceAs (Decidable True)
  | .dispatch _ _ => inferInstanceAs (Decidable True)

/-! ## The defect -/

/-- Both events are reported, one is deleted, and the report is dispatched. -/
def staleRun : List LoopAction :=
  [.call (.addEvent ⟨some 1, 7, .exec⟩ 5 .read none true),
    .call (.addEvent ⟨some 1, 8, .exec⟩ 5 .write none true),
    .epollWait 0 [(5, epollIn ||| epollOut)], .call (.delEvent 5 .write true), .dispatch 0 true]

theorem staleRun_aborts :
    Transition.checkedRun loopStep (fun s a => decide (Transition.onOk OnWorkers s a))
      (.ok .init) staleRun = some (.error .triggerEvent) := rfl

/-- Not every interleaving keeps `triggerEvent` to events whose bit is set. -/
theorem stale_report_fires_cleared_event :
    ¬ ∀ s, Transition.Reaches loopStep (Transition.onOk OnWorkers) (.ok .init) s →
      s ≠ .error .triggerEvent := by
  intro h
  exact h _ (.of_decidedRun staleRun_aborts) rfl

/-! ## Where reports are tolerated -/

/-- The entry is dispatched with no event of it set, with all of them set, or
with an `epoll_ctl` that is refused. -/
def Matching (m : IOManager) (r : Nat × Mask) (granted : Bool) : Prop :=
  m.eventsAt r.1 &&& realEvents (m.eventsAt r.1) r.2 = 0 ∨ Fresh (m.eventsAt r.1) r.2 ∨
    granted = false

instance (m : IOManager) (r : Nat × Mask) (granted : Bool) : Decidable (Matching m r granted) :=
  inferInstanceAs (Decidable (_ ∨ _ ∨ _))

/-- Every dispatched entry matches the events set at that moment. -/
def Matched (l : Loop) (a : LoopAction) : Prop :=
  OnWorkers l a ∧ match a with
    | .dispatch worker granted => ∀ r ∈ (l.reports worker).head?, Matching l.io r granted
    | _ => True

theorem mem_update {f : Nat → List (Nat × Mask)} {w v : Nat} {rs : List (Nat × Mask)}
    {r : Nat × Mask} (h : r ∈ Function.update f w rs v) : v = w ∧ r ∈ rs ∨ r ∈ f v := by
  by_cases hv : v = w
  · subst hv
    rw [Function.update_self] at h
    exact .inl ⟨rfl, h⟩
  · rw [Function.update_of_ne hv] at h
    exact .inr h

/-- Every waiting entry is for a descriptor of the table. -/
structure LoopInv (l : Loop) : Prop where
  bookkept : Bookkept l.io
  inTable : ∀ worker, ∀ r ∈ l.reports worker, r.1 < l.io.fdContexts.length

theorem LoopInv.advance {l : Loop} (h : LoopInv l) {io : IOManager} (hio : Advances l.io io) :
    LoopInv { l with io := io } :=
  ⟨hio.bookkept, fun worker r hr => (h.inTable worker r hr).trans_le hio.grows⟩

/-- A call by another thread aborts only where it registers an event twice. -/
theorem LoopInv.call {l : Loop} (h : LoopInv l) {a : Action} (hcall : a.isCall = true)
    (hworker : OnWorkers l (.call a)) :
    l.io.act a = .error .addEvent ∨ ∃ io, l.io.act a = .ok io ∧ Advances l.io io := by
  by_cases ha : Promised l.io a
  · exact .inr (h.bookkept.act ha)
  · left
    cases a with
    | addEvent caller fd event cb granted =>
        have hset : l.io.eventsAt fd &&& event.bits ≠ 0 :=
          fun hz => ha ⟨hworker.1, hworker.2, hz⟩
        cases hc : l.io.fdContexts[fd]? with
        | none =>
            simp only [IOManager.eventsAt, hc] at hset
            exact (hset BitVec.zero_and).elim
        | some c =>
            rw [IOManager.eventsAt_eq hc] at hset
            simp [IOManager.act, IOManager.addEvent_registered hc hset, Except.map]
    | dispatch fd report granted => cases hcall
    | closeFd fd => cases hcall
    | delEvent fd event granted => exact (ha trivial).elim
    | cancelEvent fd event granted => exact (ha trivial).elim
    | cancelAll fd granted => exact (ha trivial).elim

/-- In a reached state the dispatch of an entry succeeds exactly where it matches. -/
theorem LoopInv.dispatch_iff {l : Loop} (h : LoopInv l) (worker : Nat) {r : Nat × Mask}
    (hr : r ∈ l.reports worker) (granted : Bool) :
    (Matching l.io r granted →
      ∃ io, l.io.dispatch r.1 r.2 granted = .ok io ∧ Advances l.io io) ∧
    (¬ Matching l.io r granted → l.io.dispatch r.1 r.2 granted = .error .triggerEvent) := by
  have hc := List.getElem?_eq_getElem (h.inTable worker r hr)
  rw [Matching, IOManager.eventsAt_eq hc]
  refine ⟨fun hm => h.bookkept.dispatch granted hc hm, fun hn => ?_⟩
  obtain ⟨hhit, hn⟩ := not_or.mp hn
  obtain ⟨hstale, hgranted⟩ := not_or.mp hn
  rw [Bool.not_eq_false] at hgranted
  subst hgranted
  exact h.bookkept.dispatch_stale hc hhit hstale

theorem reportable_lt {m : IOManager} (h : Bookkept m) {r : Nat × Mask}
    (hr : reportable m r = true) : r.1 < m.fdContexts.length := by
  unfold reportable at hr
  cases hmask : m.interest r.1 with
  | none => simp [hmask] at hr
  | some mask => exact h.lt_length hmask

theorem loopInv_preserved :
    Transition.Preserves loopStep (Transition.onOk Matched)
      (Transition.Holds LoopInv fun e => e = .addEvent) := by
  refine Transition.preserves_abortable fun l a res h ha hres => ?_
  cases a with
  | call a =>
      simp only [Loop.act] at hres
      split at hres
      · rename_i hcall
        cases hres
        rcases h.call hcall ha.1 with he | ⟨io, hio, hadv⟩
        · rw [he]
          exact rfl
        · rw [hio]
          exact h.advance hadv
      · cases hres
  | epollWait worker reports =>
      simp only [Loop.act] at hres
      split at hres
      · rename_i hwait
        cases hres
        refine ⟨h.bookkept, fun w r hr => ?_⟩
        rcases mem_update hr with ⟨_, hnew⟩ | hold
        · exact reportable_lt h.bookkept (List.all_eq_true.mp hwait.2 r hnew)
        · exact h.inTable w r hold
      · cases hres
  | dispatch worker granted =>
      simp only [Loop.act] at hres
      cases hq : l.reports worker with
      | nil => simp [hq] at hres
      | cons r rest =>
          simp only [hq, Option.some.injEq] at hres
          have hmatch : Matching l.io r granted := ha.2 r (by simp [hq])
          obtain ⟨io, hio, hadv⟩ :=
            (h.dispatch_iff worker (by simp [hq]) granted).1 hmatch
          rw [hio] at hres
          subst hres
          refine ⟨hadv.bookkept, fun w x hx => ?_⟩
          have hold : x ∈ l.reports w := by
            rcases mem_update hx with ⟨rfl, hrest⟩ | hold
            · rw [hq]
              exact List.mem_cons_of_mem r hrest
            · exact hold
          exact (h.inTable w x hold).trans_le hadv.grows

theorem loopInv_init : LoopInv .init := ⟨bookkept_init, fun _ _ hr => by cases hr⟩

/-- In every run whose dispatched entries match, `triggerEvent` is called only for set
events with a scheduler and every decrement pays for a registration; and at a state
of such a run the next dispatch fails the assertion exactly where its entry does not match. -/
theorem matched_reports_safe {s : Except Failure Loop}
    (h : Transition.Reaches loopStep (Transition.onOk Matched) (.ok .init) s) :
    (∀ e, s = .error e → e = .addEvent) ∧
    ∀ l, s = .ok l →
      l.io.pendingEventCount = (l.io.fdContexts.map fun c => bitCount c.events).sum ∧
      l.io.underflows = 0 ∧
      (∀ (fd : Nat) (c : FdContext) (event : Event) (x : EventContext),
        l.io.fdContexts[fd]? = some c → c.getContext event = some x →
        c.events &&& event.bits ≠ 0 → x.scheduler.isSome) ∧
      ∀ worker, ∀ r ∈ (l.reports worker).head?, ∀ granted,
        loopStep s (.dispatch worker granted) = some (.error .triggerEvent) ↔
          ¬ Matching l.io r granted := by
  have hs := h.invariant loopInv_preserved loopInv_init
  cases s with
  | error e => exact ⟨fun e' he => (Except.error.inj he) ▸ hs, nofun⟩
  | ok l =>
      have hl : LoopInv l := hs
      refine ⟨nofun, fun l' hl' => ?_⟩
      cases hl'
      refine ⟨hl.bookkept.pending, hl.bookkept.underflows, ?_, ?_⟩
      · intro fd c event x hc hx hset
        exact (((hl.bookkept.contexts fd c hc).agrees event x hx).1.mp hset).1
      · intro worker r hr granted
        cases hq : l.reports worker with
        | nil => simp [hq] at hr
        | cons r' rest =>
            have hrr : r' = r := by simpa [hq] using hr
            subst hrr
            have hiff := hl.dispatch_iff worker (r := r') (by simp [hq]) granted
            simp only [loopStep, Transition.abortable, Loop.act, hq, Option.some.injEq]
            constructor
            · intro he hm
              obtain ⟨io, hio, _⟩ := hiff.1 hm
              rw [hio] at he
              cases he
            · intro hn
              rw [hiff.2 hn]
              rfl

/-- Both reported events are still set at the dispatch. -/
def matchedRun : List LoopAction :=
  [.call (.addEvent ⟨some 1, 7, .exec⟩ 5 .read none true),
    .call (.addEvent ⟨some 1, 8, .exec⟩ 5 .write none true),
    .epollWait 0 [(5, epollIn ||| epollOut)], .dispatch 0 true]

instance (l : Loop) (a : LoopAction) : Decidable (Matched l a) :=
  match a with
  | .call _ => inferInstanceAs (Decidable (_ ∧ True))
  | .epollWait _ _ => inferInstanceAs (Decidable (_ ∧ True))
  | .dispatch _ _ => inferInstanceAs (Decidable (_ ∧ ∀ r ∈ _, Matching _ r _))

theorem matched_reports_sample :
    ∃ l, Transition.checkedRun loopStep (fun s a => decide (Transition.onOk Matched s a))
        (.ok .init) matchedRun = some (.ok l) ∧
      l.io.pendingEventCount = (l.io.fdContexts.map fun c => bitCount c.events).sum := by
  have hrun : (Transition.checkedRun loopStep
      (fun s a => decide (Transition.onOk Matched s a)) (.ok .init) matchedRun).any
        (fun s => s.isOk) := by decide
  obtain ⟨s, hs, hok⟩ := (Option.any_eq_true _ _).mp hrun
  have hsafe := matched_reports_safe (.of_decidedRun hs)
  cases s with
  | error e => cases hok
  | ok l => exact ⟨l, hs, (hsafe.2 l rfl).1⟩

end Sylar.Epoll
