import Sylar.Collection.Sum
import Sylar.Scheduler.Inversion

/-! # Conservation of tasks

Every ticket handed out at a push is in the queue or was erased by one scan, the
queue keeps the order of submission, and the active counter is the number of workers that
took an entry and have not executed the decrement for it. Nothing is assumed about the
fibers, so the other assertions of the code may fail.
-/

namespace Sylar.Scheduler

open Transition Collection

variable {n : Nat} {k : Kind}

/-! ## The invariant -/

/-- The program points between taking an entry and the decrement that belongs to it. -/
def Pc.holds : Pc → Bool
  | .checkTerm _ | .checkExcept _ | .swapAssert _ _ | .swapExec _ _ | .swapCtx _ _
  | .running _ _ | .yieldReady _ _ | .swapOut _ _ | .decActive _ _ | .prepare _
  | .prepareWrite _ _ | .deadDec _ => true
  | _ => false

def Worker.holding (x : Worker) : Nat := if x.held.isSome then 1 else 0

/-- Tickets, order and counter of a queue that loses nothing. -/
structure Conserves (s : State n) : Prop where
  tickets : (s.queue.map Entry.ticket ++ s.taken).Perm (List.range s.submitted.length)
  ordered : (s.queue.map Entry.ticket).Pairwise (· < ·)
  content : ∀ e ∈ s.queue, s.submitted[e.ticket]? = some e.task
  nonEmpty : ∀ ft ∈ s.submitted, ft.nonEmpty = true
  active : s.active = ∑ w, (s.workers w).holding
  held : ∀ w, (s.workers w).held.isSome = (s.workers w).pc.holds

theorem conserves_init (n : Nat) : Conserves (.init n) where
  tickets := List.Perm.refl _
  ordered := List.Pairwise.nil
  content := nofun
  nonEmpty := nofun
  active := by simp [State.init, Worker.holding]
  held := fun _ => rfl

theorem Conserves.queue_nonEmpty {s : State n} (h : Conserves s) :
    ∀ e ∈ s.queue, e.task.nonEmpty = true :=
  fun e he => h.nonEmpty _ (List.mem_of_getElem? (h.content e he))

/-- Outside that stretch a worker owes no decrement. -/
theorem Conserves.free {s : State n} (h : Conserves s) {w : Fin n}
    (hpc : (s.workers w).pc.holds = false) : (s.workers w).held = none := by
  have hheld := h.held w
  rw [hpc] at hheld
  exact Option.isNone_iff_eq_none.mp (Option.isSome_eq_false_iff.mp hheld)

/-- A step that leaves the queue alone and no worker with more or fewer tasks. -/
theorem Conserves.frame {s s' : State n} (h : Conserves s) (hqueue : s'.queue = s.queue)
    (hsubmitted : s'.submitted = s.submitted) (htaken : s'.taken = s.taken)
    (hactive : s'.active = s.active)
    (hworkers : ∀ w, (s'.workers w).held = (s.workers w).held ∧
      (s'.workers w).pc.holds = (s.workers w).pc.holds) : Conserves s' where
  tickets := by rw [hqueue, hsubmitted, htaken]; exact h.tickets
  ordered := by rw [hqueue]; exact h.ordered
  content := by rw [hqueue, hsubmitted]; exact h.content
  nonEmpty := by rw [hsubmitted]; exact h.nonEmpty
  active := by
    rw [hactive, h.active]
    exact Finset.sum_congr rfl fun w _ => by rw [Worker.holding, Worker.holding, (hworkers w).1]
  held := fun w => by rw [(hworkers w).1, (hworkers w).2, h.held w]

theorem Conserves.move {s s' : State n} (h : Conserves s) {w : Fin n} {x : Worker}
    (hs' : s' = { s' with
      workers := Function.update s.workers w x
      queue := s.queue
      submitted := s.submitted
      taken := s.taken
      active := s.active })
    (hheld : x.held = (s.workers w).held) (hpc : x.pc.holds = (s.workers w).pc.holds) :
    Conserves s' := by
  refine h.frame (by rw [hs']) (by rw [hs']) (by rw [hs']) (by rw [hs']) fun v => ?_
  have hworkers : s'.workers = Function.update s.workers w x := by rw [hs']
  rw [hworkers]
  by_cases hv : v = w
  · rw [hv, Function.update_self]
    exact ⟨hheld, hpc⟩
  · rw [Function.update_of_ne hv]
    exact ⟨rfl, rfl⟩

/-! ## Pushing, taking, paying -/

theorem Conserves.push {s : State n} (h : Conserves s) {fts : List FiberAndThread}
    (hfts : ∀ ft ∈ fts, ft.nonEmpty = true) : Conserves (s.push fts) where
  tickets := by
    have hrange : List.range (s.submitted.length + fts.length) =
        List.range s.submitted.length ++ List.range' s.submitted.length fts.length := by
      have happ := List.range'_append_1 (s := 0) (m := s.submitted.length) (n := fts.length)
      rw [Nat.zero_add] at happ
      rw [List.range_eq_range', List.range_eq_range', happ]
    simp only [State.push, List.map_append, entriesFrom_tickets, List.length_append, hrange]
    refine List.Perm.trans ?_ (h.tickets.append_right _)
    rw [List.append_assoc, List.append_assoc]
    exact List.Perm.append_left _ List.perm_append_comm
  ordered := by
    simp only [State.push, List.map_append, entriesFrom_tickets]
    refine List.pairwise_append.mpr ⟨h.ordered, List.pairwise_lt_range', fun t ht u hu => ?_⟩
    have hlt := List.mem_range.mp (h.tickets.subset (List.mem_append_left _ ht))
    have hle := (List.mem_range'_1.mp hu).1
    omega
  content := by
    intro e he
    rcases List.mem_append.mp he with he | he
    · have hold := h.content e he
      obtain ⟨hlt, _⟩ := List.getElem?_eq_some_iff.mp hold
      simp only [State.push]
      rw [List.getElem?_append_left hlt, hold]
    · obtain ⟨_, hle, hget⟩ := mem_entriesFrom he
      simp only [State.push]
      rw [List.getElem?_append_right hle, hget]
  nonEmpty := by
    intro ft hft
    rcases List.mem_append.mp hft with hft | hft
    · exact h.nonEmpty ft hft
    · exact hfts ft hft
  active := h.active
  held := h.held

/-- Moving one element out of a list to the end of another. -/
theorem perm_erase_append {α : Type*} (a b c : List α) (x : α) :
    (a ++ b ++ (c ++ [x])).Perm (a ++ x :: b ++ c) := by
  have hleft : (a ++ b ++ (c ++ [x])).Perm (x :: (a ++ b ++ c)) := by
    rw [← List.append_assoc]
    exact List.perm_append_singleton x _
  have hright : (a ++ x :: b ++ c).Perm (x :: (a ++ b ++ c)) :=
    List.perm_middle.append_right c
  exact hleft.trans hright.symm

/-- A scan moves one ticket to `taken` and counts its worker, or leaves the queue alone. -/
theorem Conserves.scans {s s' : State n} (h : Conserves s) {w : Fin n}
    (hpc : (s.workers w).pc = .scan) (hs : Scans s w s') : Conserves s' := by
  have hfree : (s.workers w).held = none := h.free (by rw [hpc]; rfl)
  cases hs with
  | nothing tickle hnone htickle => exact h.move rfl hfree.symm (by rw [hpc]; rfl)
  | took tickle pre post e pc hqueue hpre he hstart =>
      have hsum := sum_update Worker.holding s.workers w
        { s.workers w with pc := pc, held := some e.ticket, tickle := tickle }
      simp only [Worker.holding, hfree, Option.isSome_none, Bool.false_eq_true, if_false,
        Option.isSome_some, if_true] at hsum
      have hrest : (pre ++ post).Sublist s.queue := by
        rw [hqueue]
        exact List.Sublist.append_left (List.sublist_cons_self e post) pre
      refine ⟨?_, h.ordered.sublist (hrest.map _), fun x hx => h.content x (hrest.subset hx),
        h.nonEmpty, ?_, fun v => ?_⟩
      · refine List.Perm.trans ?_ h.tickets
        simp only [State.take, State.setWorker, hqueue, List.map_append, List.map_cons]
        exact perm_erase_append _ _ _ _
      · change s.active + 1 = ∑ v, (Function.update s.workers w _ v).holding
        rw [h.active]
        simp only [Worker.holding]
        omega
      · simp only [State.take, setWorker_workers]
        by_cases hv : v = w
        · rw [hv, Function.update_self]
          cases hstart <;> rfl
        · rw [Function.update_of_ne hv]
          exact h.held v

/-- The decrement that belongs to the entry a worker holds. -/
theorem Conserves.pay {s : State n} (h : Conserves s) {w : Fin n} {x : Worker}
    (hpc : (s.workers w).pc.holds = true) (hheld : x.held = none) (hx : x.pc.holds = false) :
    0 < s.active ∧ Conserves ({ s with active := sizeDec s.active }.setWorker w x) := by
  have hsum := sum_update Worker.holding s.workers w x
  have hw : (s.workers w).holding = 1 := by rw [Worker.holding, h.held w, hpc, if_pos rfl]
  have hx0 : x.holding = 0 := by rw [Worker.holding, hheld]; rfl
  rw [hw, hx0, ← h.active] at hsum
  have hactive : s.active = ∑ v, (Function.update s.workers w x v).holding + 1 := hsum.symm
  refine ⟨by omega, h.tickets, h.ordered, h.content, h.nonEmpty, ?_, fun v => ?_⟩
  · change sizeDec s.active = ∑ v, (Function.update s.workers w x v).holding
    rw [hactive, sizeDec_succ]
  · by_cases hv : v = w
    · subst hv
      simp [hheld, hx]
    · simpa [Function.update_of_ne hv] using h.held v

/-! ## Steps -/

theorem Conserves.call {s : State n} (h : Conserves s) (c : Call) : Conserves (s.call c).2 := by
  rw [call_eq]
  obtain ⟨hqueue, hsubmitted, htaken, hactive, hworkers⟩ := settle_shared s c
  have hframe : Conserves (s.settle c) :=
    h.frame hqueue hsubmitted htaken hactive fun w => by rw [hworkers]; exact ⟨rfl, rfl⟩
  exact hframe.push filter_nonEmpty

theorem Conserves.notifies {s t : State n} (h : Conserves s) (ht : Notifies s t) : Conserves t :=
  h.frame ht.queue ht.submitted ht.taken ht.active fun w => ⟨ht.held w, by rw [ht.pc w]⟩

/-- A worker's own step: only a failed scan assertion is excluded. -/
def Safe : Except Fault (State n) → Prop := Holds Conserves fun e => e ≠ .scan

theorem Conserves.accessAt {s : State n} (h : Conserves s) {w : Fin n}
    {r : Except Fault (State n)} (hr : s.accessAt w (s.workers w).pc = some r) : Safe r := by
  cases hpc : (s.workers w).pc <;> rw [hpc] at hr
  case scan =>
    obtain ⟨s', hs', hscan⟩ := scan_scans s w h.queue_nonEmpty
    cases hr
    rw [hs']
    exact h.scans hpc hscan
  case running b f => cases hr
  case idleCheck => cases hr
  case blocked => cases hr
  case exited => cases hr
  -- the decrements
  case decActive b f =>
    cases hr
    exact (h.pay (by rw [hpc]; rfl) rfl rfl).2
  case deadDec f =>
    cases hr
    exact (h.pay (by rw [hpc]; rfl) rfl rfl).2
  -- the push of a fiber that yielded in `READY`
  case requeue b f =>
    cases hr
    rw [State.requeue, requeue_eq]
    have hpush : Conserves (s.push [⟨some f, none, -1⟩]) :=
      h.push (by simp [FiberAndThread.nonEmpty])
    exact hpush.move rfl rfl (by change _ = (s.workers w).pc.holds; rw [hpc]; rfl)
  -- tests that may fail an assertion
  case swapAssert b f =>
    cases hr
    split
    · intro herr
      cases herr
    · exact h.move rfl rfl (by rw [hpc]; rfl)
  case recycle f =>
    cases hr
    split
    · exact h.move rfl rfl (by rw [hpc]; rfl)
    · intro herr
      cases herr
  case prepare cb =>
    cases hr
    unfold State.prepare
    split
    · exact h.move rfl rfl (by rw [hpc]; rfl)
    · split
      · exact h.move rfl rfl (by rw [hpc]; rfl)
      · intro herr
        cases herr
  case noTask =>
    cases hr
    unfold State.noTask
    split
    · exact h.move rfl rfl (by rw [hpc]; rfl)
    · intro herr
      cases herr
    · exact h.move rfl rfl (by rw [hpc]; rfl)
  case woken pipe =>
    cases pipe <;> cases hr <;> exact h.move rfl rfl (by rw [hpc]; rfl)
  -- loads that choose the next access
  case checkTerm f | checkExcept f =>
    cases hr
    exact h.move rfl rfl (by rw [hpc]; dsimp only; split <;> rfl)
  case postReady b f | post1 b f | post2 b f =>
    cases hr
    exact h.move rfl rfl (by rw [hpc]; cases b <;> dsimp only <;> split <;> rfl)
  -- one access, then the next program counter
  case swapExec b f | swapCtx b f | yieldReady b f | swapOut b f | writeHold b f =>
    cases hr
    exact h.move rfl rfl (by rw [hpc]; rfl)
  case prepareWrite cb f =>
    cases hr
    exact h.move rfl rfl (by rw [hpc]; rfl)
  case recycleWrite f =>
    cases hr
    exact h.move rfl rfl (by rw [hpc]; rfl)
  case idleDec =>
    cases hr
    exact h.move rfl rfl (by rw [hpc]; rfl)

theorem Conserves.fiberOp {s : State n} (h : Conserves s) {w : Fin n} {b : Branch} {f : FiberId}
    (hpc : (s.workers w).pc = .running b f) (fop : FiberOp) {r : Except Fault (State n)}
    (hr : s.fiberOp w b f fop = some r) : Safe r := by
  unfold State.fiberOp at hr
  split at hr <;> cases hr
  cases fop with
  | register => exact h.frame rfl rfl rfl rfl fun _ => ⟨rfl, rfl⟩
  | yieldToReady | yieldToHold =>
      simp only [State.runFiber]
      split
      · exact h.move rfl rfl (by rw [hpc]; rfl)
      · nofun
  | finish | throw => exact h.move rfl rfl (by rw [hpc]; rfl)

/-- Every step of every thread keeps the invariant, and none fails the assertion of the scan. -/
theorem op_conserves (s : State n) (a : Action n) (r : Except Fault (State n)) (h : Conserves s)
    (hr : op k s a = some r) : Safe r := by
  cases op_acts hr with
  | call a c t ha hc ht => exact (h.call c).notifies ht
  | notify a t ht => exact h.notifies ht
  | access w r htickle hr => exact h.accessAt hr
  | fiber w b f fop r hpc hr => exact h.fiberOp hpc fop hr
  | idleCheck k w quiet hpc =>
      unfold State.idleCheck
      split
      · exact h.move rfl rfl (by rw [hpc]; rfl)
      · cases k <;> exact h.move rfl rfl (by rw [hpc]; rfl)
  | wake w pipe hpc => exact h.move rfl rfl (by rw [hpc]; rfl)

/-! ## Every run -/

theorem reaches_safe {r : Except Fault (State n)}
    (h : Reaches (step k) (onOk Free) (.ok (.init n)) r) : Safe r :=
  h.invariant (preserves_abortable fun s a r hs _ hr => op_conserves s a r hs hr)
    (conserves_init n)

/-- The workers that took an entry and have not executed its decrement. -/
def State.owing (s : State n) : Finset (Fin n) :=
  Finset.univ.filter fun w => (s.workers w).held.isSome

theorem Conserves.active_eq {s : State n} (h : Conserves s) : s.active = s.owing.card := by
  rw [h.active, State.owing, Finset.card_filter]
  rfl

/-- What a scan does in a reached state: nothing may be taken, or the first entry that may
be is erased from between the others. -/
theorem Conserves.scan_takes {s : State n} (h : Conserves s) (w : Fin n) :
    ∃ s', s.scan w = .ok s' ∧
      ((s'.queue = s.queue ∧ s'.taken = s.taken ∧ ∀ e ∈ s.queue, ¬ takeable s.states w e) ∨
        ∃ pre e post, s.queue = pre ++ e :: post ∧ (∀ x ∈ pre, ¬ takeable s.states w x) ∧
          takeable s.states w e ∧ s'.queue = pre ++ post ∧ s'.taken = s.taken ++ [e.ticket] ∧
          (s'.workers w).held = some e.ticket) := by
  obtain ⟨s', hs', hscan⟩ := scan_scans s w h.queue_nonEmpty
  refine ⟨s', hs', ?_⟩
  cases hscan with
  | nothing tickle hnone htickle => exact .inl ⟨rfl, rfl, hnone⟩
  | took tickle pre post e pc hqueue hpre he hstart =>
      refine .inr ⟨pre, e, post, hqueue, hpre, he, rfl, rfl, ?_⟩
      simp [State.take]

/-- Task queue conservation. -/
theorem task_conservation {r : Except Fault (State n)}
    (h : Reaches (step k) (onOk Free) (.ok (.init n)) r) :
    r ≠ .error .scan ∧ ∀ s, r = .ok s →
      ((s.queue.map Entry.ticket ++ s.taken).Perm (List.range s.submitted.length) ∧
        (s.queue.map Entry.ticket).Pairwise (· < ·) ∧
        ∀ e ∈ s.queue, s.submitted[e.ticket]? = some e.task ∧ e.task.nonEmpty = true) ∧
      (∀ c, (s.call c).2.submitted = s.submitted ++ c.tasks ∧
        (s.call c).2.queue = s.queue ++ entriesFrom s.submitted.length c.tasks) ∧
      (∀ w, ∃ s', s.scan w = .ok s' ∧
        ((s'.queue = s.queue ∧ s'.taken = s.taken ∧ ∀ e ∈ s.queue, ¬ takeable s.states w e) ∨
          ∃ pre e post, s.queue = pre ++ e :: post ∧ (∀ x ∈ pre, ¬ takeable s.states w x) ∧
            takeable s.states w e ∧ s'.queue = pre ++ post ∧ s'.taken = s.taken ++ [e.ticket] ∧
            (s'.workers w).held = some e.ticket)) ∧
      s.active = s.owing.card ∧
      ∀ w b f, (s.workers w).pc = .decActive b f ∨ (s.workers w).pc = .deadDec f →
        0 < s.active := by
  have hsafe := reaches_safe h
  refine ⟨fun he => by rw [he] at hsafe; exact hsafe rfl, fun s hs => ?_⟩
  rw [hs] at hsafe
  have hcons : Conserves s := hsafe
  refine ⟨⟨hcons.tickets, hcons.ordered, fun e he => ⟨hcons.content e he,
    hcons.queue_nonEmpty e he⟩⟩, fun c => ?_, hcons.scan_takes, hcons.active_eq, ?_⟩
  · obtain ⟨hqueue, hsubmitted, _⟩ := settle_shared s c
    rw [call_eq]
    simp only [State.push, hqueue, hsubmitted, and_self]
  · intro w b f hpc
    have hholds : (s.workers w).pc.holds = true := by
      rcases hpc with hpc | hpc <;> rw [hpc] <;> rfl
    rw [hcons.active_eq]
    refine Finset.card_pos.mpr ⟨w, ?_⟩
    simp [State.owing, hcons.held w, hholds]

/-- A batch with an empty task and a pinned fiber, taken by both workers. -/
def conservationRun : List (Action 2) :=
  [.outside 0 (.newFiber (some 5)), .outside 0 (.scheduleAll [.callback (some 7), .fiber none]),
    .outside 1 (.schedule (.fiber (some 1)) 1), .worker 0, .worker 1, .worker 0]

theorem task_conservation_sample :
    ∃ s, checkedRun (step .io) (fun s a => decide (onOk Free s a)) (.ok (.init 2))
        conservationRun = some (.ok s) ∧
      (s.queue.map Entry.ticket ++ s.taken).Perm (List.range s.submitted.length) ∧
      s.active = s.owing.card := by
  have hrun : (checkedRun (step .io) (fun s a => decide (onOk Free s a)) (.ok (.init 2))
      conservationRun).any (fun s => s.isOk) := by decide
  obtain ⟨r, hr, hok⟩ := (Option.any_eq_true _ _).mp hrun
  have hsafe := task_conservation (.of_decidedRun hr)
  cases r with
  | error e => cases hok
  | ok s =>
      obtain ⟨hq, _, _, hactive, _⟩ := hsafe.2 s rfl
      exact ⟨s, hr, hq.1, hactive⟩

end Sylar.Scheduler
