import Sylar.Scheduler.Step

/-! # The queue sections

What the two sections under `m_mutex` do to `m_fibers`: a `schedule` appends its non-empty
tasks in order under consecutive tickets, a scan erases the first entry its worker may
take and leaves the others where they are.
-/

namespace Sylar.Scheduler

variable {n : Nat}

/-! ## Appending -/

def entriesFrom (ticket : Nat) : List FiberAndThread → List Entry
  | [] => []
  | ft :: fts => ⟨ticket, ft⟩ :: entriesFrom (ticket + 1) fts

@[simp] theorem entriesFrom_nil (k : Nat) : entriesFrom k [] = [] := rfl

theorem entriesFrom_append (k : Nat) (fts gts : List FiberAndThread) :
    entriesFrom k (fts ++ gts) = entriesFrom k fts ++ entriesFrom (k + fts.length) gts := by
  induction fts generalizing k with
  | nil => rfl
  | cons ft fts ih =>
      rw [List.cons_append, entriesFrom, entriesFrom, ih, List.length_cons, List.cons_append]
      congr 3
      omega

theorem entriesFrom_tickets (k : Nat) (fts : List FiberAndThread) :
    (entriesFrom k fts).map Entry.ticket = List.range' k fts.length := by
  induction fts generalizing k with
  | nil => rfl
  | cons ft fts ih =>
      rw [entriesFrom, List.map_cons, ih, List.length_cons, List.range'_succ]

theorem entriesFrom_tasks (k : Nat) (fts : List FiberAndThread) :
    (entriesFrom k fts).map Entry.task = fts := by
  induction fts generalizing k with
  | nil => rfl
  | cons ft fts ih => rw [entriesFrom, List.map_cons, ih]

theorem mem_entriesFrom {k : Nat} {fts : List FiberAndThread} {e : Entry}
    (h : e ∈ entriesFrom k fts) :
    e.task ∈ fts ∧ k ≤ e.ticket ∧ fts[e.ticket - k]? = some e.task := by
  induction fts generalizing k with
  | nil => cases h
  | cons ft fts ih =>
      rcases List.mem_cons.mp h with rfl | h
      · simp
      · obtain ⟨hmem, hle, hget⟩ := ih h
        refine ⟨List.mem_cons_of_mem _ hmem, by omega, ?_⟩
        rw [show e.ticket - k = (e.ticket - (k + 1)) + 1 by omega, List.getElem?_cons_succ, hget]

def State.push (s : State n) (fts : List FiberAndThread) : State n :=
  { s with
    queue := s.queue ++ entriesFrom s.submitted.length fts
    submitted := s.submitted ++ fts }

@[simp] theorem push_nil (s : State n) : s.push [] = s := by simp [State.push]

theorem push_push (s : State n) (fts gts : List FiberAndThread) :
    (s.push fts).push gts = s.push (fts ++ gts) := by
  simp [State.push, entriesFrom_append]

theorem scheduleLoop_eq (s : State n) (needTickle : Bool) (fts : List FiberAndThread) :
    s.scheduleLoop needTickle fts =
      (decide (fts ≠ [] ∧ s.queue = []) || needTickle,
        s.push (fts.filter FiberAndThread.nonEmpty)) := by
  induction fts generalizing s needTickle with
  | nil => simp [State.scheduleLoop]
  | cons ft fts ih =>
      rw [State.scheduleLoop, ih]
      by_cases hft : ft.nonEmpty = true
      · have hpush : (s.schedulerNoLock ft).2 = s.push [ft] := by
          simp [State.schedulerNoLock, hft, State.push, entriesFrom]
        rw [hpush, push_push, List.filter_cons_of_pos hft]
        by_cases hq : s.queue = [] <;> simp [State.schedulerNoLock, State.push, entriesFrom, hq]
      · have hpush : (s.schedulerNoLock ft).2 = s := by
          simp [State.schedulerNoLock, hft]
        rw [hpush, List.filter_cons_of_neg hft]
        by_cases hq : s.queue = [] <;> simp [State.schedulerNoLock, hq]

theorem schedule_eq (s : State n) (fts : List FiberAndThread) :
    s.schedule fts =
      (decide (fts ≠ [] ∧ s.queue = []), s.push (fts.filter FiberAndThread.nonEmpty)) := by
  rw [State.schedule, scheduleLoop_eq, Bool.or_false]

theorem filter_nonEmpty {fts : List FiberAndThread} :
    ∀ ft ∈ fts.filter FiberAndThread.nonEmpty, ft.nonEmpty = true :=
  fun _ hft => (List.mem_filter.mp hft).2

def Call.tasks (c : Call) : List FiberAndThread := c.entries.filter FiberAndThread.nonEmpty

theorem call_eq (s : State n) (c : Call) :
    s.call c = (decide (c.entries ≠ [] ∧ (s.settle c).queue = []) || decide (c = .tickle),
      (s.settle c).push c.tasks) := by
  rw [State.call, schedule_eq]
  rfl

/-- Before its section a call touches only fibers that nobody has and the history. -/
theorem settle_shared (s : State n) (c : Call) :
    (s.settle c).queue = s.queue ∧ (s.settle c).submitted = s.submitted ∧
      (s.settle c).taken = s.taken ∧ (s.settle c).active = s.active ∧
      (s.settle c).workers = s.workers := by
  cases c <;> exact ⟨rfl, rfl, rfl, rfl, rfl⟩

/-- A fiber that was switched out in `READY` is pushed unpinned. -/
theorem requeue_eq (s : State n) (f : FiberId) :
    s.schedule [(Task.fiber (some f)).entry (-1)] =
      (decide (s.queue = []), s.push [⟨some f, none, -1⟩]) := by
  rw [schedule_eq]
  simp [Task.entry, FiberAndThread.nonEmpty]

/-! ## Taking -/

/-- Worker `w` may take `e`. -/
def takeable (states : FiberId → FiberState) (w : Fin n) (e : Entry) : Prop :=
  ¬ pinnedElsewhere w e ∧ ¬ executing states e

instance (states : FiberId → FiberState) (w : Fin n) (e : Entry) :
    Decidable (takeable states w e) := inferInstanceAs (Decidable (_ ∧ _))

/-- What a scan of `queue` by `w` ends with. -/
inductive Scanned (states : FiberId → FiberState) (w : Fin n) (queue : List Entry) : Scan → Prop
  | nothing (tickleMe : Bool) (hnone : ∀ e ∈ queue, ¬ takeable states w e)
      (htickle : ∀ e ∈ queue, pinnedElsewhere w e → tickleMe = true) :
      Scanned states w queue ⟨none, queue, tickleMe⟩
  | took (tickleMe : Bool) (pre post : List Entry) (e : Entry) (hqueue : queue = pre ++ e :: post)
      (hpre : ∀ x ∈ pre, ¬ takeable states w x) (he : takeable states w e) :
      Scanned states w queue ⟨some e, pre ++ post, tickleMe⟩

/-- An entry that is passed over stays in front. -/
theorem Scanned.skip {states : FiberId → FiberState} {w : Fin n} {queue : List Entry} {r : Scan}
    (h : Scanned states w queue r) {e : Entry} (he : ¬ takeable states w e) {tickleMe : Bool}
    (hmono : r.tickleMe = true → tickleMe = true) (hpin : pinnedElsewhere w e → tickleMe = true) :
    Scanned states w (e :: queue) ⟨r.ft, e :: r.queue, tickleMe⟩ := by
  cases h with
  | nothing old hnone htickle =>
      refine .nothing tickleMe (List.forall_mem_cons.mpr ⟨he, hnone⟩)
        (List.forall_mem_cons.mpr ⟨hpin, fun x hx hxp => hmono (htickle x hx hxp)⟩)
  | took old pre post x hqueue hpre hx =>
      subst hqueue
      exact .took tickleMe (e :: pre) post x rfl (List.forall_mem_cons.mpr ⟨he, hpre⟩) hx

/-- Over entries that are not empty the loop of `run` fails no assertion and takes the
first entry its worker may take. -/
theorem scanLoop_scanned (states : FiberId → FiberState) (w : Fin n) {queue : List Entry}
    (hqueue : ∀ e ∈ queue, e.task.nonEmpty = true) :
    ∃ r, scanLoop states w queue = .ok r ∧ Scanned states w queue r := by
  induction queue with
  | nil => exact ⟨_, rfl, .nothing false nofun nofun⟩
  | cons e rest ih =>
      obtain ⟨r, hr, hscan⟩ := ih fun x hx => hqueue x (List.mem_cons_of_mem e hx)
      have hne := hqueue e List.mem_cons_self
      by_cases hpin : pinnedElsewhere w e
      · refine ⟨⟨r.ft, e :: r.queue, true⟩, ?_, ?_⟩
        · rw [scanLoop, if_pos hpin, hr]
          rfl
        · exact hscan.skip (fun h => h.1 hpin) (fun _ => rfl) (fun _ => rfl)
      · by_cases hexec : executing states e
        · refine ⟨⟨r.ft, e :: r.queue, r.tickleMe⟩, ?_, ?_⟩
          · rw [scanLoop, if_neg hpin, if_neg (not_not.mpr hne), if_pos hexec, hr]
            rfl
          · exact hscan.skip (fun h => h.2 hexec) id (fun h => (hpin h).elim)
        · refine ⟨⟨some e, rest, decide (rest ≠ [])⟩, ?_, ?_⟩
          · rw [scanLoop, if_neg hpin, if_neg (not_not.mpr hne), if_neg hexec]
          · exact .took _ [] rest e rfl (fun x hx => by cases hx) ⟨hpin, hexec⟩

/-- The program counter that runs the task of `e`. -/
inductive Starts (e : Entry) : Pc → Prop
  | fiber (f : FiberId) (hf : e.task.fiber = some f) : Starts e (.checkTerm f)
  | callback (cb : Cb) (hf : e.task.fiber = none) : Starts e (.prepare cb)

theorem branchPc_starts {e : Entry} (he : e.task.nonEmpty = true) :
    Starts e (branchPc (some e)) := by
  rcases hfiber : e.task.fiber with _ | f
  · rcases hcb : e.task.cb with _ | cb
    · simp [FiberAndThread.nonEmpty, hfiber, hcb] at he
    · simp only [branchPc, hfiber, hcb]
      exact .callback cb hfiber
  · simp only [branchPc, hfiber]
    exact .fiber f hfiber

/-- Worker `w` goes on without a task. -/
def State.takeNothing (s : State n) (w : Fin n) (tickle : Tickle) : State n :=
  s.setWorker w { s.workers w with pc := .noTask, held := none, tickle := tickle }

/-- Worker `w` takes `e` and leaves `rest`. -/
def State.take (s : State n) (w : Fin n) (e : Entry) (rest : List Entry) (pc : Pc)
    (tickle : Tickle) : State n :=
  { s with queue := rest, active := s.active + 1, taken := s.taken ++ [e.ticket] }.setWorker w
    { s.workers w with pc := pc, held := some e.ticket, tickle := tickle }

/-- All that the section at the head of the loop can do. -/
inductive Scans (s : State n) (w : Fin n) : State n → Prop
  | nothing (tickle : Tickle) (hnone : ∀ e ∈ s.queue, ¬ takeable s.states w e)
      (htickle : ∀ e ∈ s.queue, pinnedElsewhere w e → tickle = .call) :
      Scans s w (s.takeNothing w tickle)
  | took (tickle : Tickle) (pre post : List Entry) (e : Entry) (pc : Pc)
      (hqueue : s.queue = pre ++ e :: post) (hpre : ∀ x ∈ pre, ¬ takeable s.states w x)
      (he : takeable s.states w e) (hpc : Starts e pc) :
      Scans s w (s.take w e (pre ++ post) pc tickle)

theorem scan_scans (s : State n) (w : Fin n) (hqueue : ∀ e ∈ s.queue, e.task.nonEmpty = true) :
    ∃ s', s.scan w = .ok s' ∧ Scans s w s' := by
  obtain ⟨r, hr, hscan⟩ := scanLoop_scanned s.states w hqueue
  cases hscan with
  | nothing tickleMe hnone htickle =>
      refine ⟨s.takeNothing w (if tickleMe then .call else .none), ?_,
        .nothing _ hnone fun e he hpin => by rw [htickle e he hpin]; rfl⟩
      rw [State.scan, hr]
      simp [Except.map, State.takeNothing, State.setWorker, branchPc]
  | took tickleMe pre post e hsplit hpre he =>
      refine ⟨s.take w e (pre ++ post) (branchPc (some e)) (if tickleMe then .call else .none), ?_,
        .took _ pre post e _ hsplit hpre he (branchPc_starts (hqueue e (by simp [hsplit])))⟩
      rw [State.scan, hr]
      rfl

end Sylar.Scheduler
