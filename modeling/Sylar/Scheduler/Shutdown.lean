import Sylar.Scheduler.WellFormed

/-! # The shutdown decision

`Scheduler::stopping` looks at the queue and at `m_activeThreadCount`. A worker decrements the
counter before it looks whether the fiber it ran wants to be queued again, so between the two
`stopping` can be true although that fiber is about to be queued. Anywhere else a true answer
means that nothing is left to run, and nothing runs afterwards.
-/

namespace Sylar.Scheduler

open Transition

variable {n : Nat} {k : Kind}

/-! ## Fibers that are not at rest -/

/-- From the store of `EXEC` to the store that ends it. -/
def Pc.executes : Pc → Option FiberId
  | .swapCtx _ f | .running _ f | .yieldReady _ f | .swapOut _ f | .decActive _ f
  | .postReady _ f | .post1 _ f | .post2 _ f | .writeHold _ f => some f
  | _ => none

/-- Where a worker finds a fiber in `READY` and has not passed it by. -/
def Pc.reruns : Pc → Option FiberId
  | .checkTerm f | .checkExcept f | .swapAssert _ f | .swapExec _ f | .swapOut _ f
  | .decActive _ f | .postReady _ f | .requeue _ f => some f
  | _ => none

/-- A fiber in `EXEC` or `READY` is at a worker that deals with it, or queued. -/
structure Tended (s : State n) : Prop where
  exec : ∀ f, s.states f = .exec → ∃ w, (s.workers w).pc.executes = some f
  ready : ∀ f, s.states f = .ready →
    (∃ e ∈ s.queue, e.task.fiber = some f) ∨ ∃ w, (s.workers w).pc.reruns = some f

theorem tended_init (n : Nat) : Tended (.init n) where
  exec := fun f hf => by cases hf
  ready := fun f hf => by cases hf

/-- A step of one worker: the fiber it leaves is at rest, the queue loses no fiber that is
not taken over, and other fibers keep their state or are put to rest. -/
theorem Tended.move {s s' : State n} (h : Tended s) {w : Fin n} {pc : Pc} {x : Worker}
    (hworkers : s'.workers = Function.update s.workers w x) (hpc : (s.workers w).pc = pc)
    (hexec : ∀ f, s'.states f = .exec →
      x.pc.executes = some f ∨ s.states f = .exec ∧ pc.executes ≠ some f)
    (hready : ∀ f, s'.states f = .ready →
      x.pc.reruns = some f ∨ (∃ e ∈ s'.queue, e.task.fiber = some f) ∨
        s.states f = .ready ∧ pc.reruns ≠ some f)
    (hqueue : ∀ e ∈ s.queue, ∀ f, e.task.fiber = some f →
      (∃ e' ∈ s'.queue, e'.task.fiber = some f) ∨ x.pc.reruns = some f := by
        exact fun e he f hf => .inl ⟨e, he, hf⟩) : Tended s' where
  exec := fun f hf => by
    rcases hexec f hf with hx | ⟨hold, hne⟩
    · exact ⟨w, by rw [hworkers, Function.update_self]; exact hx⟩
    · obtain ⟨v, hv⟩ := h.exec f hold
      have hvw : v ≠ w := by
        rintro rfl
        rw [hpc] at hv
        exact hne hv
      exact ⟨v, by rw [hworkers, Function.update_of_ne hvw]; exact hv⟩
  ready := fun f hf => by
    rcases hready f hf with hx | hx | ⟨hold, hne⟩
    · exact .inr ⟨w, by rw [hworkers, Function.update_self]; exact hx⟩
    · exact .inl hx
    · rcases h.ready f hold with ⟨e, he, hef⟩ | ⟨v, hv⟩
      · rcases hqueue e he f hef with hx | hx
        · exact .inl hx
        · exact .inr ⟨w, by rw [hworkers, Function.update_self]; exact hx⟩
      · have hvw : v ≠ w := by
          rintro rfl
          rw [hpc] at hv
          exact hne hv
        exact .inr ⟨v, by rw [hworkers, Function.update_of_ne hvw]; exact hv⟩

theorem Tended.goto {s s' : State n} (h : Tended s) {w : Fin n} {pc : Pc} {x : Worker}
    (hs' : s' = { s' with
      workers := Function.update s.workers w x
      states := s.states
      queue := s.queue })
    (hpc : (s.workers w).pc = pc)
    (hexec : ∀ f, pc.executes = some f → x.pc.executes = some f ∨ s.states f ≠ .exec)
    (hready : ∀ f, pc.reruns = some f → x.pc.reruns = some f ∨ s.states f ≠ .ready) :
    Tended s' := by
  have hworkers : s'.workers = Function.update s.workers w x := by rw [hs']
  have hstates : s'.states = s.states := by rw [hs']
  have hqueue : s'.queue = s.queue := by rw [hs']
  refine h.move hworkers hpc (fun f hf => ?_) (fun f hf => ?_) fun e he f hf =>
    .inl ⟨e, hqueue ▸ he, hf⟩
  · rw [hstates] at hf
    by_cases hold : pc.executes = some f
    · exact .inl ((hexec f hold).resolve_right fun hne => hne hf)
    · exact .inr ⟨hf, hold⟩
  · rw [hstates] at hf
    by_cases hold : pc.reruns = some f
    · exact .inl ((hready f hold).resolve_right fun hne => hne hf)
    · exact .inr (.inr ⟨hf, hold⟩)

theorem Tended.store {s s' : State n} (h : Tended s) {w : Fin n} {pc : Pc} {x : Worker}
    {f : FiberId} {y : FiberState}
    (hs' : s' = { s' with
      workers := Function.update s.workers w x
      states := Function.update s.states f y
      queue := s.queue })
    (hpc : (s.workers w).pc = pc)
    (hexec : y = .exec → x.pc.executes = some f) (hready : y = .ready → x.pc.reruns = some f)
    (hold : pc.executes = none ∨ pc.executes = some f)
    (holdReady : pc.reruns = none ∨ pc.reruns = some f) : Tended s' := by
  have hworkers : s'.workers = Function.update s.workers w x := by rw [hs']
  have hstates : s'.states = Function.update s.states f y := by rw [hs']
  have hqueue : s'.queue = s.queue := by rw [hs']
  refine h.move hworkers hpc (fun g hg => ?_) (fun g hg => ?_) fun e he g hg =>
    .inl ⟨e, hqueue ▸ he, hg⟩
  · rw [hstates] at hg
    by_cases hgf : g = f
    · subst hgf
      rw [Function.update_self] at hg
      exact .inl (hexec hg)
    · rw [Function.update_of_ne hgf] at hg
      refine .inr ⟨hg, fun hpg => ?_⟩
      rcases hold with hn | hn <;> rw [hn] at hpg <;> cases hpg
      exact hgf rfl
  · rw [hstates] at hg
    by_cases hgf : g = f
    · subst hgf
      rw [Function.update_self] at hg
      exact .inl (hready hg)
    · rw [Function.update_of_ne hgf] at hg
      refine .inr (.inr ⟨hg, fun hpg => ?_⟩)
      rcases holdReady with hn | hn <;> rw [hn] at hpg <;> cases hpg
      exact hgf rfl

/-! ## Steps -/

theorem Tended.scans {s s' : State n} (h : Tended s) {w : Fin n} (hpc : (s.workers w).pc = .scan)
    (hs : Scans s w s') : Tended s' := by
  cases hs with
  | nothing tickle hnone htickle => exact h.goto rfl hpc nofun nofun
  | took tickle pre post e pc hqueue hpre he hstart =>
      refine h.move rfl hpc (fun f hf => .inr ⟨hf, nofun⟩) (fun f hf => .inr (.inr ⟨hf, nofun⟩))
        fun x hx f hf => ?_
      rw [hqueue] at hx
      rcases List.mem_append.mp hx with hx | hx
      · exact .inl ⟨x, List.mem_append_left _ hx, hf⟩
      · rcases List.mem_cons.mp hx with rfl | hx
        · cases hstart with
          | fiber g hg =>
              rw [hf] at hg
              cases hg
              exact .inr rfl
          | callback cb hg =>
              rw [hf] at hg
              cases hg
        · exact .inl ⟨x, List.mem_append_right _ hx, hf⟩

theorem Tended.requeue {s : State n} (h : Tended s) {w : Fin n} {b : Branch} {f : FiberId}
    (hpc : (s.workers w).pc = .requeue b f) : Tended (s.requeue w b f) := by
  rw [State.requeue, requeue_eq]
  have hmem : ∃ e ∈ (s.push [⟨some f, none, -1⟩]).queue, e.task.fiber = some f :=
    ⟨⟨s.submitted.length, ⟨some f, none, -1⟩⟩, by simp [State.push, entriesFrom], rfl⟩
  refine h.move rfl hpc (fun g hg => .inr ⟨hg, fun hex => by cases hex⟩) (fun g hg => .inr ?_)
    fun e he g hg => .inl ⟨e, List.mem_append_left _ he, hg⟩
  by_cases hgf : g = f
  · subst hgf
    exact .inl hmem
  · refine .inr ⟨hg, fun hpg => ?_⟩
    cases hpg
    exact hgf rfl

theorem Tended.accessAt {s s' : State n} (h : Tended s) (hcons : Conserves s) {w : Fin n}
    (hr : s.accessAt w (s.workers w).pc = some (.ok s')) : Tended s' := by
  cases hpc : (s.workers w).pc <;> rw [hpc] at hr
  case scan =>
    obtain ⟨t, ht, hscan⟩ := scan_scans s w hcons.queue_nonEmpty
    cases ht.symm.trans (Option.some.inj hr)
    exact h.scans hpc hscan
  case running b f => cases hr
  case idleCheck => cases hr
  case blocked => cases hr
  case exited => cases hr
  case requeue b f =>
    cases hr
    exact h.requeue hpc
  case prepare cb =>
    obtain ⟨_, rfl⟩ | ⟨f, _, _, rfl⟩ := accessAt_prepare hr
    · exact h.store rfl hpc (fun hy => by cases hy) (fun hy => by cases hy) (.inl rfl) (.inl rfl)
    · exact h.goto rfl hpc (fun _ hg => by cases hg) (fun _ hg => by cases hg)
  case noTask =>
    obtain ⟨_, rfl⟩ | ⟨_, rfl⟩ := accessAt_noTask hr <;>
      exact h.goto rfl hpc (fun _ hg => by cases hg) (fun _ hg => by cases hg)
  case woken pipe =>
    cases pipe <;> cases hr <;>
      exact h.goto rfl hpc (fun _ hg => by cases hg) (fun _ hg => by cases hg)
  -- tests that pass a fiber by when it is neither in `EXEC` nor in `READY`
  case checkTerm f =>
    cases hr
    refine h.goto rfl hpc (fun _ hg => by cases hg) fun g hg => ?_
    cases hg
    by_cases hterm : s.states f = .term
    · exact .inr (by rw [hterm]; decide)
    · exact .inl (by rw [if_neg hterm]; rfl)
  case checkExcept f =>
    cases hr
    refine h.goto rfl hpc (fun _ hg => by cases hg) fun g hg => ?_
    cases hg
    by_cases hexcept : s.states f = .except
    · exact .inr (by rw [hexcept]; decide)
    · exact .inl (by rw [if_neg hexcept]; rfl)
  case postReady b f =>
    cases hr
    by_cases hready : s.states f = .ready
    · refine h.goto rfl hpc (fun g hg => ?_) fun g hg => ?_
      · cases hg
        exact .inr (by rw [hready]; decide)
      · cases hg
        exact .inl (by rw [if_pos hready]; rfl)
    · refine h.goto rfl hpc (fun g hg => ?_) fun g hg => ?_
      · cases hg
        exact .inl (by rw [if_neg hready]; rfl)
      · cases hg
        exact .inr hready
  case post1 b f =>
    cases hr
    refine h.goto rfl hpc (fun g hg => ?_) (fun _ hg => by cases hg)
    cases hg
    by_cases hend : s.states f = firstEnd b
    · exact .inr (by rw [hend]; cases b <;> decide)
    · exact .inl (by rw [if_neg hend]; rfl)
  case post2 b f =>
    cases hr
    refine h.goto rfl hpc (fun g hg => ?_) (fun _ hg => by cases hg)
    cases hg
    by_cases hend : s.states f = secondEnd b
    · exact .inr (by rw [hend]; cases b <;> decide)
    · exact .inl (by rw [if_neg hend]; rfl)
  case swapAssert b f =>
    obtain ⟨_, rfl⟩ := accessAt_swapAssert hr
    exact h.goto rfl hpc (fun _ hg => by cases hg) fun g hg => .inl hg
  case recycle f =>
    obtain ⟨_, rfl⟩ := accessAt_recycle hr
    exact h.goto rfl hpc (fun _ hg => by cases hg) (fun _ hg => by cases hg)
  -- stores
  case swapExec b f =>
    cases hr
    exact h.store rfl hpc (fun _ => rfl) (fun hy => by cases hy) (.inl rfl) (.inr rfl)
  case yieldReady b f =>
    cases hr
    exact h.store rfl hpc (fun hy => by cases hy) (fun _ => rfl) (.inr rfl) (.inl rfl)
  case writeHold b f =>
    cases hr
    exact h.store rfl hpc (fun hy => by cases hy) (fun hy => by cases hy) (.inr rfl) (.inl rfl)
  case prepareWrite cb f =>
    cases hr
    exact h.store rfl hpc (fun hy => by cases hy) (fun hy => by cases hy) (.inl rfl) (.inl rfl)
  case recycleWrite f =>
    cases hr
    exact h.store rfl hpc (fun hy => by cases hy) (fun hy => by cases hy) (.inl rfl) (.inl rfl)
  -- one access, then the next program counter
  case swapCtx b f | swapOut b f | decActive b f =>
    cases hr
    exact h.goto rfl hpc (fun g hg => .inl hg) fun g hg => .inl hg
  case deadDec f =>
    cases hr
    exact h.goto rfl hpc (fun _ hg => by cases hg) (fun _ hg => by cases hg)
  case idleDec =>
    cases hr
    exact h.goto rfl hpc (fun _ hg => by cases hg) (fun _ hg => by cases hg)

theorem Tended.fiberOp {s s' : State n} (h : Tended s) {w : Fin n} {b : Branch} {f : FiberId}
    (hpc : (s.workers w).pc = .running b f) {fop : FiberOp}
    (hr : s.fiberOp w b f fop = some (.ok s')) : Tended s' := by
  unfold State.fiberOp at hr
  split at hr
  · cases hr
  · cases fop with
    | register =>
        cases hr
        exact ⟨h.exec, h.ready⟩
    | yieldToReady | yieldToHold =>
        simp only [State.runFiber, Option.some.injEq] at hr
        split at hr <;> cases hr
        exact h.goto rfl hpc (fun g hg => .inl hg) (fun _ hg => by cases hg)
    | finish | throw =>
        cases hr
        exact h.store rfl hpc (fun hy => by cases hy) (fun hy => by cases hy) (.inr rfl) (.inl rfl)

theorem Tended.notifies {s t : State n} (h : Tended s) (ht : Notifies s t) : Tended t where
  exec := fun f hf => by
    rw [ht.states] at hf
    obtain ⟨w, hw⟩ := h.exec f hf
    exact ⟨w, by rw [ht.pc w]; exact hw⟩
  ready := fun f hf => by
    rw [ht.states] at hf
    rw [ht.queue]
    rcases h.ready f hf with he | ⟨w, hw⟩
    · exact .inl he
    · exact .inr ⟨w, by rw [ht.pc w]; exact hw⟩

theorem Tended.call {s : State n} (h : Tended s) (c : Call) : Tended (s.call c).2 := by
  have hworkers := call_workers s c
  rw [call_eq] at hworkers ⊢
  have hqueue := (settle_shared s c).1
  have hstates : ∀ f, (s.settle c).states f = .exec ∨ (s.settle c).states f = .ready →
      (s.settle c).states f = s.states f := by
    intro f hf
    cases c
    case newFiber cb =>
      by_cases hlast : f = s.lastFiber + 1
      · subst hlast
        have hinit : (s.settle (.newFiber cb)).states (s.lastFiber + 1) = .init :=
          Function.update_self _ _ _
        rw [hinit] at hf
        rcases hf with hf | hf <;> cases hf
      · exact Function.update_of_ne hlast _ _
    all_goals rfl
  refine ⟨fun f hf => ?_, fun f hf => ?_⟩
  · rw [hworkers]
    exact h.exec f ((hstates f (.inl hf)).symm.trans hf)
  · rw [hworkers]
    rcases h.ready f ((hstates f (.inr hf)).symm.trans hf) with ⟨e, he, hef⟩ | hw
    · exact .inl ⟨e, List.mem_append_left _ (hqueue.symm ▸ he), hef⟩
    · exact .inr hw

structure SoundlyTended (s : State n) : Prop where
  sound : Sound s
  tended : Tended s

theorem op_soundlyTended (s : State n) (a : Action n) (r : Except Fault (State n))
    (h : SoundlyTended s) (hr : op k s a = some r) :
    Holds SoundlyTended (fun _ => True) r := by
  have hsound := op_sound s a r h.sound hr
  cases r with
  | error e => trivial
  | ok s' =>
      refine ⟨hsound, ?_⟩
      cases op_acts hr with
      | call a c t ha hc ht => exact (h.tended.call c).notifies ht
      | notify a t ht => exact h.tended.notifies ht
      | access w r htickle hr => exact h.tended.accessAt h.sound.conserves hr
      | fiber w b f fop r hpc hr => exact h.tended.fiberOp hpc hr
      | idleCheck k w quiet hpc =>
          unfold State.idleCheck
          split
          · exact h.tended.goto rfl hpc nofun nofun
          · cases k <;> exact h.tended.goto rfl hpc nofun nofun
      | wake w pipe hpc => exact h.tended.goto rfl hpc nofun nofun

theorem reaches_soundlyTended {s : State n}
    (h : Reaches (step k) (onOk Free) (.ok (.init n)) (.ok s)) : SoundlyTended s :=
  h.invariant (preserves_abortable fun s a r hs _ hr => op_soundlyTended s a r hs hr)
    (⟨sound_init n, tended_init n⟩ : SoundlyTended (.init n))

/-! ## The decision -/

/-- The worker has executed the decrement for a fiber in `READY` and has yet to queue it. -/
def State.requeues (s : State n) (w : Fin n) : Prop :=
  match (s.workers w).pc with
  | .postReady _ f => s.states f = .ready
  | .requeue _ _ => True
  | _ => False

instance (s : State n) (w : Fin n) : Decidable (s.requeues w) := by
  unfold State.requeues
  split <;> infer_instance

/-- The fiber was switched out and its worker is about to store its last state. -/
def Pc.leaves : Pc → Option FiberId
  | .postReady _ f | .post1 _ f | .post2 _ f | .writeHold _ f => some f
  | _ => none

/-- The queue is empty, every task was taken, no worker has one in its hands, and every
fiber has ended or is suspended. -/
structure Settled (s : State n) : Prop where
  queue : s.queue = []
  taken : ∀ ticket < s.submitted.length, ticket ∈ s.taken
  workers : ∀ w, (s.workers w).pc.holds = false ∧ ¬ s.requeues w
  ready : ∀ f, s.states f ≠ .ready
  exec : ∀ f, s.states f = .exec → ∃ w, (s.workers w).pc.leaves = some f

theorem isStopping_iff (s : State n) : s.isStopping = true ↔
    s.autoStop = true ∧ s.stopping = true ∧ s.queue = [] ∧ s.active = 0 := by
  simp [State.isStopping, and_assoc]

/-- With the counter at zero no worker is between taking an entry and its decrement. -/
theorem Conserves.idle {s : State n} (h : Conserves s) (hactive : s.active = 0) (w : Fin n) :
    (s.workers w).pc.holds = false := by
  rw [h.active_eq, Finset.card_eq_zero] at hactive
  rw [← h.held w, ← Bool.not_eq_true]
  intro hheld
  have hmem : w ∈ s.owing := Finset.mem_filter.mpr ⟨Finset.mem_univ w, hheld⟩
  rw [hactive] at hmem
  cases hmem

/-- Past the decrement, a fiber in `READY` is one to be queued. -/
theorem requeues_of_reruns {s : State n} {w : Fin n} {f : FiberId}
    (hw : (s.workers w).pc.reruns = some f) (hholds : (s.workers w).pc.holds = false)
    (hf : s.states f = .ready) : s.requeues w := by
  unfold State.requeues
  cases hpc : (s.workers w).pc <;> rw [hpc] at hw hholds <;> cases hw
  case postReady b => exact hf
  case requeue b => trivial
  all_goals cases hholds

theorem Pc.leaves_of_executes {pc : Pc} {f : FiberId} (hpc : pc.executes = some f)
    (hholds : pc.holds = false) : pc.leaves = some f := by
  cases pc <;> first | exact hpc | cases hholds

theorem SoundlyTended.settled {s : State n} (h : SoundlyTended s) (hstop : s.isStopping = true)
    (hrequeue : ∀ w, ¬ s.requeues w) : Settled s := by
  obtain ⟨_, _, hqueue, hactive⟩ := (isStopping_iff s).mp hstop
  have hidle := h.sound.conserves.idle hactive
  refine ⟨hqueue, fun ticket hlt => ?_, fun w => ⟨hidle w, hrequeue w⟩, fun f hf => ?_,
    fun f hf => ?_⟩
  · have hmem := h.sound.conserves.tickets.symm.subset (List.mem_range.mpr hlt)
    rw [hqueue] at hmem
    exact hmem
  · rcases h.tended.ready f hf with ⟨e, he, _⟩ | ⟨w, hw⟩
    · rw [hqueue] at he
      cases he
    · exact hrequeue w (requeues_of_reruns hw (hidle w) hf)
  · obtain ⟨w, hw⟩ := h.tended.exec f hf
    exact ⟨w, Pc.leaves_of_executes hw (hidle w)⟩

/-! ## After the decision -/

/-- No thread outside the workers schedules, and neither does `idle()` after a wait. -/
def Inside (s : State n) : Action n → Prop
  | .outside _ c => c.entries = []
  | .call w c => (s.workers w).pc.holds = true ∨ c.entries = []
  | _ => True

instance (s : State n) : (a : Action n) → Decidable (Inside s a)
  | .outside _ c => inferInstanceAs (Decidable (c.entries = []))
  | .call w c => inferInstanceAs (Decidable ((s.workers w).pc.holds = true ∨ c.entries = []))
  | .outsideTickle _ | .start | .autoStop | .stop | .worker _ | .fiber _ _ | .idleCheck _ _
  | .wake _ _ => isTrue trivial

/-- Whether a worker may still switch a fiber in or queue one. -/
def Pc.works : Pc → Bool
  | .requeue _ _ => true
  | pc => pc.holds

/-- Nothing happens but the handling of fibers that are at rest. -/
structure Rests (submitted : List FiberAndThread) (resumed : List (Nat × FiberId))
    (s : State n) : Prop where
  queue : s.queue = []
  submitted : s.submitted = submitted
  resumed : s.resumed = resumed
  ready : ∀ f, s.states f ≠ .ready
  workers : ∀ w, (s.workers w).pc.works = false

section Rest

variable {submitted : List FiberAndThread} {resumed : List (Nat × FiberId)} {s : State n}

theorem Pc.holds_of_not_works {pc : Pc} (h : pc.works = false) : pc.holds = false := by
  cases pc <;> first | rfl | exact h

theorem Settled.rests (h : Settled s) : Rests s.submitted s.resumed s where
  queue := h.queue
  submitted := rfl
  resumed := rfl
  ready := h.ready
  workers := fun w => by
    obtain ⟨hholds, hrequeue⟩ := h.workers w
    unfold State.requeues at hrequeue
    cases hpc : (s.workers w).pc <;> rw [hpc] at hholds hrequeue <;>
      first | exact hholds | exact (hrequeue trivial).elim

/-- A worker goes on, possibly with a store that does not wake a fiber. -/
theorem Rests.move (h : Rests submitted resumed s) {s' : State n} {w : Fin n} {x : Worker}
    (hs' : s' = { s' with
      workers := Function.update s.workers w x
      queue := s.queue
      submitted := s.submitted
      resumed := s.resumed })
    (hx : x.pc.works = false) (hready : ∀ f, s'.states f ≠ .ready) :
    Rests submitted resumed s' where
  queue := by rw [hs']; exact h.queue
  submitted := by rw [hs']; exact h.submitted
  resumed := by rw [hs']; exact h.resumed
  ready := hready
  workers := fun v => by
    have hworkers : s'.workers = Function.update s.workers w x := by rw [hs']
    rw [hworkers]
    by_cases hv : v = w
    · rw [hv, Function.update_self]
      exact hx
    · rw [Function.update_of_ne hv]
      exact h.workers v

theorem Rests.store (h : Rests submitted resumed s) {f : FiberId} {x : FiberState}
    (hx : x ≠ .ready) (g : FiberId) : Function.update s.states f x g ≠ .ready := by
  by_cases hgf : g = f
  · rw [hgf, Function.update_self]
    exact hx
  · rw [Function.update_of_ne hgf]
    exact h.ready g

theorem Rests.notifies (h : Rests submitted resumed s) {t : State n} (ht : Notifies s t) :
    Rests submitted resumed t where
  queue := ht.queue.trans h.queue
  submitted := ht.submitted.trans h.submitted
  resumed := ht.resumed.trans h.resumed
  ready := fun f => by rw [ht.states]; exact h.ready f
  workers := fun w => by rw [ht.pc w]; exact h.workers w

theorem Rests.call (h : Rests submitted resumed s) {c : Call} (hc : c.entries = []) :
    Rests submitted resumed (s.call c).2 := by
  have hcall : (s.call c).2 = s.settle c := by
    rw [State.call, hc]
    rfl
  rw [hcall]
  obtain ⟨hqueue, hsubmitted, _, _, hworkers⟩ := settle_shared s c
  refine ⟨hqueue.trans h.queue, hsubmitted.trans h.submitted, ?_, ?_, fun w => ?_⟩
  · cases c <;> exact h.resumed
  · cases c
    case newFiber cb => exact h.store (by decide)
    all_goals exact h.ready
  · rw [hworkers]
    exact h.workers w

theorem Rests.accessAt (h : Rests submitted resumed s) {s' : State n} {w : Fin n}
    (hr : s.accessAt w (s.workers w).pc = some (.ok s')) : Rests submitted resumed s' := by
  have hworks := h.workers w
  cases hpc : (s.workers w).pc <;> rw [hpc] at hr hworks
  case scan =>
    obtain ⟨t, ht, hscan⟩ := scan_scans s w (by rw [h.queue]; exact nofun)
    cases ht.symm.trans (Option.some.inj hr)
    cases hscan with
    | nothing tickle hnone htickle => exact h.move rfl rfl h.ready
    | took tickle pre post e pc hqueue hpre he hstart =>
        rw [h.queue] at hqueue
        exact (List.append_ne_nil_of_right_ne_nil pre (List.cons_ne_nil e post) hqueue.symm).elim
  case postReady b f =>
    cases hr
    exact h.move rfl (by rw [if_neg (h.ready f)]; rfl) h.ready
  case post1 b f | post2 b f =>
    cases hr
    exact h.move rfl (by cases b <;> dsimp only <;> split <;> rfl) h.ready
  case writeHold b f =>
    cases hr
    exact h.move rfl rfl (h.store (by decide))
  case recycleWrite f =>
    cases hr
    exact h.move rfl rfl (h.store (by decide))
  case recycle f =>
    obtain ⟨_, rfl⟩ := accessAt_recycle hr
    exact h.move rfl rfl h.ready
  case noTask =>
    obtain ⟨_, rfl⟩ | ⟨_, rfl⟩ := accessAt_noTask hr <;> exact h.move rfl rfl h.ready
  case woken pipe => cases pipe <;> cases hr <;> exact h.move rfl rfl h.ready
  case idleDec =>
    cases hr
    exact h.move rfl rfl h.ready
  case idleCheck => cases hr
  case blocked => cases hr
  case exited => cases hr
  -- the others are program points of a worker with a task
  all_goals cases hworks

theorem op_rests (s : State n) (a : Action n) (r : Except Fault (State n))
    (h : Rests submitted resumed s) (hinside : Inside s a) (hr : op k s a = some r) :
    Holds (Rests submitted resumed) (fun _ => True) r := by
  cases r with
  | error e => trivial
  | ok t =>
      cases op_acts hr with
      | call a c t ha hc ht =>
          have hentries : c.entries = [] := by
            rcases ha with ⟨i, rfl⟩ | ⟨w, rfl⟩
            · exact hinside
            · refine hinside.resolve_left fun hholds => ?_
              rw [Pc.holds_of_not_works (h.workers w)] at hholds
              cases hholds
          exact (h.call hentries).notifies ht
      | notify a t ht => exact h.notifies ht
      | access w r htickle hr => exact h.accessAt hr
      | fiber w b f fop r hpc hr =>
          have hworks := h.workers w
          rw [hpc] at hworks
          cases hworks
      | idleCheck k w quiet hpc =>
          unfold State.idleCheck
          split
          · exact h.move rfl rfl h.ready
          · cases k <;> exact h.move rfl rfl h.ready
      | wake w pipe hpc => exact h.move rfl rfl h.ready

end Rest

/-- Where `stopping()` is true, every task has finished or is suspended exactly if no worker is
about to queue a fiber again, and then without schedules from outside or wake-ups nothing is
queued or switched in any more. -/
theorem stopping_settled {s : State n}
    (h : Reaches (step k) (onOk Free) (.ok (.init n)) (.ok s)) (hstop : s.isStopping = true) :
    (Settled s ↔ ∀ w, ¬ s.requeues w) ∧
      ((∀ w, ¬ s.requeues w) → ∀ t, Reaches (step k) (onOk Inside) (.ok s) (.ok t) →
        t.queue = [] ∧ t.submitted = s.submitted ∧ t.resumed = s.resumed) := by
  have hinv := reaches_soundlyTended h
  refine ⟨⟨fun hsettled w => (hsettled.workers w).2, hinv.settled hstop⟩, fun hrequeue t ht => ?_⟩
  have hrests : Rests s.submitted s.resumed t :=
    ht.invariant (preserves_abortable op_rests) (hinv.settled hstop hrequeue).rests
  exact ⟨hrests.queue, hrests.submitted, hrests.resumed⟩

/-- One callback that returns, then the two stores of `stop`. -/
def stoppingRun : List (Action 2) :=
  [.outside 0 (.schedule (.callback (some 5)) (-1)), .worker 0, .worker 0, .worker 0, .worker 0,
    .worker 0, .fiber 0 .finish, .worker 0, .worker 0, .autoStop, .stop]

/-- The decision falls while the worker still handles the ended fiber, and nothing follows. -/
theorem stopping_settled_sample :
    ∃ s, checkedRun (step .base) (fun s a => decide (onOk Free s a)) (.ok (.init 2))
        stoppingRun = some (.ok s) ∧ s.isStopping = true ∧ Settled s ∧
      ∀ t, Reaches (step .base) (onOk Inside) (.ok s) (.ok t) → t.resumed = s.resumed := by
  have hrun : (checkedRun (step .base) (fun s a => decide (onOk Free s a)) (.ok (.init 2))
      stoppingRun).any (okAnd fun s => decide (s.isStopping = true ∧ ∀ w, ¬ s.requeues w)) := by
    decide
  obtain ⟨s, hr, hstop, hrequeue⟩ := exists_ok_of_any hrun
  obtain ⟨hsettled, hafter⟩ := stopping_settled (.of_decidedRun hr) hstop
  exact ⟨s, hr, hstop, hsettled.mpr hrequeue, fun t ht => (hafter hrequeue t ht).2.2⟩

/-- A fiber yields in `READY`; its worker executes the decrement while the other idles. -/
def requeueRun : List (Action 2) :=
  [.outside 0 (.newFiber (some 5)), .outside 0 (.schedule (.fiber (some 1)) (-1)), .worker 0,
    .worker 0, .worker 0, .worker 0, .worker 0, .worker 0, .worker 1, .worker 1,
    .autoStop, .stop, .fiber 0 .yieldToReady, .worker 0, .worker 0, .worker 0]

/-- The other worker finds that it can stop, and the fiber is switched in afterwards. -/
def afterStopRun : List (Action 2) :=
  [.idleCheck 1 true, .worker 0, .worker 0, .worker 0, .worker 0, .worker 0, .worker 0, .worker 0,
    .worker 0, .worker 0]

/-- `stopping()` can be true while a fiber is waiting to be queued again. -/
theorem stopping_before_requeue :
    ∃ s t, Reaches (step .base) (onOk Free) (.ok (.init 2)) (.ok s) ∧ s.isStopping = true ∧
      (s.workers 1).pc = .idleCheck ∧ s.states 1 = .ready ∧ ¬ Settled s ∧
      Reaches (step .base) (onOk Inside) (.ok s) (.ok t) ∧ (t.workers 1).idle = .term ∧
      t.resumed ≠ s.resumed := by
  have hrun : (checkedRun (step .base) (fun s a => decide (onOk Free s a)) (.ok (.init 2))
      requeueRun).any (okAnd fun s => decide (s.isStopping = true ∧
        (s.workers 1).pc = .idleCheck ∧ s.states 1 = .ready ∧
        (checkedRun (step .base) (fun s a => decide (onOk Inside s a)) (.ok s)
          afterStopRun).any (okAnd fun t =>
            decide ((t.workers 1).idle = .term ∧ t.resumed ≠ s.resumed)))) := by decide
  obtain ⟨s, hr, hstop, hpc, hready, hafter⟩ := exists_ok_of_any hrun
  obtain ⟨t, hr', hterm, hresumed⟩ := exists_ok_of_any hafter
  exact ⟨s, t, .of_decidedRun hr, hstop, hpc, hready, fun hsettled => hsettled.ready 1 hready,
    .of_decidedRun hr', hterm, hresumed⟩

end Sylar.Scheduler
