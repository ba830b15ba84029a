import Sylar.Scheduler.WellFormed

/-! # Suspend and resume

Each fiber has at most one outstanding wake-up: its first `schedule`, a source it
registered and then yields to hold for, or the re-queueing after `YieldToReady`. A fiber that
is woken early stays in `EXEC` until the worker that runs it has stored `HOLD`, so its entry
waits in the queue until that worker has let it go.
-/

namespace Sylar.Scheduler

open Transition

variable {n : Nat} {k : Kind}

/-! ## The discipline -/

def isFiber (g : FiberId) (ft : FiberAndThread) : Bool := decide (ft.fiber = some g)

/-- Outstanding wake-ups of a fiber: its queue entries and its registered source. -/
def State.pending (s : State n) (g : FiberId) : Nat :=
  s.queue.countP (fun e => isFiber g e.task) + if s.source g then 1 else 0

/-- A fiber is scheduled once when it was created, and from then on only woken. -/
def Initial (s : State n) (fts : List FiberAndThread) : Prop :=
  ∀ ft ∈ fts, ∀ g ∈ ft.fiber, s.fresh g = true ∧ fts.countP (isFiber g) = 1

/-- While a wake-up is outstanding the fiber only yields to hold. -/
def Disciplined (s : State n) : Action n → Prop
  | .outside _ (.schedule t thread) | .call _ (.schedule t thread) => Initial s [t.entry thread]
  | .outside _ (.scheduleAll ts) | .call _ (.scheduleAll ts) =>
      Initial s (ts.map fun t => t.entry (-1))
  | .fiber w fop =>
      ∀ f ∈ (s.workers w).pc.fiber, fop = .yieldToHold ∨ s.pending f = 0
  | _ => True

instance (s : State n) (fts : List FiberAndThread) : Decidable (Initial s fts) :=
  inferInstanceAs (Decidable (∀ ft ∈ fts, ∀ g ∈ ft.fiber, _ ∧ _))

instance (s : State n) (a : Action n) : Decidable (Disciplined s a) := by
  unfold Disciplined
  split <;> infer_instance

/-! ## The invariant -/

/-- The worker handles the fiber, or keeps it as its `cb_fiber`. -/
def Worker.owns (x : Worker) (g : FiberId) : Prop := x.pc.fiber = some g ∨ x.cbFiber = some g

/-- The states and numbers of outstanding wake-ups of a fiber that a worker handles. -/
def Pc.Allows (pc : Pc) (x : FiberState) (p : Nat) : Prop :=
  match pc with
  | .checkTerm _ | .checkExcept _ | .swapAssert _ _ | .swapExec _ _ =>
      p = 0 ∧ (x = .init ∨ x = .hold ∨ x = .ready)
  | .swapCtx _ _ | .yieldReady _ _ => x = .exec ∧ p = 0
  | .running _ _ | .writeHold _ _ => x = .exec
  | .swapOut _ _ | .decActive _ _ | .postReady _ _ =>
      x = .exec ∨ (x = .ready ∨ x = .term ∨ x = .except) ∧ p = 0
  | .requeue _ _ => x = .ready ∧ p = 0
  | .post1 _ _ => x = .exec ∨ (x = .term ∨ x = .except) ∧ p = 0
  | .post2 b _ => x = .exec ∨ x = secondEnd b ∧ p = 0
  | .prepareWrite _ _ => x = .init ∧ p = 0
  | .recycle _ | .recycleWrite _ => (x = .term ∨ x = .except) ∧ p = 0
  | .deadDec _ => False
  | _ => True

/-- A worker and one fiber, in state `x` with `p` outstanding wake-ups. -/
structure Worker.Handles (y : Worker) (g : FiberId) (x : FiberState) (p : Nat) : Prop where
  handled : y.pc.fiber = some g → y.pc.Allows x p
  apart : y.pc.fiber = some g → y.cbFiber = some g → y.pc.cbFiber = some g
  parked : y.cbFiber = some g → y.pc.fiber ≠ some g → x = .init ∧ p = 0

/-- A suspended fiber is not in `EXEC`, and not ended while a wake-up is outstanding. -/
def Suspended (x : FiberState) (p : Nat) : Prop :=
  x ≠ .exec ∧ (0 < p → x ≠ .term ∧ x ≠ .except)

structure FiberOk (s : State n) (g : FiberId) : Prop where
  pending : s.pending g ≤ 1
  exclusive : ∀ v w, (s.workers v).owns g → (s.workers w).owns g → v = w
  handles : ∀ w, (s.workers w).Handles g (s.states g) (s.pending g)
  suspended : (∀ w, ¬ (s.workers w).owns g) → Suspended (s.states g) (s.pending g)
  fresh : s.fresh g = true →
    s.states g = .init ∧ s.pending g = 0 ∧ ∀ w, ¬ (s.workers w).owns g
  known : s.fresh g = true ∨ s.source g = true → g ≤ s.lastFiber

def HandedOff (s : State n) : Prop := ∀ g, FiberOk s g

theorem handedOff_init (n : Nat) : HandedOff (.init n) := fun g => by
  have hown : ∀ w : Fin n, ¬ ((State.init n).workers w).owns g := by
    rintro w (h | h) <;> cases h
  exact ⟨by simp [State.pending, State.init], fun v w hv => (hown v hv).elim,
    fun w => ⟨nofun, nofun, nofun⟩, fun _ => ⟨nofun, by simp [State.pending, State.init]⟩,
    nofun, by rintro (h | h) <;> cases h⟩

/-- The worker looks the same to the fiber `g`. -/
structure SameView (g : FiberId) (x y : Worker) : Prop where
  pc : y.pc.fiber = some g ∨ x.pc.fiber = some g → y.pc = x.pc
  cbFiber : y.cbFiber = some g ↔ x.cbFiber = some g

theorem SameView.refl (g : FiberId) (x : Worker) : SameView g x x := ⟨fun _ => rfl, Iff.rfl⟩

theorem SameView.owns {g : FiberId} {x y : Worker} (h : SameView g x y) : y.owns g → x.owns g := by
  rintro (hy | hy)
  · exact .inl (by rw [← h.pc (.inl hy)]; exact hy)
  · exact .inr (h.cbFiber.mp hy)

theorem SameView.symm {g : FiberId} {x y : Worker} (h : SameView g x y) : SameView g y x :=
  ⟨fun hxy => (h.pc hxy.symm).symm, h.cbFiber.symm⟩

theorem SameView.handles {g : FiberId} {x y : Worker} (h : SameView g x y) {st : FiberState}
    {p : Nat} (hx : x.Handles g st p) : y.Handles g st p where
  handled := fun hy => by
    have heq := h.pc (.inl hy)
    rw [heq] at hy ⊢
    exact hx.handled hy
  apart := fun hy hcb => by
    have heq := h.pc (.inl hy)
    rw [heq] at hy ⊢
    exact hx.apart hy (h.cbFiber.mp hcb)
  parked := fun hcb hy => hx.parked (h.cbFiber.mp hcb) fun hxf => by
    rw [h.pc (.inr hxf)] at hy
    exact hy hxf

theorem FiberOk.transfer {s s' : State n} {g : FiberId} (h : FiberOk s g)
    (hview : ∀ v, SameView g (s.workers v) (s'.workers v)) (hstate : s'.states g = s.states g)
    (hpending : s'.pending g = s.pending g) (hfresh : s'.fresh g = s.fresh g)
    (hsource : s'.source g = true → s.source g = true) (hlast : s.lastFiber ≤ s'.lastFiber) :
    FiberOk s' g where
  pending := hpending ▸ h.pending
  exclusive := fun v w hv hw => h.exclusive v w ((hview v).owns hv) ((hview w).owns hw)
  handles := fun w => by
    rw [hstate, hpending]
    exact (hview w).handles (h.handles w)
  suspended := fun hout => by
    rw [hstate, hpending]
    exact h.suspended fun w hw => hout w ((hview w).symm.owns hw)
  fresh := fun hf => by
    rw [hfresh] at hf
    obtain ⟨hinit, hzero, hout⟩ := h.fresh hf
    exact ⟨hstate.trans hinit, hpending.trans hzero, fun w hw => hout w ((hview w).owns hw)⟩
  known := fun hk => (h.known (by
    rcases hk with hk | hk
    · exact .inl (hfresh ▸ hk)
    · exact .inr (hsource hk))).trans hlast

theorem FiberOk.become {s s' : State n} {f : FiberId} {w : Fin n} {x : Worker}
    (hworkers : s'.workers = Function.update s.workers w x)
    (honly : ∀ v, v ≠ w → ¬ (s.workers v).owns f) (hpending : s'.pending f ≤ 1)
    (hx : x.Handles f (s'.states f) (s'.pending f))
    (hout : ¬ x.owns f → Suspended (s'.states f) (s'.pending f)) (hfresh : s'.fresh f = false)
    (hknown : f ≤ s'.lastFiber) : FiberOk s' f := by
  have howner : ∀ v, (s'.workers v).owns f → v = w := by
    intro v hv
    by_contra hvw
    rw [hworkers, Function.update_of_ne hvw] at hv
    exact honly v hvw hv
  refine ⟨hpending, fun u v hu hv => (howner u hu).trans (howner v hv).symm, fun v => ?_,
    fun hnone => hout ?_, fun hf => ?_, fun _ => hknown⟩
  · by_cases hvw : v = w
    · rw [hvw, hworkers, Function.update_self]
      exact hx
    · have hno := honly v hvw
      rw [hworkers, Function.update_of_ne hvw]
      exact ⟨fun hv => (hno (.inl hv)).elim, fun hv => (hno (.inl hv)).elim,
        fun hv => (hno (.inr hv)).elim⟩
  · have hw := hnone w
    rwa [hworkers, Function.update_self] at hw
  · rw [hfresh] at hf
    cases hf

theorem HandedOff.about {s s' : State n} (h : HandedOff s) {w : Fin n} {f : FiberId} {x : Worker}
    (hworkers : s'.workers = Function.update s.workers w x)
    (hold : (s.workers w).pc.fiber = some f ∨ (s.workers w).pc.fiber = none)
    (hnew : x.pc.fiber = some f ∨ x.pc.fiber = none)
    (hcb : ∀ g, g ≠ f → (x.cbFiber = some g ↔ (s.workers w).cbFiber = some g))
    (hstates : ∀ g, g ≠ f → s'.states g = s.states g)
    (hpending : ∀ g, g ≠ f → s'.pending g = s.pending g)
    (hsource : ∀ g, g ≠ f → s'.source g = s.source g) (hfresh : s'.fresh = s.fresh)
    (hlast : s.lastFiber ≤ s'.lastFiber) (hf : FiberOk s' f) : HandedOff s' := by
  intro g
  by_cases hgf : g = f
  · rw [hgf]
    exact hf
  · refine (h g).transfer (fun v => ?_) (hstates g hgf) (hpending g hgf) (congrFun hfresh g)
      (fun hs => hsource g hgf ▸ hs) hlast
    by_cases hvw : v = w
    · rw [hvw, hworkers, Function.update_self]
      refine ⟨fun hpc => ?_, hcb g hgf⟩
      rcases hpc with hpc | hpc
      · rcases hnew with hn | hn <;> rw [hn] at hpc <;> cases hpc
        exact (hgf rfl).elim
      · rcases hold with hn | hn <;> rw [hn] at hpc <;> cases hpc
        exact (hgf rfl).elim
    · rw [hworkers, Function.update_of_ne hvw]
      exact .refl g _

theorem pending_congr {s s' : State n} (hqueue : s'.queue = s.queue) (g : FiberId)
    (hsource : s'.source g = s.source g) : s'.pending g = s.pending g := by
  rw [State.pending, State.pending, hqueue, hsource]

theorem HandedOff.owner {s : State n} (h : HandedOff s) {w : Fin n} {f : FiberId}
    (hw : (s.workers w).owns f) :
    s.fresh f = false ∧ ∀ v, v ≠ w → ¬ (s.workers v).owns f := by
  refine ⟨?_, fun v hvw hv => hvw ((h f).exclusive v w hv hw)⟩
  by_contra hne
  exact ((h f).fresh (Bool.eq_true_of_not_eq_false hne)).2.2 w hw

theorem HandedOff.store {s s' : State n} (h : HandedOff s) (hwf : WellFormed s) {w : Fin n}
    {pc : Pc} {f : FiberId} {x : Worker} {st : FiberState}
    (hs' : s' = { s' with
      workers := Function.update s.workers w x
      states := Function.update s.states f st
      queue := s.queue
      source := s.source
      fresh := s.fresh
      lastFiber := s.lastFiber })
    (hpc : (s.workers w).pc = pc) (hfiber : pc.fiber = some f) (hnew : x.pc.fiber = some f)
    (hbranch : x.pc.cbFiber = pc.cbFiber) (hcb : x.cbFiber = (s.workers w).cbFiber)
    (hallows : x.pc.Allows st (s.pending f)) : HandedOff s' := by
  have hsource : s'.source = s.source := by rw [hs']
  have hfresh : s'.fresh = s.fresh := by rw [hs']
  have hlast : s'.lastFiber = s.lastFiber := by rw [hs']
  have hworkers : s'.workers = Function.update s.workers w x := by rw [hs']
  have hstates : s'.states = Function.update s.states f st := by rw [hs']
  have hpending : ∀ g, s'.pending g = s.pending g := fun g =>
    pending_congr (by rw [hs']) g (congrFun hsource g)
  have hw : (s.workers w).owns f := .inl (by rw [hpc]; exact hfiber)
  obtain ⟨hnotfresh, honly⟩ := h.owner hw
  refine h.about hworkers (.inl (by rw [hpc]; exact hfiber)) (.inl hnew) (fun g _ => by rw [hcb])
    (fun g hg => by rw [hstates, Function.update_of_ne hg]) (fun g _ => hpending g)
    (fun g _ => congrFun hsource g) hfresh hlast.ge ?_
  refine FiberOk.become hworkers honly (by rw [hpending]; exact (h f).pending)
    ⟨fun _ => ?_, fun _ hxcb => ?_, fun _ hne => (hne hnew).elim⟩
    (fun hno => (hno (.inl hnew)).elim) ((congrFun hfresh f).trans hnotfresh) ?_
  · rw [hpending, hstates, Function.update_self]
    exact hallows
  · rw [hbranch, ← hpc]
    exact ((h f).handles w).apart (by rw [hpc]; exact hfiber) (hcb ▸ hxcb)
  · rw [hlast]
    exact (hwf.workers w).fiber f (by rw [hpc]; exact hfiber)

theorem HandedOff.goto {s s' : State n} (h : HandedOff s) (hwf : WellFormed s) {w : Fin n}
    {pc : Pc} {f : FiberId} {x : Worker}
    (hs' : s' = { s' with
      workers := Function.update s.workers w x
      states := s.states
      queue := s.queue
      source := s.source
      fresh := s.fresh
      lastFiber := s.lastFiber })
    (hpc : (s.workers w).pc = pc) (hfiber : pc.fiber = some f) (hnew : x.pc.fiber = some f)
    (hbranch : x.pc.cbFiber = pc.cbFiber) (hcb : x.cbFiber = (s.workers w).cbFiber)
    (hallows : x.pc.Allows (s.states f) (s.pending f)) : HandedOff s' :=
  h.store hwf (hs'.trans (by rw [Function.update_eq_self])) hpc hfiber hnew hbranch hcb hallows

theorem HandedOff.release {s s' : State n} (h : HandedOff s) (hwf : WellFormed s) {w : Fin n}
    {pc : Pc} {b : Branch} {f : FiberId} {x : Worker}
    (hs' : s' = { s' with
      workers := Function.update s.workers w x
      source := s.source
      fresh := s.fresh
      lastFiber := s.lastFiber })
    (hpc : (s.workers w).pc = pc) (hfiber : pc.fiber = some f)
    (hbranch : pc.cbFiber = b.cbFiber f) (hnew : x.pc.fiber = none)
    (hcb : x.cbFiber = dropFiber b (s.workers w).cbFiber)
    (hstates : ∀ g, g ≠ f → s'.states g = s.states g)
    (hpending : ∀ g, g ≠ f → s'.pending g = s.pending g) (hle : s'.pending f ≤ 1)
    (hsuspended : Suspended (s'.states f) (s'.pending f)) : HandedOff s' := by
  have hworkers : s'.workers = Function.update s.workers w x := by rw [hs']
  have hsource : s'.source = s.source := by rw [hs']
  have hfresh : s'.fresh = s.fresh := by rw [hs']
  have hlast : s'.lastFiber = s.lastFiber := by rw [hs']
  have hw : (s.workers w).owns f := .inl (by rw [hpc]; exact hfiber)
  obtain ⟨hnotfresh, honly⟩ := h.owner hw
  have hdrop : x.cbFiber ≠ some f ∧
      ∀ g, g ≠ f → (x.cbFiber = some g ↔ (s.workers w).cbFiber = some g) := by
    rw [hcb]
    cases b with
    | fiber =>
        refine ⟨fun hf => ?_, fun g _ => Iff.rfl⟩
        have hown := ((h f).handles w).apart (by rw [hpc]; exact hfiber) hf
        rw [hpc, hbranch] at hown
        cases hown
    | cb =>
        refine ⟨nofun, fun g hgf => ⟨nofun, fun hg => ?_⟩⟩
        have hown := (hwf.workers w).owns f (by rw [hpc]; exact hbranch)
        rw [hown] at hg
        cases hg
        exact (hgf rfl).elim
  refine h.about hworkers (.inl (by rw [hpc]; exact hfiber)) (.inr hnew) hdrop.2 hstates hpending
    (fun g _ => congrFun hsource g) hfresh hlast.ge ?_
  refine FiberOk.become hworkers honly hle
    ⟨fun hf => absurd (hnew.symm.trans hf) nofun, fun hf => absurd (hnew.symm.trans hf) nofun,
      fun hf => (hdrop.1 hf).elim⟩
    (fun _ => hsuspended) ((congrFun hfresh f).trans hnotfresh) ?_
  rw [hlast]
  exact (hwf.workers w).fiber f (by rw [hpc]; exact hfiber)

theorem HandedOff.idle {s s' : State n} (h : HandedOff s) {w : Fin n} {pc : Pc} {x : Worker}
    (hs' : s' = { s' with
      workers := Function.update s.workers w x
      states := s.states
      queue := s.queue
      source := s.source
      fresh := s.fresh
      lastFiber := s.lastFiber })
    (hpc : (s.workers w).pc = pc) (hold : pc.fiber = none) (hnew : x.pc.fiber = none)
    (hcb : x.cbFiber = (s.workers w).cbFiber) : HandedOff s' := fun g => by
  have hsource : s'.source g = s.source g := by rw [hs']
  have hfresh : s'.fresh g = s.fresh g := by rw [hs']
  have hlast : s'.lastFiber = s.lastFiber := by rw [hs']
  have hworkers : s'.workers = Function.update s.workers w x := by rw [hs']
  refine (h g).transfer (fun v => ?_) (by rw [hs']) (pending_congr (by rw [hs']) g hsource) hfresh
    (fun hs => hsource ▸ hs) hlast.ge
  by_cases hvw : v = w
  · rw [hvw, hworkers, Function.update_self]
    refine ⟨fun hg => ?_, by rw [hcb]⟩
    rcases hg with hg | hg
    · exact absurd (hnew.symm.trans hg) nofun
    · rw [hpc, hold] at hg
      cases hg
  · rw [hworkers, Function.update_of_ne hvw]
    exact .refl g _

/-! ## The queue -/

theorem pending_push (s : State n) (fts : List FiberAndThread) (g : FiberId) :
    (s.push fts).pending g = s.pending g + fts.countP (isFiber g) := by
  have hnew : (entriesFrom s.submitted.length fts).countP (fun e => isFiber g e.task) =
      fts.countP (isFiber g) := by
    conv_rhs => rw [← entriesFrom_tasks s.submitted.length fts, List.countP_map]
    rfl
  rw [State.pending, State.pending, State.push, List.countP_append, hnew]
  exact Nat.add_right_comm _ _ _

theorem pending_take {s : State n} {pre post : List Entry} {e : Entry}
    (hqueue : s.queue = pre ++ e :: post) (w : Fin n) (pc : Pc) (t : Tickle) (g : FiberId) :
    s.pending g = (s.take w e (pre ++ post) pc t).pending g +
      if e.task.fiber = some g then 1 else 0 := by
  have hcount : s.queue.countP (fun x => isFiber g x.task) =
      (pre ++ post).countP (fun x => isFiber g x.task) +
        if e.task.fiber = some g then 1 else 0 := by
    simp only [hqueue, List.countP_append, List.countP_cons, isFiber, decide_eq_true_eq]
    exact (Nat.add_assoc _ _ _).symm
  rw [State.pending, hcount]
  exact Nat.add_right_comm _ _ _

/-- A worker handles a fiber with an outstanding wake-up in `EXEC` only. -/
theorem Pc.Allows.exec {pc : Pc} {x : FiberState} {p : Nat} (h : pc.Allows x p)
    (hpc : pc.fiber ≠ none) (hp : 0 < p) : x = .exec := by
  cases pc <;> grind [Pc.Allows, Pc.fiber]

/-- A fiber in the queue that is not in `EXEC` is owned by nobody, so that it may be
switched in. -/
theorem HandedOff.takeable {s : State n} (h : HandedOff s) {f : FiberId}
    (hpending : 0 < s.pending f) (hexec : s.states f ≠ .exec) :
    (∀ w, ¬ (s.workers w).owns f) ∧ s.pending f = 1 ∧
      (s.states f = .init ∨ s.states f = .hold ∨ s.states f = .ready) := by
  have hle := (h f).pending
  have hout : ∀ w, ¬ (s.workers w).owns f := by
    intro w hw
    have hhandles := (h f).handles w
    by_cases hpc : (s.workers w).pc.fiber = some f
    · exact hexec ((hhandles.handled hpc).exec (by rw [hpc]; exact Option.some_ne_none f) hpending)
    · have hparked := hhandles.parked (hw.resolve_left hpc) hpc
      omega
  refine ⟨hout, by omega, ?_⟩
  obtain ⟨_, hend⟩ := (h f).suspended hout
  obtain ⟨hterm, hexcept⟩ := hend hpending
  cases hstate : s.states f <;> simp_all

/-! ## Worker steps -/

theorem HandedOff.scans {s s' : State n} (h : HandedOff s) (hwf : WellFormed s) {w : Fin n}
    (hpc : (s.workers w).pc = .scan) (hs : Scans s w s') : HandedOff s' := by
  cases hs with
  | nothing tickle hnone htickle => exact h.idle rfl hpc rfl rfl rfl
  | took tickle pre post e pc hqueue hpre he hstart =>
      have hmem : e ∈ s.queue := by simp [hqueue]
      have hcount := pending_take hqueue w pc tickle
      cases hstart with
      | callback cb hf =>
          refine fun g => (h g).transfer (fun v => ?_) rfl ?_ rfl (fun hs => hs) (Nat.le_refl _)
          · by_cases hvw : v = w
            · rw [hvw]
              simp only [State.take, setWorker_workers, Function.update_self]
              refine ⟨fun hg => ?_, Iff.rfl⟩
              rw [hpc] at hg
              rcases hg with hg | hg <;> cases hg
            · simp only [State.take, setWorker_workers, Function.update_of_ne hvw]
              exact .refl g _
          · have hg := hcount g
            rw [hf, if_neg (by simp), Nat.add_zero] at hg
            exact hg.symm
      | fiber f hf =>
          have hfcount := hcount f
          rw [hf, if_pos rfl] at hfcount
          have hexec : s.states f ≠ .exec := fun hx => he.2 ⟨f, hf, hx⟩
          obtain ⟨hout, hone, hstate⟩ := h.takeable (by omega) hexec
          have hzero : (s.take w e (pre ++ post) (.checkTerm f) tickle).pending f = 0 := by omega
          refine h.about rfl (.inr (by rw [hpc]; rfl)) (.inl rfl) (fun g _ => Iff.rfl)
            (fun g _ => rfl) (fun g hgf => ?_) (fun g _ => rfl) rfl le_rfl ?_
          · have hg := hcount g
            rw [hf, if_neg (by simpa using Ne.symm hgf), Nat.add_zero] at hg
            exact hg.symm
          · refine FiberOk.become rfl (fun v _ => hout v) (by omega)
              ⟨fun _ => ⟨hzero, hstate⟩, fun _ hcb => (hout w (.inr hcb)).elim,
                fun _ hne => (hne rfl).elim⟩ (fun hno => (hno (.inl rfl)).elim) ?_ ?_
            · by_contra hne
              have hfresh := (h f).fresh (Bool.eq_true_of_not_eq_false hne)
              omega
            · exact hwf.queue e hmem f hf

/-- The number of the next fiber is not in use. -/
theorem HandedOff.unused {s : State n} (h : HandedOff s) (hwf : WellFormed s) :
    (∀ v, ¬ (s.workers v).owns (s.lastFiber + 1)) ∧ s.pending (s.lastFiber + 1) = 0 ∧
      s.fresh (s.lastFiber + 1) = false := by
  have hunknown : ¬ (s.fresh (s.lastFiber + 1) = true ∨ s.source (s.lastFiber + 1) = true) :=
    fun hk => Nat.not_succ_le_self _ ((h _).known hk)
  refine ⟨?_, ?_, Bool.eq_false_iff.mpr fun hf => hunknown (.inl hf)⟩
  · rintro v (hv | hv)
    · exact Nat.not_succ_le_self _ ((hwf.workers v).fiber _ hv)
    · exact Nat.not_succ_le_self _ ((hwf.workers v).cbFiber _ hv)
  · have hqueue : s.queue.countP (fun e => isFiber (s.lastFiber + 1) e.task) = 0 := by
      refine List.countP_eq_zero.mpr fun e he hf => ?_
      exact Nat.not_succ_le_self _ (hwf.queue e he _ (of_decide_eq_true hf))
    rw [State.pending, hqueue, if_neg fun hs => hunknown (.inr hs)]

/-- The reused `cb_fiber` is in `INIT`, so the assertion of `reset` holds. -/
theorem HandedOff.prepare {s : State n} (h : HandedOff s) (hwf : WellFormed s) {w : Fin n} {cb : Cb}
    (hpc : (s.workers w).pc = .prepare cb) : ∃ s', s.prepare w cb = .ok s' ∧ HandedOff s' := by
  unfold State.prepare
  cases hcb : (s.workers w).cbFiber with
  | none =>
      refine ⟨_, rfl, ?_⟩
      obtain ⟨hunused, hzero, hnotfresh⟩ := h.unused hwf
      refine h.about rfl (.inr (by rw [hpc]; rfl)) (.inl rfl) (fun g hgf => ?_) (fun g hgf => ?_)
        (fun g _ => rfl) (fun g _ => rfl) rfl (Nat.le_succ _) ?_
      · rw [hcb]
        exact ⟨fun hg => by cases hg; exact (hgf rfl).elim, nofun⟩
      · exact Function.update_of_ne hgf _ _
      · have hinit : Function.update s.states (s.lastFiber + 1) FiberState.init
            (s.lastFiber + 1) = .init := Function.update_self _ _ _
        refine FiberOk.become rfl (fun v _ => hunused v) (hzero.trans_le (Nat.zero_le 1))
          ⟨fun _ => ⟨hzero, .inl hinit⟩, fun _ _ => rfl, fun _ hne => (hne rfl).elim⟩
          (fun hno => (hno (.inl rfl)).elim) hnotfresh (Nat.le_refl _)
  | some f =>
      have hnot : (s.workers w).pc.fiber ≠ some f := by rw [hpc]; nofun
      obtain ⟨hinit, hzero⟩ := ((h f).handles w).parked hcb hnot
      obtain ⟨hfresh, honly⟩ := h.owner (.inr hcb : (s.workers w).owns f)
      refine ⟨s.goto w (.prepareWrite cb f), if_pos (.inr (.inr hinit)), ?_⟩
      refine h.about rfl (.inr (by rw [hpc]; rfl)) (.inl rfl) (fun g _ => Iff.rfl) (fun g _ => rfl)
        (fun g _ => rfl) (fun g _ => rfl) rfl le_rfl ?_
      exact FiberOk.become rfl honly (h f).pending
        ⟨fun _ => ⟨hinit, hzero⟩, fun _ _ => rfl, fun _ hne => (hne rfl).elim⟩
        (fun hno => (hno (.inl rfl)).elim) hfresh ((hwf.workers w).cbFiber f hcb)

theorem HandedOff.requeue {s : State n} (h : HandedOff s) (hwf : WellFormed s) {w : Fin n}
    {b : Branch} {f : FiberId} (hpc : (s.workers w).pc = .requeue b f) :
    HandedOff (s.requeue w b f) := by
  have hallows : (Pc.requeue b f).Allows (s.states f) (s.pending f) :=
    hpc ▸ ((h f).handles w).handled (by rw [hpc]; rfl)
  obtain ⟨hready, hzero⟩ := hallows
  rw [State.requeue, requeue_eq]
  have hpush : ∀ g, (s.push [⟨some f, none, -1⟩]).pending g =
      s.pending g + if g = f then 1 else 0 := by
    intro g
    rw [pending_push]
    by_cases hgf : g = f
    · simp [isFiber, hgf]
    · simp [isFiber, hgf, Ne.symm hgf]
  refine h.release hwf rfl hpc rfl rfl rfl rfl (fun g _ => rfl) (fun g hgf => ?_) ?_
    ⟨?_, fun _ => ?_⟩
  · have hg := hpush g
    rw [if_neg hgf] at hg
    exact hg
  · have hf := hpush f
    rw [if_pos rfl, hzero] at hf
    exact hf.le
  · change s.states f ≠ .exec
    rw [hready]
    decide
  · change s.states f ≠ .term ∧ s.states f ≠ .except
    rw [hready]
    decide

theorem HandedOff.ended {s : State n} (h : HandedOff s) (hwf : WellFormed s) {w : Fin n} {pc : Pc}
    {b : Branch} {f : FiberId} (hpc : (s.workers w).pc = pc) (hfiber : pc.fiber = some f)
    (hbranch : pc.cbFiber = b.cbFiber f) (hend : s.states f = .term ∨ s.states f = .except)
    (hzero : s.pending f = 0) : HandedOff (s.goto w (endPc b f)) := by
  cases b with
  | fiber =>
      refine h.release hwf rfl hpc hfiber hbranch rfl rfl (fun g _ => rfl) (fun g _ => rfl)
        (h f).pending ⟨?_, fun hp => absurd hzero hp.ne'⟩
      change s.states f ≠ .exec
      rcases hend with hx | hx <;> rw [hx] <;> decide
  | cb => exact h.goto hwf rfl hpc hfiber rfl hbranch.symm rfl ⟨hend, hzero⟩

/-- The reset `cb_fiber` waits for the next callback. -/
theorem HandedOff.recycled {s : State n} (h : HandedOff s) (hwf : WellFormed s) {w : Fin n}
    {f : FiberId} (hpc : (s.workers w).pc = .recycleWrite f) (hzero : s.pending f = 0) :
    HandedOff (((s.setCallback f none).setState f .init).goto w .scan) := by
  have hw : (s.workers w).owns f := .inl (by rw [hpc]; rfl)
  have hcb : (s.workers w).cbFiber = some f := (hwf.workers w).owns f (by rw [hpc]; rfl)
  obtain ⟨hfresh, honly⟩ := h.owner hw
  refine h.about rfl (.inl (by rw [hpc]; rfl)) (.inr rfl) (fun g _ => Iff.rfl)
    (fun g hg => Function.update_of_ne hg _ _) (fun g _ => rfl) (fun g _ => rfl) rfl le_rfl ?_
  exact FiberOk.become rfl honly (h f).pending
    ⟨nofun, nofun, fun _ _ => ⟨Function.update_self _ _ _, hzero⟩⟩
    (fun hno => (hno (.inr hcb)).elim) hfresh ((hwf.workers w).cbFiber f hcb)

/-- After `swapIn` a fiber in `READY` is queued again. -/
theorem HandedOff.postReady {s : State n} (h : HandedOff s) (hwf : WellFormed s) {w : Fin n}
    {b : Branch} {f : FiberId} (hpc : (s.workers w).pc = .postReady b f)
    (hallows : (Pc.postReady b f).Allows (s.states f) (s.pending f)) :
    HandedOff (s.goto w (if s.states f = .ready then .requeue b f else .post1 b f)) := by
  by_cases hready : s.states f = .ready
  · rw [if_pos hready]
    refine h.goto hwf rfl hpc rfl rfl rfl rfl ⟨hready, ?_⟩
    rcases hallows with hx | ⟨_, hzero⟩
    · rw [hx] at hready
      cases hready
    · exact hzero
  · rw [if_neg hready]
    refine h.goto hwf rfl hpc rfl rfl rfl rfl ?_
    rcases hallows with hx | ⟨hx | hx, hzero⟩
    · exact .inl hx
    · exact (hready hx).elim
    · exact .inr ⟨hx, hzero⟩

theorem HandedOff.post1 {s : State n} (h : HandedOff s) (hwf : WellFormed s) {w : Fin n}
    {b : Branch} {f : FiberId} (hpc : (s.workers w).pc = .post1 b f)
    (hallows : (Pc.post1 b f).Allows (s.states f) (s.pending f)) :
    HandedOff (s.goto w (if s.states f = firstEnd b then endPc b f else .post2 b f)) := by
  by_cases hfirst : s.states f = firstEnd b
  · rw [if_pos hfirst]
    rcases hallows with hx | ⟨hend, hzero⟩
    · rw [hx] at hfirst
      cases b <;> cases hfirst
    · exact h.ended hwf hpc rfl rfl hend hzero
  · rw [if_neg hfirst]
    refine h.goto hwf rfl hpc rfl rfl rfl rfl ?_
    rcases hallows with hx | ⟨hx | hx, hzero⟩
    · exact .inl hx
    · cases b
      · exact (hfirst hx).elim
      · exact .inr ⟨hx, hzero⟩
    · cases b
      · exact .inr ⟨hx, hzero⟩
      · exact (hfirst hx).elim

theorem HandedOff.post2 {s : State n} (h : HandedOff s) (hwf : WellFormed s) {w : Fin n}
    {b : Branch} {f : FiberId} (hpc : (s.workers w).pc = .post2 b f)
    (hallows : (Pc.post2 b f).Allows (s.states f) (s.pending f)) :
    HandedOff (s.goto w (if s.states f = secondEnd b then endPc b f else .writeHold b f)) := by
  by_cases hsecond : s.states f = secondEnd b
  · rw [if_pos hsecond]
    have hend : s.states f = .term ∨ s.states f = .except := by
      cases b
      · exact .inr hsecond
      · exact .inl hsecond
    rcases hallows with hx | ⟨_, hzero⟩
    · rw [hx] at hsecond
      cases b <;> cases hsecond
    · exact h.ended hwf hpc rfl rfl hend hzero
  · rw [if_neg hsecond]
    refine h.goto hwf rfl hpc rfl rfl rfl rfl ?_
    exact hallows.resolve_right fun hx => hsecond hx.1

theorem HandedOff.noTask {s : State n} (h : HandedOff s) (hwf : WellFormed s) {w : Fin n}
    (hpc : (s.workers w).pc = .noTask) {r : Except Fault (State n)}
    (hr : s.accessAt w .noTask = some r) : Holds HandedOff (fun _ => False) r := by
  have hidle := hwf.not_idle (w := w) (by rw [hpc]; rfl)
  simp only [State.accessAt, State.noTask, Option.some.injEq] at hr
  split at hr
  · cases hr
    exact h.idle rfl hpc rfl rfl rfl
  · rename_i hexec
    exact (hidle hexec).elim
  · cases hr
    exact h.idle rfl hpc rfl rfl rfl

theorem HandedOff.writeHold {s : State n} (h : HandedOff s) (hwf : WellFormed s) {w : Fin n}
    {b : Branch} {f : FiberId} (hpc : (s.workers w).pc = .writeHold b f)
    {r : Except Fault (State n)} (hr : s.accessAt w (.writeHold b f) = some r) :
    Holds HandedOff (fun _ => False) r := by
  cases hr
  refine h.release hwf rfl hpc rfl rfl rfl rfl (fun g hg => Function.update_of_ne hg _ _)
    (fun g _ => rfl) (h f).pending ?_
  change Suspended (Function.update s.states f .hold f) (s.pending f)
  rw [Function.update_self]
  exact ⟨by decide, fun _ => by decide⟩

theorem HandedOff.recycle {s : State n} (h : HandedOff s) (hwf : WellFormed s) {w : Fin n}
    {f : FiberId} (hpc : (s.workers w).pc = .recycle f)
    (hhandled : (Pc.recycle f).Allows (s.states f) (s.pending f))
    {r : Except Fault (State n)} (hr : s.accessAt w (.recycle f) = some r) :
    Holds HandedOff (fun _ => False) r := by
  obtain ⟨hend, hzero⟩ := hhandled
  have hreset : resettable (s.states f) := by
    rcases hend with hx | hx
    · exact .inl hx
    · exact .inr (.inl hx)
  cases hr
  rw [if_pos hreset]
  exact h.goto hwf rfl hpc rfl rfl rfl rfl ⟨hend, hzero⟩

theorem HandedOff.accessAt {s : State n} (h : HandedOff s) (hs : Sound s) {w : Fin n}
    {r : Except Fault (State n)} (hr : s.accessAt w (s.workers w).pc = some r) :
    Holds HandedOff (fun _ => False) r := by
  have hwf := hs.wellFormed
  have hhandled : ∀ f, (s.workers w).pc.fiber = some f →
      (s.workers w).pc.Allows (s.states f) (s.pending f) := fun f hf => ((h f).handles w).handled hf
  cases hpc : (s.workers w).pc <;> rw [hpc] at hr hhandled
  case scan =>
    obtain ⟨t, ht, hscan⟩ := scan_scans s w hs.conserves.queue_nonEmpty
    cases ht.symm.trans (Option.some.inj hr)
    exact h.scans hwf hpc hscan
  case running b f => cases hr
  case idleCheck => cases hr
  case blocked => cases hr
  case exited => cases hr
  case requeue b f =>
    cases hr
    exact h.requeue hwf hpc
  case prepare cb =>
    obtain ⟨t, ht, hprep⟩ := h.prepare hwf hpc
    cases ht.symm.trans (Option.some.inj hr)
    exact hprep
  case noTask => exact h.noTask hwf hpc hr
  case idleDec =>
    cases hr
    exact h.idle rfl hpc rfl rfl rfl
  case woken pipe =>
    cases pipe <;> cases hr <;> exact h.idle rfl hpc rfl rfl rfl
  -- a taken fiber is alive and not in `EXEC`
  case checkTerm f =>
    obtain ⟨hzero, hstate⟩ := hhandled f rfl
    have hne : s.states f ≠ .term := by rcases hstate with hx | hx | hx <;> rw [hx] <;> decide
    cases hr
    rw [if_neg hne]
    exact h.goto hwf rfl hpc rfl rfl rfl rfl ⟨hzero, hstate⟩
  case checkExcept f =>
    obtain ⟨hzero, hstate⟩ := hhandled f rfl
    have hne : s.states f ≠ .except := by rcases hstate with hx | hx | hx <;> rw [hx] <;> decide
    cases hr
    rw [if_neg hne]
    exact h.goto hwf rfl hpc rfl rfl rfl rfl ⟨hzero, hstate⟩
  case swapAssert b f =>
    obtain ⟨hzero, hstate⟩ := hhandled f rfl
    have hne : s.states f ≠ .exec := by rcases hstate with hx | hx | hx <;> rw [hx] <;> decide
    cases hr
    rw [if_neg hne]
    exact h.goto hwf rfl hpc rfl rfl rfl rfl ⟨hzero, hstate⟩
  case swapExec b f =>
    obtain ⟨hzero, _⟩ := hhandled f rfl
    cases hr
    exact h.store hwf rfl hpc rfl rfl rfl rfl ⟨rfl, hzero⟩
  case swapCtx b f =>
    obtain ⟨hexec, _⟩ := hhandled f rfl
    cases hr
    exact h.goto hwf rfl hpc rfl rfl rfl rfl hexec
  case yieldReady b f =>
    obtain ⟨_, hzero⟩ := hhandled f rfl
    cases hr
    exact h.store hwf rfl hpc rfl rfl rfl rfl (.inr ⟨.inl rfl, hzero⟩)
  case swapOut b f | decActive b f =>
    cases hr
    exact h.goto hwf rfl hpc rfl rfl rfl rfl (hhandled f rfl)
  case deadDec f => exact (hhandled f rfl).elim
  -- the handling after `swapIn`
  case postReady b f =>
    cases hr
    exact h.postReady hwf hpc (hhandled f rfl)
  case post1 b f =>
    cases hr
    exact h.post1 hwf hpc (hhandled f rfl)
  case post2 b f =>
    cases hr
    exact h.post2 hwf hpc (hhandled f rfl)
  case writeHold b f => exact h.writeHold hwf hpc hr
  case recycle f => exact h.recycle hwf hpc (hhandled f rfl) hr
  case recycleWrite f =>
    cases hr
    exact h.recycled hwf hpc (hhandled f rfl).2
  case prepareWrite cb f =>
    obtain ⟨_, hzero⟩ := hhandled f rfl
    cases hr
    exact h.store hwf rfl hpc rfl rfl rfl rfl ⟨hzero, .inl rfl⟩

/-! ## Calls and fiber code -/

theorem countP_filter_nonEmpty (g : FiberId) (fts : List FiberAndThread) :
    (fts.filter FiberAndThread.nonEmpty).countP (isFiber g) = fts.countP (isFiber g) := by
  rw [List.countP_filter]
  refine List.countP_congr fun ft _ => ?_
  simp only [isFiber, Bool.and_eq_true, decide_eq_true_eq, FiberAndThread.nonEmpty,
    and_iff_left_iff_imp]
  intro hf
  simp [hf]

theorem HandedOff.schedule {s : State n} (h : HandedOff s) {ts : List Task}
    {fts : List FiberAndThread} (hinitial : Initial s fts)
    (hts : ∀ g, Task.fiber (some g) ∈ ts ↔ ∃ ft ∈ fts, ft.fiber = some g) :
    HandedOff ((s.consume ts).push (fts.filter FiberAndThread.nonEmpty)) := by
  intro g
  have hpending : ((s.consume ts).push (fts.filter FiberAndThread.nonEmpty)).pending g =
      s.pending g + fts.countP (isFiber g) := by
    rw [pending_push, countP_filter_nonEmpty]
    rfl
  by_cases hin : ∃ ft ∈ fts, ft.fiber = some g
  · obtain ⟨ft, hft, hg⟩ := hin
    obtain ⟨hfresh, hcount⟩ := hinitial ft hft g hg
    obtain ⟨hinit, hzero, hout⟩ := (h g).fresh hfresh
    rw [hzero, hcount] at hpending
    have hgone : (s.consume ts).fresh g = false := by
      simp [State.consume, (hts g).mpr ⟨ft, hft, hg⟩]
    refine ⟨hpending.le, (h g).exclusive, fun w => ?_, fun _ => ⟨?_, fun _ => ?_⟩, fun hf => ?_,
      fun hk => (h g).known (.inl hfresh)⟩
    · exact ⟨fun hw => (hout w (.inl hw)).elim, fun hw => (hout w (.inl hw)).elim,
        fun hw => (hout w (.inr hw)).elim⟩
    · change s.states g ≠ .exec
      rw [hinit]
      decide
    · change s.states g ≠ .term ∧ s.states g ≠ .except
      rw [hinit]
      decide
    · exact absurd (hgone.symm.trans hf) nofun
  · have hcount : fts.countP (isFiber g) = 0 := by
      refine List.countP_eq_zero.mpr fun ft hft hg => hin ⟨ft, hft, of_decide_eq_true hg⟩
    rw [hcount, Nat.add_zero] at hpending
    refine (h g).transfer (fun v => .refl g _) rfl hpending ?_ (fun hs => hs) (Nat.le_refl _)
    change (s.fresh g && !decide (Task.fiber (some g) ∈ ts)) = s.fresh g
    simp [mt (hts g).mp hin]

theorem HandedOff.newFiber {s : State n} (h : HandedOff s) (hwf : WellFormed s) (cb : Option Cb) :
    HandedOff (s.settle (.newFiber cb)) := by
  obtain ⟨hunused, hzero, _⟩ := h.unused hwf
  intro g
  by_cases hg : g = s.lastFiber + 1
  · subst hg
    have hinit : (s.settle (.newFiber cb)).states (s.lastFiber + 1) = .init :=
      Function.update_self _ _ _
    refine ⟨hzero.trans_le (Nat.zero_le 1), fun v w hv => (hunused v hv).elim, fun w => ?_,
      fun _ => ⟨by rw [hinit]; decide, fun _ => by rw [hinit]; decide⟩,
      fun _ => ⟨hinit, hzero, hunused⟩, fun _ => Nat.le_refl _⟩
    exact ⟨fun hw => (hunused w (.inl hw)).elim, fun hw => (hunused w (.inl hw)).elim,
      fun hw => (hunused w (.inr hw)).elim⟩
  · exact (h g).transfer (fun v => .refl g _) (Function.update_of_ne hg _ _) rfl
      (Function.update_of_ne hg _ _) (fun hs => hs) (Nat.le_succ _)

/-- A wake-up that fires turns from a source into a queue entry. -/
theorem HandedOff.fire {s : State n} (h : HandedOff s) {f : FiberId} (hsource : s.source f = true) :
    HandedOff
      ({ s with source := Function.update s.source f false }.push [⟨some f, none, -1⟩]) := by
  intro g
  refine (h g).transfer (fun v => .refl g _) rfl ?_ rfl (fun hs => ?_) (Nat.le_refl _)
  · rw [pending_push]
    by_cases hg : g = f
    · subst hg
      simp [State.pending, isFiber, hsource]
    · simp [State.pending, isFiber, Ne.symm hg, Function.update_of_ne hg]
  · by_cases hg : g = f
    · rw [hg]
      exact hsource
    · change Function.update s.source f false g = true at hs
      rwa [Function.update_of_ne hg] at hs

theorem HandedOff.call {s : State n} (h : HandedOff s) (hwf : WellFormed s) {c : Call}
    (hc : c.enabled s) (hinitial : ∀ t thread, c = .schedule t thread → Initial s [t.entry thread])
    (hbatch : ∀ ts, c = .scheduleAll ts → Initial s (ts.map fun t => t.entry (-1))) :
    HandedOff (s.call c).2 := by
  have hentry : ∀ (t : Task) (thread : Int) (g : FiberId),
      (t.entry thread).fiber = some g ↔ Task.fiber (some g) = t := by
    intro t thread g
    cases t with
    | fiber f => simp only [Task.entry, Task.fiber.injEq]; exact eq_comm
    | callback cb => simp [Task.entry]
  rw [call_eq]
  cases c with
  | newFiber cb =>
      rw [show (Call.newFiber cb).tasks = [] from rfl, push_nil]
      exact h.newFiber hwf cb
  | schedule t thread =>
      refine h.schedule (hinitial t thread rfl) fun g => ?_
      rw [List.mem_singleton, ← hentry t thread g]
      simp [Call.entries]
  | scheduleAll ts =>
      refine h.schedule (hbatch ts rfl) fun g => ?_
      simp only [Call.entries, List.mem_map, exists_exists_and_eq_and, hentry]
      refine ⟨fun hg => ⟨_, hg, rfl⟩, fun hex => ?_⟩
      obtain ⟨_, ht, heq⟩ := hex
      exact heq ▸ ht
  | fire f => exact h.fire (hc.2 f rfl)
  | tickle =>
      rw [show Call.tickle.tasks = [] from rfl, push_nil]
      exact h

theorem HandedOff.notifies {s t : State n} (h : HandedOff s) (ht : Notifies s t) : HandedOff t :=
  fun g => (h g).transfer (fun v => ⟨fun _ => ht.pc v, by rw [ht.cbFiber v]⟩)
    (congrFun ht.states g) (pending_congr ht.queue g (congrFun ht.source g))
    (congrFun ht.fresh g) (fun hs => (congrFun ht.source g) ▸ hs) ht.lastFiber.ge

theorem HandedOff.register {s : State n} (h : HandedOff s) (hwf : WellFormed s) {w : Fin n}
    {b : Branch} {f : FiberId} (hpc : (s.workers w).pc = .running b f) (hzero : s.pending f = 0) :
    HandedOff { s with source := Function.update s.source f true } := by
  have hw : (s.workers w).owns f := .inl (by rw [hpc]; rfl)
  obtain ⟨hfresh, honly⟩ := h.owner hw
  have hhandles := (h f).handles w
  have hexec : s.states f = .exec := by
    have hallows := hhandles.handled (by rw [hpc]; rfl)
    rw [hpc] at hallows
    exact hallows
  have hone : State.pending { s with source := Function.update s.source f true } f ≤ 1 := by
    have hqueue : s.queue.countP (fun e => isFiber f e.task) = 0 := by
      have hsplit := hzero
      rw [State.pending] at hsplit
      omega
    simp [State.pending, hqueue]
  refine h.about (Function.update_eq_self w s.workers).symm (.inl (by rw [hpc]; rfl))
    (.inl (by rw [hpc]; rfl)) (fun g _ => Iff.rfl) (fun g _ => rfl) (fun g hg => ?_)
    (fun g hg => Function.update_of_ne hg _ _) rfl le_rfl ?_
  · simp only [State.pending, Function.update_of_ne hg]
  · refine FiberOk.become (Function.update_eq_self w s.workers).symm honly hone
      ⟨fun _ => ?_, hhandles.apart, fun hcb hne => (hne (by rw [hpc]; rfl)).elim⟩
      (fun hno => (hno hw).elim) hfresh ((hwf.workers w).fiber f (by rw [hpc]; rfl))
    rw [hpc]
    exact hexec

theorem HandedOff.fiberOp {s : State n} (h : HandedOff s) (hwf : WellFormed s) {w : Fin n}
    {b : Branch} {f : FiberId} (hpc : (s.workers w).pc = .running b f) {fop : FiberOp}
    (hfop : fop = .yieldToHold ∨ s.pending f = 0) {r : Except Fault (State n)}
    (hr : s.fiberOp w b f fop = some r) : Holds HandedOff (fun _ => False) r := by
  have hexec : s.states f = .exec := by
    have hallows := ((h f).handles w).handled (by rw [hpc]; rfl)
    rw [hpc] at hallows
    exact hallows
  unfold State.fiberOp at hr
  split at hr <;> cases hr
  cases fop with
  | register => exact h.register hwf hpc (hfop.resolve_left (by decide))
  | yieldToReady =>
      simp only [State.runFiber, if_pos hexec]
      exact h.goto hwf rfl hpc rfl rfl rfl rfl ⟨hexec, hfop.resolve_left (by decide)⟩
  | yieldToHold =>
      simp only [State.runFiber, if_pos hexec]
      exact h.goto hwf rfl hpc rfl rfl rfl rfl (.inl hexec)
  | finish =>
      exact h.store hwf rfl hpc rfl rfl rfl rfl
        (.inr ⟨.inr (.inl rfl), hfop.resolve_left (by decide)⟩)
  | throw =>
      exact h.store hwf rfl hpc rfl rfl rfl rfl
        (.inr ⟨.inr (.inr rfl), hfop.resolve_left (by decide)⟩)

theorem op_handedOff (s : State n) (a : Action n) (r : Except Fault (State n)) (hs : Sound s)
    (h : HandedOff s) (hd : Disciplined s a) (hr : op k s a = some r) :
    Holds HandedOff (fun _ => False) r := by
  have hwf := hs.wellFormed
  cases op_acts hr with
  | call a c t ha hc ht =>
      refine (h.call hwf hc (fun t thread heq => ?_) (fun ts heq => ?_)).notifies ht <;>
        (subst heq; rcases ha with ⟨i, rfl⟩ | ⟨w, rfl⟩ <;> exact hd)
  | notify a t ht => exact h.notifies ht
  | access w r htickle hr => exact h.accessAt hs hr
  | fiber w b f fop r hpc hr => exact h.fiberOp hwf hpc (hd f (by rw [hpc]; rfl)) hr
  | idleCheck k w quiet hpc =>
      unfold State.idleCheck
      split
      · exact h.idle rfl hpc rfl rfl rfl
      · cases k <;> exact h.idle rfl hpc rfl rfl rfl
  | wake w pipe hpc => exact h.idle rfl hpc rfl rfl rfl

end Sylar.Scheduler
