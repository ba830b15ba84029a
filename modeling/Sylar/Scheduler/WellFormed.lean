import Sylar.Scheduler.Conservation

/-! # Local facts about the workers

Every fiber that a worker or the queue names exists, a worker that handles a callback handles
its own `cb_fiber`, and `idle_fiber` is in `EXEC` only while the worker is inside it.
-/

namespace Sylar.Scheduler

open Transition

variable {n : Nat} {k : Kind}

/-! ## The invariant -/

def Pc.fiber : Pc → Option FiberId
  | .checkTerm f | .checkExcept f | .swapAssert _ f | .swapExec _ f | .swapCtx _ f
  | .running _ f | .yieldReady _ f | .swapOut _ f | .decActive _ f | .postReady _ f
  | .requeue _ f | .post1 _ f | .post2 _ f | .writeHold _ f | .prepareWrite _ f
  | .recycle f | .recycleWrite f | .deadDec f => some f
  | _ => none

def Branch.cbFiber : Branch → FiberId → Option FiberId
  | .fiber, _ => none
  | .cb, f => some f

/-- The fiber that `cb_fiber` points to there. -/
def Pc.cbFiber : Pc → Option FiberId
  | .swapAssert b f | .swapExec b f | .swapCtx b f | .running b f | .yieldReady b f
  | .swapOut b f | .decActive b f | .postReady b f | .requeue b f | .post1 b f | .post2 b f
  | .writeHold b f => b.cbFiber f
  | .prepareWrite _ f | .recycle f | .recycleWrite f => some f
  | _ => none

/-- Inside `idle_fiber`, or just out of it. -/
def Pc.idling : Pc → Bool
  | .idleCheck | .blocked | .woken _ | .idleDec => true
  | _ => false

/-- What holds of one worker by itself. -/
structure WorkerOk (lastFiber : Nat) (x : Worker) : Prop where
  fiber : ∀ f, x.pc.fiber = some f → f ≤ lastFiber
  cbFiber : ∀ f, x.cbFiber = some f → f ≤ lastFiber
  owns : ∀ f, x.pc.cbFiber = some f → x.cbFiber = some f
  idle : x.idle = .exec → x.pc.idling = true

structure WellFormed (s : State n) : Prop where
  queue : ∀ e ∈ s.queue, ∀ f, e.task.fiber = some f → f ≤ s.lastFiber
  workers : ∀ w, WorkerOk s.lastFiber (s.workers w)

theorem wellFormed_init (n : Nat) : WellFormed (.init n) where
  queue := nofun
  workers := fun _ => ⟨nofun, nofun, nofun, nofun⟩

theorem WorkerOk.mono {last last' : Nat} {x : Worker} (h : WorkerOk last x) (hle : last ≤ last') :
    WorkerOk last' x :=
  ⟨fun f hf => (h.fiber f hf).trans hle, fun f hf => (h.cbFiber f hf).trans hle, h.owns, h.idle⟩

/-- A worker may become `x` by a step that leaves the queue alone. -/
theorem WellFormed.move {s s' : State n} (h : WellFormed s) {w : Fin n} {x : Worker}
    (hs' : s' = { s' with workers := Function.update s.workers w x, queue := s.queue })
    (hlast : s.lastFiber ≤ s'.lastFiber) (hx : WorkerOk s'.lastFiber x) : WellFormed s' where
  queue := fun e he f hf => by
    have hqueue : s'.queue = s.queue := by rw [hs']
    rw [hqueue] at he
    exact (h.queue e he f hf).trans hlast
  workers := fun v => by
    have hworkers : s'.workers = Function.update s.workers w x := by rw [hs']
    rw [hworkers]
    by_cases hv : v = w
    · rw [hv, Function.update_self]
      exact hx
    · rw [Function.update_of_ne hv]
      exact (h.workers v).mono hlast

/-- `pc'` is about the same fiber as `pc` or about none, and does not leave `idle_fiber`. -/
structure Pc.Follows (pc pc' : Pc) : Prop where
  fiber : pc'.fiber = pc.fiber ∨ pc'.fiber = none
  owns : pc'.cbFiber = pc.cbFiber ∨ pc'.cbFiber = none
  idle : pc.idling = false ∨ pc'.idling = true

theorem WorkerOk.goto {last : Nat} {x x' : Worker} (h : WorkerOk last x)
    (hpc : x.pc.Follows x'.pc) (hcb : x'.cbFiber = x.cbFiber) (hidle : x'.idle = x.idle) :
    WorkerOk last x' where
  fiber := fun f hf => by
    rcases hpc.fiber with heq | heq
    · exact h.fiber f (heq ▸ hf)
    · exact absurd (heq.symm.trans hf) nofun
  cbFiber := hcb ▸ h.cbFiber
  owns := fun f hf => by
    rcases hpc.owns with heq | heq
    · rw [hcb]
      exact h.owns f (heq ▸ hf)
    · exact absurd (heq.symm.trans hf) nofun
  idle := fun hexec => by
    rcases hpc.idle with hout | hin
    · rw [h.idle (hidle ▸ hexec)] at hout
      cases hout
    · exact hin

/-- A worker proceeds with the fiber it is handling, or leaves it. -/
theorem WellFormed.goto {s s' : State n} (h : WellFormed s) {w : Fin n} {pc : Pc} {x : Worker}
    (hs' : s' = { s' with
      workers := Function.update s.workers w x
      queue := s.queue
      lastFiber := s.lastFiber })
    (hpc : (s.workers w).pc = pc) (hfollows : pc.Follows x.pc)
    (hcb : x.cbFiber = (s.workers w).cbFiber) (hidle : x.idle = (s.workers w).idle) :
    WellFormed s' := by
  have hlast : s'.lastFiber = s.lastFiber := by rw [hs']
  refine h.move (hs'.trans (by rw [hlast])) hlast.ge ?_
  rw [hlast]
  exact (h.workers w).goto (hpc ▸ hfollows) hcb hidle

theorem WellFormed.not_idle {s : State n} (h : WellFormed s) {w : Fin n}
    (hpc : (s.workers w).pc.idling = false) : (s.workers w).idle ≠ .exec := fun hexec => by
  rw [(h.workers w).idle hexec] at hpc
  cases hpc

/-! ## Steps -/

theorem WellFormed.push {s : State n} (h : WellFormed s) {fts : List FiberAndThread}
    (hfts : ∀ ft ∈ fts, ∀ f, ft.fiber = some f → f ≤ s.lastFiber) : WellFormed (s.push fts) where
  queue := fun e he f hf => by
    rcases List.mem_append.mp he with he | he
    · exact h.queue e he f hf
    · exact hfts _ (mem_entriesFrom he).1 f hf
  workers := h.workers

theorem WellFormed.call {s : State n} (h : WellFormed s) {c : Call} (hc : c.enabled s) :
    WellFormed (s.call c).2 := by
  rw [call_eq]
  have hlast : s.lastFiber ≤ (s.settle c).lastFiber := by
    cases c
    case newFiber => exact Nat.le_succ _
    all_goals exact Nat.le_refl _
  obtain ⟨hqueue, _, _, _, hworkers⟩ := settle_shared s c
  have hsettle : WellFormed (s.settle c) :=
    ⟨fun e he f hf => (h.queue e (hqueue ▸ he) f hf).trans hlast,
      fun w => hworkers ▸ (h.workers w).mono hlast⟩
  exact hsettle.push fun ft hft f hf =>
    (hc.1 ft (List.mem_filter.mp hft).1 f hf).2.trans hlast

theorem WellFormed.scans {s s' : State n} (h : WellFormed s) {w : Fin n}
    (hpc : (s.workers w).pc = .scan) (hs : Scans s w s') : WellFormed s' := by
  have hidle := h.not_idle (w := w) (by rw [hpc]; rfl)
  cases hs with
  | nothing tickle hnone htickle =>
      exact h.goto rfl hpc ⟨.inl rfl, .inl rfl, .inl rfl⟩ rfl rfl
  | took tickle pre post e pc hqueue hpre he hstart =>
      refine ⟨fun x hx f hf => h.queue x ?_ f hf, fun v => ?_⟩
      · rw [hqueue]
        exact (List.Sublist.append_left (List.sublist_cons_self e post) pre).subset hx
      · simp only [State.take, setWorker_workers]
        by_cases hv : v = w
        · rw [hv, Function.update_self]
          refine ⟨fun f hf => ?_, (h.workers w).cbFiber, fun f hf => ?_,
            fun hexec => (hidle hexec).elim⟩
          · cases hstart with
            | fiber g hg =>
                cases hf
                exact h.queue e (by simp [hqueue]) _ hg
            | callback cb hg => cases hf
          · cases hstart <;> cases hf
        · rw [Function.update_of_ne hv]
          exact h.workers v

theorem WorkerOk.drop {last : Nat} {x : Worker} (h : WorkerOk last x) (hidle : x.idle ≠ .exec)
    (b : Branch) (t : Tickle) :
    WorkerOk last { x with pc := .scan, cbFiber := dropFiber b x.cbFiber, tickle := t } where
  fiber := nofun
  cbFiber := fun f hf => by
    cases b
    · exact h.cbFiber f hf
    · cases hf
  owns := nofun
  idle := fun hexec => (hidle hexec).elim

theorem WellFormed.requeue {s : State n} (h : WellFormed s) {w : Fin n} {b : Branch} {f : FiberId}
    (hpc : (s.workers w).pc = .requeue b f) : WellFormed (s.requeue w b f) := by
  have hidle := h.not_idle (w := w) (by rw [hpc]; rfl)
  rw [State.requeue, requeue_eq]
  have hpush : WellFormed (s.push [⟨some f, none, -1⟩]) := h.push fun ft hft g hg => by
    cases List.mem_singleton.mp hft
    cases hg
    exact (h.workers w).fiber f (by rw [hpc]; rfl)
  exact hpush.move rfl le_rfl ((h.workers w).drop hidle b _)

theorem WellFormed.prepare {s s' : State n} (h : WellFormed s) {w : Fin n} {cb : Cb}
    (hpc : (s.workers w).pc = .prepare cb) (hs : s.prepare w cb = .ok s') : WellFormed s' := by
  have hold := h.workers w
  have hidle := h.not_idle (w := w) (by rw [hpc]; rfl)
  unfold State.prepare at hs
  split at hs
  · cases hs
    refine h.move rfl (Nat.le_succ _) ⟨fun g hg => ?_, fun g hg => ?_, fun g hg => hg,
      fun hexec => (hidle hexec).elim⟩
    · cases hg
      exact Nat.le_refl _
    · cases hg
      exact Nat.le_refl _
  · rename_i f hcb
    split at hs <;> cases hs
    refine h.move rfl le_rfl ⟨fun g hg => ?_, hold.cbFiber, fun g hg => ?_,
      fun hexec => (hidle hexec).elim⟩
    · cases hg
      exact hold.cbFiber _ hcb
    · cases hg
      exact hcb

theorem idleAfter_ne_exec (x : FiberState) : idleAfter x ≠ .exec := by
  cases x <;> decide

theorem WellFormed.accessAt {s s' : State n} (h : WellFormed s) (hcons : Conserves s) {w : Fin n}
    (hr : s.accessAt w (s.workers w).pc = some (.ok s')) : WellFormed s' := by
  cases hpc : (s.workers w).pc <;> rw [hpc] at hr
  case scan =>
    obtain ⟨t, ht, hscan⟩ := scan_scans s w hcons.queue_nonEmpty
    cases ht.symm.trans (Option.some.inj hr)
    exact h.scans hpc hscan
  case running b f => cases hr
  case idleCheck => cases hr
  case blocked => cases hr
  case exited => cases hr
  case requeue b f =>
    cases hr
    exact h.requeue hpc
  case writeHold b f =>
    cases hr
    exact h.move rfl le_rfl ((h.workers w).drop (h.not_idle (by rw [hpc]; rfl)) b _)
  case prepare cb => exact h.prepare hpc (Option.some.inj hr)
  -- tests that may fail an assertion
  case swapAssert b f =>
    obtain ⟨_, rfl⟩ := accessAt_swapAssert hr
    exact h.goto rfl hpc ⟨.inl rfl, .inl rfl, .inl rfl⟩ rfl rfl
  case recycle f =>
    obtain ⟨_, rfl⟩ := accessAt_recycle hr
    exact h.goto rfl hpc ⟨.inl rfl, .inl rfl, .inl rfl⟩ rfl rfl
  case noTask =>
    obtain ⟨_, rfl⟩ | ⟨_, rfl⟩ := accessAt_noTask hr
    · exact h.goto rfl hpc ⟨.inl rfl, .inl rfl, .inl rfl⟩ rfl rfl
    · exact h.move rfl le_rfl ⟨nofun, (h.workers w).cbFiber, nofun, fun _ => rfl⟩
  case idleDec =>
    cases hr
    exact h.move rfl le_rfl ⟨nofun, (h.workers w).cbFiber, nofun,
      fun hexec => (idleAfter_ne_exec _ hexec).elim⟩
  case woken pipe =>
    cases pipe <;> cases hr <;> exact h.goto rfl hpc ⟨.inl rfl, .inl rfl, .inr rfl⟩ rfl rfl
  -- loads that choose the next access
  case checkTerm f | checkExcept f =>
    cases hr
    refine h.goto rfl hpc ?_ rfl rfl
    dsimp only
    split <;> exact ⟨.inl rfl, .inl rfl, .inl rfl⟩
  case postReady b f | post1 b f | post2 b f =>
    cases hr
    refine h.goto rfl hpc ?_ rfl rfl
    dsimp only
    split
    · cases b <;> exact ⟨by simp [Pc.fiber, endPc], by simp [Pc.cbFiber, Branch.cbFiber, endPc],
        .inl rfl⟩
    · exact ⟨.inl rfl, .inl rfl, .inl rfl⟩
  -- one access, then the next program counter
  case decActive b f | swapExec b f | swapCtx b f | yieldReady b f | swapOut b f =>
    cases hr
    exact h.goto rfl hpc ⟨.inl rfl, .inl rfl, .inl rfl⟩ rfl rfl
  case deadDec f =>
    cases hr
    exact h.goto rfl hpc ⟨.inr rfl, .inl rfl, .inl rfl⟩ rfl rfl
  case prepareWrite cb f =>
    cases hr
    exact h.goto rfl hpc ⟨.inl rfl, .inl rfl, .inl rfl⟩ rfl rfl
  case recycleWrite f =>
    cases hr
    exact h.goto rfl hpc ⟨.inr rfl, .inr rfl, .inl rfl⟩ rfl rfl

theorem WellFormed.fiberOp {s s' : State n} (h : WellFormed s) {w : Fin n} {b : Branch}
    {f : FiberId} (hpc : (s.workers w).pc = .running b f) {fop : FiberOp}
    (hr : s.fiberOp w b f fop = some (.ok s')) : WellFormed s' := by
  unfold State.fiberOp at hr
  split at hr
  · cases hr
  · cases fop with
    | register =>
        cases hr
        exact ⟨h.queue, h.workers⟩
    | yieldToReady | yieldToHold =>
        simp only [State.runFiber, Option.some.injEq] at hr
        split at hr <;> cases hr
        exact h.goto rfl hpc ⟨.inl rfl, .inl rfl, .inl rfl⟩ rfl rfl
    | finish | throw =>
        cases hr
        exact h.goto rfl hpc ⟨.inl rfl, .inl rfl, .inl rfl⟩ rfl rfl

theorem WellFormed.notifies {s t : State n} (h : WellFormed s) (ht : Notifies s t) :
    WellFormed t where
  queue := by rw [ht.queue, ht.lastFiber]; exact h.queue
  workers := fun w => by
    rw [ht.lastFiber, ht.workers w]
    exact (h.workers w).goto ⟨.inl rfl, .inl rfl, by cases (s.workers w).pc.idling <;> simp⟩ rfl rfl

/-! ## Every run -/

/-- What later invariants may rest on in any run. -/
structure Sound (s : State n) : Prop where
  conserves : Conserves s
  wellFormed : WellFormed s

theorem sound_init (n : Nat) : Sound (.init n) := ⟨conserves_init n, wellFormed_init n⟩

theorem op_sound (s : State n) (a : Action n) (r : Except Fault (State n)) (h : Sound s)
    (hr : op k s a = some r) : Holds Sound (fun e => e ≠ .scan) r := by
  have hsafe := op_conserves s a r h.conserves hr
  cases r with
  | error e => exact hsafe
  | ok s' =>
      refine ⟨hsafe, ?_⟩
      cases op_acts hr with
      | call a c t ha hc ht => exact (h.wellFormed.call hc).notifies ht
      | notify a t ht => exact h.wellFormed.notifies ht
      | access w r htickle hr => exact h.wellFormed.accessAt h.conserves hr
      | fiber w b f fop r hpc hr => exact h.wellFormed.fiberOp hpc hr
      | idleCheck k w quiet hpc =>
          unfold State.idleCheck
          split
          · exact h.wellFormed.move rfl le_rfl
              ⟨nofun, (h.wellFormed.workers w).cbFiber, nofun, nofun⟩
          · cases k <;> exact h.wellFormed.goto rfl hpc ⟨.inl rfl, .inl rfl, .inr rfl⟩ rfl rfl
      | wake w pipe hpc => exact h.wellFormed.goto rfl hpc ⟨.inl rfl, .inl rfl, .inr rfl⟩ rfl rfl

end Sylar.Scheduler
