import Sylar.Scheduler.WellFormed

/-! # One worker per fiber

A worker has a fiber in its grasp from the scan that takes it, or from the preparation of its
`cb_fiber`, until the fiber is switched out. `m_state` keeps others away only once it is
`EXEC`, so a fiber that is queued twice can be taken twice; while every worker keeps off the
fibers in another one's grasp, no fiber is switched in twice.
-/

namespace Sylar.Scheduler

open Transition

variable {n : Nat} {k : Kind}

/-! ## Grasp -/

/-- The fiber that was taken and is not yet switched out. -/
def Pc.grasp : Pc → Option FiberId
  | .checkTerm f | .checkExcept f | .swapAssert _ f | .swapExec _ f | .swapCtx _ f
  | .running _ f | .yieldReady _ f | .swapOut _ f | .prepareWrite _ f => some f
  | _ => none

/-- The fiber that was taken and is not yet in `EXEC`. -/
def Pc.beforeExec : Pc → Option FiberId
  | .checkTerm f | .checkExcept f | .swapAssert _ f | .swapExec _ f => some f
  | _ => none

theorem Pc.fiber_of_grasp {pc : Pc} {f : FiberId} (h : pc.grasp = some f) : pc.fiber = some f := by
  cases pc <;> first | exact h | cases h

theorem Pc.grasp_of_beforeExec {pc : Pc} {f : FiberId} (h : pc.beforeExec = some f) :
    pc.grasp = some f := by
  cases pc <;> first | exact h | cases h

/-- The fiber that the next access of worker `w` lays hands on: the one of the first entry it
may take, or its own `cb_fiber`. -/
def State.claims (s : State n) (w : Fin n) : Option FiberId :=
  match (s.workers w).pc with
  | .scan => (s.queue.find? fun e => decide (takeable s.states w e)).bind fun e => e.task.fiber
  | .prepare _ => (s.workers w).cbFiber
  | _ => none

/-- No worker lays hands on a fiber in the grasp of another. -/
def Unclaimed (s : State n) : Action n → Prop
  | .worker w => (s.workers w).tickle = .none → ∀ f ∈ s.claims w,
      ∀ v, v ≠ w → (s.workers v).pc.grasp ≠ some f
  | _ => True

instance (s : State n) (a : Action n) : Decidable (Unclaimed s a) :=
  match a with
  | .worker w => inferInstanceAs (Decidable (_ → ∀ f ∈ s.claims w, ∀ v, v ≠ w → _ ≠ _))
  | .outside _ _ | .outsideTickle _ | .start | .autoStop | .stop | .call _ _ | .fiber _ _
  | .idleCheck _ _ | .wake _ _ => inferInstanceAs (Decidable True)

/-! ## The invariant -/

structure Owned (s : State n) : Prop where
  exclusive : ∀ v w f, (s.workers v).pc.grasp = some f → (s.workers w).pc.grasp = some f → v = w
  ready : ∀ w f, (s.workers w).pc.beforeExec = some f → s.states f ≠ .exec

theorem owned_init (n : Nat) : Owned (.init n) := ⟨nofun, nofun⟩

/-- A step that lays hands on nothing and puts no fiber into `EXEC`. -/
theorem Owned.keep {s s' : State n} (h : Owned s) {w : Fin n} {x : Worker}
    (hworkers : s'.workers = Function.update s.workers w x)
    (hstates : ∀ f, s'.states f = .exec → s.states f = .exec)
    (hgrasp : ∀ f, x.pc.grasp = some f → ∀ v, (s.workers v).pc.grasp = some f → v = w)
    (hready : ∀ f, x.pc.beforeExec = some f → s'.states f ≠ .exec) : Owned s' where
  exclusive := fun u v f hu hv => by
    rw [hworkers] at hu hv
    by_cases huw : u = w <;> by_cases hvw : v = w
    · rw [huw, hvw]
    · rw [huw, Function.update_self] at hu
      rw [Function.update_of_ne hvw] at hv
      exact (hvw (hgrasp f hu v hv)).elim
    · rw [hvw, Function.update_self] at hv
      rw [Function.update_of_ne huw] at hu
      exact (huw (hgrasp f hv u hu)).elim
    · rw [Function.update_of_ne huw] at hu
      rw [Function.update_of_ne hvw] at hv
      exact h.exclusive u v f hu hv
  ready := fun v f hv => by
    rw [hworkers] at hv
    by_cases hvw : v = w
    · rw [hvw, Function.update_self] at hv
      exact hready f hv
    · rw [Function.update_of_ne hvw] at hv
      exact fun hexec => h.ready v f hv (hstates f hexec)

/-- The worker goes on with what it has in its grasp, or lets it go, and may store a state
other than `EXEC`. -/
theorem Owned.store {s s' : State n} (h : Owned s) {w : Fin n} {pc : Pc} {x : Worker}
    (hworkers : s'.workers = Function.update s.workers w x)
    (hstates : ∀ f, s'.states f = .exec → s.states f = .exec) (hpc : (s.workers w).pc = pc)
    (hgrasp : x.pc.grasp = pc.grasp ∨ x.pc.grasp = none)
    (hready : x.pc.beforeExec = pc.beforeExec ∨ x.pc.beforeExec = none) : Owned s' := by
  refine h.keep hworkers hstates (fun f hf v hv => ?_) (fun f hf hexec => ?_)
  · rcases hgrasp with heq | heq
    · exact h.exclusive v w f hv (by rw [hpc, ← heq]; exact hf)
    · rw [heq] at hf
      cases hf
  · rcases hready with heq | heq
    · exact h.ready w f (by rw [hpc, ← heq]; exact hf) (hstates f hexec)
    · rw [heq] at hf
      cases hf

/-- The worker goes on with what it has in its grasp, or lets it go. -/
theorem Owned.goto {s s' : State n} (h : Owned s) {w : Fin n} {pc : Pc} {x : Worker}
    (hs' : s' = { s' with workers := Function.update s.workers w x, states := s.states })
    (hpc : (s.workers w).pc = pc) (hgrasp : x.pc.grasp = pc.grasp ∨ x.pc.grasp = none)
    (hready : x.pc.beforeExec = pc.beforeExec ∨ x.pc.beforeExec = none) : Owned s' := by
  have hworkers : s'.workers = Function.update s.workers w x := by rw [hs']
  have hstates : s'.states = s.states := by rw [hs']
  exact h.store hworkers (fun f hexec => hstates ▸ hexec) hpc hgrasp hready

theorem store_ne_exec {states : FiberId → FiberState} {f : FiberId} {x : FiberState}
    (hx : x ≠ .exec) (g : FiberId) (hg : Function.update states f x g = .exec) :
    states g = .exec := by
  by_cases hgf : g = f
  · rw [hgf, Function.update_self] at hg
    exact (hx hg).elim
  · rwa [Function.update_of_ne hgf] at hg

/-! ## Steps -/

theorem Owned.notifies {s t : State n} (h : Owned s) (ht : Notifies s t) : Owned t where
  exclusive := fun v w f hv hw => h.exclusive v w f (ht.pc v ▸ hv) (ht.pc w ▸ hw)
  ready := fun w f hw => by
    rw [ht.states]
    exact h.ready w f (ht.pc w ▸ hw)

theorem settle_states (s : State n) (c : Call) (f : FiberId)
    (hf : (s.settle c).states f = .exec) : s.states f = .exec := by
  cases c
  case newFiber cb => exact store_ne_exec (by decide) f hf
  all_goals exact hf

theorem Owned.call {s : State n} (h : Owned s) (c : Call) : Owned (s.call c).2 := by
  refine ⟨?_, fun w f hw hexec => ?_⟩
  · rw [call_workers]
    exact h.exclusive
  · rw [call_workers] at hw
    rw [call_eq] at hexec
    exact h.ready w f hw (settle_states s c f hexec)

theorem find_takeable {states : FiberId → FiberState} {w : Fin n} {pre post : List Entry}
    {e : Entry} (hpre : ∀ x ∈ pre, ¬ takeable states w x) (he : takeable states w e) :
    (pre ++ e :: post).find? (fun x => decide (takeable states w x)) = some e := by
  rw [List.find?_append, List.find?_eq_none.mpr (by simpa using hpre), Option.none_or,
    List.find?_cons_of_pos (by simpa using he)]

theorem Owned.scans {s s' : State n} (h : Owned s) {w : Fin n} (hpc : (s.workers w).pc = .scan)
    (hclaims : ∀ f ∈ s.claims w, ∀ v, v ≠ w → (s.workers v).pc.grasp ≠ some f)
    (hs : Scans s w s') : Owned s' := by
  cases hs with
  | nothing tickle hnone htickle => exact h.keep rfl (fun _ hx => hx) nofun nofun
  | took tickle pre post e pc hqueue hpre he hstart =>
      cases hstart with
      | callback cb hf => exact h.keep rfl (fun _ hx => hx) nofun nofun
      | fiber f hf =>
          refine h.keep rfl (fun _ hx => hx) (fun g hg v hv => ?_) (fun g hg hexec => ?_)
          · cases hg
            by_contra hvw
            refine hclaims f ?_ v hvw hv
            simp [State.claims, hpc, hqueue, find_takeable hpre he, hf]
          · cases hg
            exact he.2 ⟨f, hf, hexec⟩

theorem Owned.prepare {s s' : State n} (h : Owned s) (hwf : WellFormed s) {w : Fin n} {cb : Cb}
    (hpc : (s.workers w).pc = .prepare cb)
    (hclaims : ∀ f ∈ s.claims w, ∀ v, v ≠ w → (s.workers v).pc.grasp ≠ some f)
    (hs : s.prepare w cb = .ok s') : Owned s' := by
  unfold State.prepare at hs
  split at hs
  · cases hs
    refine h.keep rfl (store_ne_exec (by decide)) (fun f hf v hv => ?_) (fun f hf hexec => ?_)
    · -- the number of the new fiber is not in use
      cases hf
      have hle := (hwf.workers v).fiber _ (Pc.fiber_of_grasp hv)
      exact (Nat.not_succ_le_self _ hle).elim
    · cases hf
      change Function.update s.states (s.lastFiber + 1) .init (s.lastFiber + 1) = .exec at hexec
      rw [Function.update_self] at hexec
      cases hexec
  · rename_i f hcb
    split at hs <;> cases hs
    refine h.keep rfl (fun _ hx => hx) (fun g hg v hv => ?_) nofun
    cases hg
    by_contra hvw
    refine hclaims f ?_ v hvw hv
    simp [State.claims, hpc, hcb]

theorem Owned.swapExec {s : State n} (h : Owned s) {w : Fin n} {b : Branch} {f : FiberId}
    (hpc : (s.workers w).pc = .swapExec b f) :
    Owned ((s.setState f .exec).goto w (.swapCtx b f)) where
  exclusive := by
    have hkeep : Owned (s.goto w (.swapCtx b f)) := h.goto rfl hpc (.inl rfl) (.inr rfl)
    exact hkeep.exclusive
  ready := fun v g hv => by
    by_cases hvw : v = w
    · rw [hvw] at hv
      simp [State.goto] at hv
      cases hv
    · simp only [State.goto, setWorker_workers, Function.update_of_ne hvw] at hv
      have hne : g ≠ f := by
        rintro rfl
        exact hvw (h.exclusive v w g (Pc.grasp_of_beforeExec hv) (by rw [hpc]; rfl))
      change Function.update s.states f .exec g ≠ .exec
      rw [Function.update_of_ne hne]
      exact h.ready v g hv

theorem Owned.accessAt {s : State n} (h : Owned s) (hs : Sound s) {w : Fin n}
    (hclaims : ∀ f ∈ s.claims w, ∀ v, v ≠ w → (s.workers v).pc.grasp ≠ some f)
    {r : Except Fault (State n)} (hr : s.accessAt w (s.workers w).pc = some r) :
    Holds Owned (fun e => e ≠ .swapIn) r := by
  cases hpc : (s.workers w).pc <;> rw [hpc] at hr
  case scan =>
    obtain ⟨t, ht, hscan⟩ := scan_scans s w hs.conserves.queue_nonEmpty
    cases ht.symm.trans (Option.some.inj hr)
    exact h.scans hpc hclaims hscan
  case running b f => cases hr
  case idleCheck => cases hr
  case blocked => cases hr
  case exited => cases hr
  case requeue b f =>
    cases hr
    rw [State.requeue, requeue_eq]
    exact h.keep rfl (fun _ hx => hx) (fun _ hg => by cases hg) (fun _ hg => by cases hg)
  case prepare cb =>
    have hrun := Option.some.inj hr
    cases r with
    | ok t => exact h.prepare hs.wellFormed hpc hclaims hrun
    | error e =>
        simp only [State.accessAt, State.prepare, Option.some.injEq] at hr
        split at hr
        · cases hr
        · split at hr <;> cases hr
          intro herr
          cases herr
  -- the assertion of `swapIn` holds since nobody else can have stored `EXEC`
  case swapAssert b f =>
    have hready := h.ready w f (by rw [hpc]; rfl)
    simp only [State.accessAt, if_neg hready, Option.some.injEq] at hr
    cases hr
    exact h.goto rfl hpc (.inl rfl) (.inl rfl)
  case swapExec b f =>
    cases hr
    exact h.swapExec hpc
  case recycle f =>
    simp only [State.accessAt, Option.some.injEq] at hr
    split at hr <;> cases hr
    · exact h.goto rfl hpc (.inl rfl) (.inl rfl)
    · intro herr
      cases herr
  case noTask =>
    have hidle := hs.wellFormed.not_idle (w := w) (by rw [hpc]; rfl)
    simp only [State.accessAt, State.noTask, Option.some.injEq] at hr
    split at hr
    · cases hr
      exact h.goto rfl hpc (.inl rfl) (.inl rfl)
    · rename_i hexec
      exact (hidle hexec).elim
    · cases hr
      exact h.goto rfl hpc (.inl rfl) (.inl rfl)
  case woken pipe =>
    cases pipe <;> cases hr <;> exact h.goto rfl hpc (.inl rfl) (.inl rfl)
  -- loads that choose the next access
  case checkTerm f | checkExcept f =>
    cases hr
    refine h.goto rfl hpc ?_ ?_ <;> (dsimp only; split)
    · exact .inr rfl
    · exact .inl rfl
    · exact .inr rfl
    · exact .inl rfl
  case postReady b f | post1 b f | post2 b f =>
    cases hr
    refine h.goto rfl hpc (.inl ?_) (.inl ?_) <;> (cases b <;> dsimp only <;> split <;> rfl)
  -- stores of other states
  case yieldReady b f =>
    cases hr
    exact h.store rfl (store_ne_exec (by decide)) hpc (.inl rfl) (.inl rfl)
  case writeHold b f =>
    cases hr
    exact h.store rfl (store_ne_exec (by decide)) hpc (.inl rfl) (.inl rfl)
  case recycleWrite f =>
    cases hr
    exact h.store rfl (store_ne_exec (by decide)) hpc (.inl rfl) (.inl rfl)
  case prepareWrite cb f =>
    cases hr
    refine h.keep rfl (store_ne_exec (by decide)) (fun g hg v hv => ?_) (fun g hg hexec => ?_)
    · cases hg
      exact h.exclusive v w f hv (by rw [hpc]; rfl)
    · cases hg
      change Function.update s.states f .init f = .exec at hexec
      rw [Function.update_self] at hexec
      cases hexec
  -- one access, then the next program counter
  case swapCtx b f | decActive b f =>
    cases hr
    exact h.goto rfl hpc (.inl rfl) (.inl rfl)
  case swapOut b f =>
    cases hr
    exact h.goto rfl hpc (.inr rfl) (.inl rfl)
  case deadDec f =>
    cases hr
    exact h.goto rfl hpc (.inl rfl) (.inl rfl)
  case idleDec =>
    cases hr
    exact h.goto rfl hpc (.inl rfl) (.inl rfl)

theorem Owned.fiberOp {s : State n} (h : Owned s) {w : Fin n} {b : Branch} {f : FiberId}
    (hpc : (s.workers w).pc = .running b f) {fop : FiberOp} {r : Except Fault (State n)}
    (hr : s.fiberOp w b f fop = some r) : Holds Owned (fun e => e ≠ .swapIn) r := by
  unfold State.fiberOp at hr
  split at hr <;> cases hr
  cases fop with
  | register => exact ⟨h.exclusive, h.ready⟩
  | yieldToReady | yieldToHold =>
      simp only [State.runFiber]
      split
      · exact h.goto rfl hpc (.inl rfl) (.inl rfl)
      · intro herr
        cases herr
  | finish | throw => exact h.store rfl (store_ne_exec (by decide)) hpc (.inl rfl) (.inl rfl)

theorem op_owned (s : State n) (a : Action n) (r : Except Fault (State n)) (hs : Sound s)
    (h : Owned s) (hfree : Unclaimed s a) (hr : op k s a = some r) :
    Holds Owned (fun e => e ≠ .swapIn) r := by
  cases op_acts hr with
  | call a c t ha hc ht => exact (h.call c).notifies ht
  | notify a t ht => exact h.notifies ht
  | access w r htickle hr => exact h.accessAt hs (hfree htickle) hr
  | fiber w b f fop r hpc hr => exact h.fiberOp hpc hr
  | idleCheck k w quiet hpc =>
      unfold State.idleCheck
      split
      · exact h.goto rfl hpc (.inl rfl) (.inl rfl)
      · cases k <;> exact h.goto rfl hpc (.inl rfl) (.inl rfl)
  | wake w pipe hpc => exact h.goto rfl hpc (.inl rfl) (.inl rfl)

/-! ## Every run -/

/-- The invariant with what it rests on. -/
structure SoundlyOwned (s : State n) : Prop where
  sound : Sound s
  owned : Owned s

theorem op_soundlyOwned (s : State n) (a : Action n) (r : Except Fault (State n))
    (h : SoundlyOwned s) (hfree : Unclaimed s a) (hr : op k s a = some r) :
    Holds SoundlyOwned (fun e => e ≠ .swapIn) r := by
  have hsound := op_sound s a r h.sound hr
  have howned := op_owned s a r h.sound h.owned hfree hr
  cases r with
  | ok t => exact ⟨hsound, howned⟩
  | error e => exact howned

/-- While no worker takes a fiber in the grasp of another, no fiber is in the grasp of two
workers, so none is switched in while another worker executes it or has taken it, and the
assertion of `swapIn` never fails. A scan that takes such a fiber puts it in the grasp of both. -/
theorem unclaimed_takes_safe {r : Except Fault (State n)}
    (h : Reaches (step k) (onOk Unclaimed) (.ok (.init n)) r) :
    r ≠ .error .swapIn ∧ ∀ s, r = .ok s →
      (∀ v w f, (s.workers v).pc.grasp = some f → (s.workers w).pc.grasp = some f → v = w) ∧
      (∀ w b f, (s.workers w).pc = .swapCtx b f →
        ∀ v, v ≠ w → (s.workers v).pc.grasp ≠ some f) ∧
      ∀ v w f, v ≠ w → (s.workers w).pc = .scan → f ∈ s.claims w →
        (s.workers v).pc.grasp = some f → ∃ s', s.scan w = .ok s' ∧
          (s'.workers v).pc.grasp = some f ∧ (s'.workers w).pc.grasp = some f := by
  have hinv := h.invariant (preserves_abortable op_soundlyOwned)
    (⟨sound_init n, owned_init n⟩ : SoundlyOwned (.init n))
  refine ⟨fun he => by rw [he] at hinv; exact hinv rfl, fun s hs => ?_⟩
  rw [hs] at hinv
  have howned : SoundlyOwned s := hinv
  refine ⟨howned.owned.exclusive, fun w b f hpc v hv hgrasp => ?_, fun v w f hv hpc hf hgrasp => ?_⟩
  · exact hv (howned.owned.exclusive v w f hgrasp (by rw [hpc]; rfl))
  · obtain ⟨s', hs', hscan⟩ := scan_scans s w howned.sound.conserves.queue_nonEmpty
    refine ⟨s', hs', ?_⟩
    cases hscan with
    | nothing tickle hnone htickle =>
        have hfind : s.queue.find? (fun e => decide (takeable s.states w e)) = none :=
          List.find?_eq_none.mpr (by simpa using hnone)
        simp [State.claims, hpc, hfind] at hf
    | took tickle pre post e pc hqueue hpre he hstart =>
        simp only [State.claims, hpc, hqueue, find_takeable hpre he, Option.bind_some,
          Option.mem_def] at hf
        simp only [State.take, setWorker_workers, Function.update_of_ne hv, Function.update_self]
        refine ⟨hgrasp, ?_⟩
        cases hstart with
        | fiber g hg => rw [hg] at hf; exact hf
        | callback cb hg => rw [hg] at hf; cases hf

/-- The same fiber queued twice, each entry taken after the fiber was let go. -/
def unclaimedRun : List (Action 2) :=
  [.outside 0 (.newFiber (some 5)), .outside 0 (.schedule (.fiber (some 1)) (-1)),
    .outside 1 (.schedule (.fiber (some 1)) (-1)), .worker 0, .worker 0, .worker 0, .worker 0,
    .worker 0, .worker 0, .worker 0, .fiber 0 .yieldToHold, .worker 0, .worker 0, .worker 0,
    .worker 0, .worker 0, .worker 0, .worker 1, .worker 1, .worker 1, .worker 1, .worker 1,
    .worker 1]

theorem unclaimed_takes_sample :
    ∃ s, checkedRun (step .base) (fun s a => decide (onOk Unclaimed s a)) (.ok (.init 2))
        unclaimedRun = some (.ok s) ∧ (s.workers 1).pc = .running .fiber 1 ∧
      (s.workers 0).pc.grasp ≠ some 1 := by
  have hrun : (checkedRun (step .base) (fun s a => decide (onOk Unclaimed s a)) (.ok (.init 2))
      unclaimedRun).any (okAnd fun s => decide ((s.workers 1).pc = .running .fiber 1)) := by
    decide
  obtain ⟨s, hr, hpc⟩ := exists_ok_of_any hrun
  obtain ⟨hexclusive, _⟩ := (unclaimed_takes_safe (.of_decidedRun hr)).2 s rfl
  refine ⟨s, hr, hpc, fun hgrasp => ?_⟩
  have heq := hexclusive 0 1 1 hgrasp (by rw [hpc]; rfl)
  cases heq

/-! ## Two entries of one fiber -/

/-- Both workers take the fiber while it is in `INIT` and pass the assertion of `swapIn`. -/
def doubleRun : List (Action 2) :=
  [.outside 0 (.newFiber (some 5)), .outside 0 (.schedule (.fiber (some 1)) (-1)),
    .outside 1 (.schedule (.fiber (some 1)) (-1)), .worker 0, .worker 0, .worker 1,
    .worker 0, .worker 0, .worker 0, .worker 1, .worker 1, .worker 1,
    .worker 0, .worker 0, .worker 1, .worker 1]

/-- The second worker reaches the assertion after the first has stored `EXEC`. -/
def assertRun : List (Action 2) :=
  [.outside 0 (.newFiber (some 5)), .outside 0 (.schedule (.fiber (some 1)) (-1)),
    .outside 1 (.schedule (.fiber (some 1)) (-1)), .worker 0, .worker 0, .worker 1,
    .worker 1, .worker 1, .worker 0, .worker 0, .worker 0, .worker 0, .worker 1]

/-- A fiber that is queued twice can run on two workers at once, and can fail the
assertion of `swapIn`. -/
theorem duplicate_runs_twice :
    (∃ s, Reaches (step .base) (onOk Free) (.ok (.init 2)) (.ok s) ∧
      (s.workers 0).pc = .running .fiber 1 ∧ (s.workers 1).pc = .running .fiber 1) ∧
    Reaches (step .base) (onOk Free) (.ok (.init 2)) (.error .swapIn) := by
  have hdouble : (checkedRun (step .base) (fun s a => decide (onOk Free s a)) (.ok (.init 2))
      doubleRun).any (okAnd fun s => decide ((s.workers 0).pc = .running .fiber 1 ∧
        (s.workers 1).pc = .running .fiber 1)) := by decide
  have hassert : (checkedRun (step .base) (fun s a => decide (onOk Free s a)) (.ok (.init 2))
      assertRun).any (fun r => match r with
        | .ok _ => false
        | .error e => decide (e = .swapIn)) := by decide
  constructor
  · obtain ⟨s, hr, hpc⟩ := exists_ok_of_any hdouble
    exact ⟨s, .of_decidedRun hr, hpc⟩
  · obtain ⟨r, hr, he⟩ := (Option.any_eq_true _ _).mp hassert
    cases r with
    | ok s => cases he
    | error e =>
        cases of_decide_eq_true he
        exact .of_decidedRun hr

end Sylar.Scheduler
