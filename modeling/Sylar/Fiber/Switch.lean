import Sylar.Fiber.Context
import Sylar.Scheduler.Resumption

/-! # Workers on their stacks

The threads of a scheduler with the stacks that `run`, the fibers and `idle` switch. Threads
enter the loop of `run` at any time; the caller's thread, if there is one, enters it through
`m_rootFiber`. As long as every fiber has at most one outstanding wake-up, each switch continues
a stack where it was left: what the scheduler takes for the code of a fiber runs on that fiber.
-/

namespace Sylar.Switch

open Scheduler Transition

variable {n : Nat} {k : Kind} {caller : Option (Fin n)}

/-! ## The system -/

inductive Action (n : Nat) where
  | enter (w : Fin n)
  | act (a : Scheduler.Action n)

/-- A scheduler, what its threads execute on, and which of them are in the loop of `run`. -/
structure Switched (n : Nat) where
  sched : State n
  machine : Machine n
  entered : Fin n → Bool

def Switched.init (n : Nat) : Switched n := ⟨.init n, .blank n, fun _ => false⟩

def actor : Scheduler.Action n → Option (Fin n)
  | .worker w | .call w _ | .fiber w _ | .idleCheck w _ | .wake w _ => some w
  | .outside _ _ | .outsideTickle _ | .start | .autoStop | .stop => none

/-- A yield, at the end of `IOManager::idle` too. -/
def Machine.yieldOut (m : Machine n) (w : Fin n) : Except Crash (Machine n) :=
  let r := m.yield w
  r.swapOut w (r.leaving w)

/-- `MainFunc` behind the callback. -/
def Machine.leaveOut (m : Machine n) (w : Fin n) : Except Crash (Machine n) :=
  let r := m.leave w
  r.swapOut w (r.leaving w)

/-- An access of worker `w` that leads from `s` to `t`. -/
def Machine.access (m : Machine n) (caller : Option (Fin n)) (w : Fin n) (s t : State n) :
    Pc → Except Crash (Machine n)
  | .prepare _ =>
      match (s.workers w).cbFiber with
      | none => .ok (m.makecontext (.task t.lastFiber))
      | some _ => .ok m
  | .prepareWrite _ f | .recycleWrite f => .ok (m.makecontext (.task f))
  | .swapCtx _ f => m.swapIn w (.task f)
  | .swapOut _ _ => m.swapOut w (m.leaving w)
  | .noTask => if (t.workers w).pc = .exited then m.exit caller w else m.swapIn w (.idle w)
  | .woken false => m.yieldOut w
  | _ => .ok m

/-- What the code of a fiber does up to its `swapOut()`. -/
def Machine.fiberOp (m : Machine n) (w : Fin n) : FiberOp → Machine n
  | .register => m
  | .yieldToReady | .yieldToHold => m.yield w
  | .finish | .throw => m.leave w

/-- `idle` behind `stopping()`: it returns, yields, or waits. -/
def Machine.idleCheck (m : Machine n) (k : Kind) (w : Fin n) (quiet : Bool) (s : State n) :
    Except Crash (Machine n) :=
  if s.isStopping && (quiet || decide (k = .base)) then m.leaveOut w
  else
    match k with
    | .base => m.yieldOut w
    | .io => .ok m

/-- What a call does to the contexts: `new Fiber` makes one. -/
def Machine.creates (m : Machine n) (t : State n) : Call → Machine n
  | .newFiber _ => m.makecontext (.task t.lastFiber)
  | _ => m

def Machine.next (m : Machine n) (k : Kind) (caller : Option (Fin n)) (s t : State n) :
    Scheduler.Action n → Except Crash (Machine n)
  | .worker w =>
      if (s.workers w).tickle = .none then m.access caller w s t (s.workers w).pc else .ok m
  | .outside _ c | .call _ c => .ok (m.creates t c)
  | .fiber w fop => .ok (m.fiberOp w fop)
  | .idleCheck w quiet => m.idleCheck k w quiet s
  | _ => .ok m

def Switched.follow (p : Switched n) (k : Kind) (caller : Option (Fin n))
    (a : Scheduler.Action n) :
    Except Fault (State n) → Except (Fault ⊕ Crash) (Switched n)
  | .error e => .error (.inl e)
  | .ok t =>
      match p.machine.next k caller p.sched t a with
      | .error e => .error (.inr e)
      | .ok m => .ok { p with sched := t, machine := m }

def op (k : Kind) (caller : Option (Fin n)) (p : Switched n) :
    Action n → Option (Except (Fault ⊕ Crash) (Switched n))
  | .enter w =>
      if p.entered w then none
      else
        match p.machine.enter caller w with
        | .error e => some (.error (.inr e))
        | .ok m => some (.ok { p with machine := m, entered := Function.update p.entered w true })
  | .act a =>
      if ∀ w ∈ actor a, p.entered w = true then
        (Scheduler.op k p.sched a).map (p.follow k caller a)
      else none

def step (k : Kind) (caller : Option (Fin n)) :
    Except (Fault ⊕ Crash) (Switched n) → Action n →
      Option (Except (Fault ⊕ Crash) (Switched n)) := abortable (op k caller)

/-- Every fiber has at most one outstanding wake-up. -/
def Allowed (p : Switched n) : Action n → Prop
  | .enter _ => True
  | .act a => Disciplined p.sched a

instance (p : Switched n) (a : Action n) : Decidable (Allowed p a) :=
  match a with
  | .enter _ => isTrue trivial
  | .act a => inferInstanceAs (Decidable (Disciplined p.sched a))

/-! ## Where the threads stand -/

/-- The fiber that a worker executes on, by its program counter. -/
def standsOn (caller : Option (Fin n)) (w : Fin n) : Pc → Fiber n
  | .running _ f | .yieldReady _ f | .swapOut _ f => .task f
  | .idleCheck | .blocked | .woken _ => .idle w
  | .exited => .thread w
  | _ => homeFiber caller w

def Switched.place (p : Switched n) (caller : Option (Fin n)) (w : Fin n) : Fiber n :=
  if p.entered w then standsOn caller w (p.sched.workers w).pc else .thread w

def Switched.alive (p : Switched n) (caller : Option (Fin n)) : Fiber n → Prop
  | .thread w | .idle w => p.entered w = true
  | .root => ∃ w, caller = some w ∧ p.entered w = true
  | .task f => 0 < f ∧ f ≤ p.sched.lastFiber

def hasEnded (caller : Option (Fin n)) (s : State n) : Fiber n → Prop
  | .thread _ => False
  | .root => ∀ w, caller = some w → (s.workers w).pc = .exited
  | .idle w => (s.workers w).idle = .term
  | .task f => s.states f = .term ∨ s.states f = .except

/-- The fiber that `w` is on its way to switch out. -/
def leavingOf : Pc → Option FiberId
  | .yieldReady _ f | .swapOut _ f => some f
  | _ => none

/-! ## Fibers have positive numbers -/

structure Positive (s : State n) : Prop where
  queue : ∀ e ∈ s.queue, e.task.fiber ≠ some 0
  pc : ∀ w, (s.workers w).pc.fiber ≠ some 0
  cbFiber : ∀ w, (s.workers w).cbFiber ≠ some 0

section Positive

variable {s t : State n} {w : Fin n}

theorem positive_init (n : Nat) : Positive (.init n) where
  queue := by
    intro e he
    cases he
  pc := by
    intro w hw
    cases hw
  cbFiber := by
    intro w hw
    cases hw

theorem Positive.move (h : Positive s) {x : Worker} (hqueue : ∀ e ∈ t.queue, e ∈ s.queue)
    (hworkers : t.workers = Function.update s.workers w x) (hpc : x.pc.fiber ≠ some 0)
    (hcb : x.cbFiber ≠ some 0) : Positive t := by
  refine ⟨fun e he => h.queue e (hqueue e he), fun v => ?_, fun v => ?_⟩ <;> rw [hworkers]
  · by_cases hvw : v = w
    · rw [hvw, Function.update_self]
      exact hpc
    · rw [Function.update_of_ne hvw]
      exact h.pc v
  · by_cases hvw : v = w
    · rw [hvw, Function.update_self]
      exact hcb
    · rw [Function.update_of_ne hvw]
      exact h.cbFiber v

/-- A worker goes on with its fiber, or lets it go. -/
theorem Positive.goto (h : Positive s) {pc : Pc} {x : Worker} (hqueue : t.queue = s.queue)
    (hworkers : t.workers = Function.update s.workers w x) (hw : (s.workers w).pc = pc)
    (hpc : x.pc.fiber = pc.fiber ∨ x.pc.fiber = none)
    (hcb : x.cbFiber = (s.workers w).cbFiber ∨ x.cbFiber = none) : Positive t := by
  refine h.move (fun e he => hqueue ▸ he) hworkers ?_ ?_
  · rcases hpc with heq | heq <;> rw [heq]
    · rw [← hw]
      exact h.pc w
    · exact fun hzero => by cases hzero
  · rcases hcb with heq | heq <;> rw [heq]
    · exact h.cbFiber w
    · exact fun hzero => by cases hzero

theorem Positive.notifies (h : Positive s) (ht : Notifies s t) : Positive t where
  queue := ht.queue ▸ h.queue
  pc := fun v => ht.pc v ▸ h.pc v
  cbFiber := fun v => ht.cbFiber v ▸ h.cbFiber v

theorem Positive.push (h : Positive s) {fts : List FiberAndThread}
    (hfts : ∀ ft ∈ fts, ft.fiber ≠ some 0) : Positive (s.push fts) where
  queue := by
    intro e he
    rcases List.mem_append.mp he with he | he
    · exact h.queue e he
    · exact hfts _ (mem_entriesFrom he).1
  pc := h.pc
  cbFiber := h.cbFiber

theorem Positive.call (h : Positive s) {c : Call} (hc : c.enabled s) : Positive (s.call c).2 := by
  rw [call_eq]
  obtain ⟨hqueue, -, -, -, hworkers⟩ := settle_shared s c
  have hsettle : Positive (s.settle c) :=
    ⟨hqueue ▸ h.queue, hworkers ▸ h.pc, hworkers ▸ h.cbFiber⟩
  refine hsettle.push fun ft hft hzero => ?_
  exact absurd (hc.1 ft (List.mem_filter.mp hft).1 0 hzero).1 (Nat.lt_irrefl 0)

theorem Positive.scans (h : Positive s) (hs : Scans s w t) : Positive t := by
  cases hs with
  | nothing tickle hnone htickle => exact h.goto rfl rfl rfl (.inr rfl) (.inl rfl)
  | took tickle pre post e pc hqueue hpre he hstart =>
      refine h.move (fun x hx => ?_) rfl ?_ (h.cbFiber w)
      · rw [hqueue]
        exact (List.Sublist.append_left (List.sublist_cons_self e post) pre).subset hx
      · cases hstart with
        | fiber f hf =>
            have hmem : e ∈ s.queue := by
              rw [hqueue]
              exact List.mem_append_right pre List.mem_cons_self
            have hpositive := h.queue e hmem
            rwa [hf] at hpositive
        | callback cb hf =>
            intro hzero
            cases hzero

theorem Positive.accessAt (h : Positive s) (hcons : Conserves s)
    (hr : s.accessAt w (s.workers w).pc = some (.ok t)) : Positive t := by
  cases hpc : (s.workers w).pc <;> rw [hpc] at hr
  case scan =>
    obtain ⟨u, hu, hscan⟩ := scan_scans s w hcons.queue_nonEmpty
    cases hu.symm.trans (Option.some.inj hr)
    exact h.scans hscan
  case running b f => cases hr
  case idleCheck => cases hr
  case blocked => cases hr
  case exited => cases hr
  case requeue b f =>
    cases hr
    rw [State.requeue, requeue_eq]
    have hpush : Positive (s.push [⟨some f, none, -1⟩]) := by
      refine h.push fun ft hft => ?_
      rw [List.mem_singleton.mp hft]
      have hf := h.pc w
      rwa [hpc] at hf
    exact hpush.goto rfl rfl hpc (.inr rfl) (by cases b <;> [exact .inl rfl; exact .inr rfl])
  case writeHold b f =>
    cases hr
    exact h.goto rfl rfl hpc (.inr rfl) (by cases b <;> [exact .inl rfl; exact .inr rfl])
  case prepare cb =>
    obtain ⟨hnone, rfl⟩ | ⟨f, hsome, -, rfl⟩ := accessAt_prepare hr
    · have hnew : some (s.lastFiber + 1) ≠ some 0 := by simp
      exact h.move (fun e he => he) rfl hnew hnew
    · have hpositive := h.cbFiber w
      rw [hsome] at hpositive
      exact h.move (fun e he => he) rfl hpositive (h.cbFiber w)
  case swapAssert b f =>
    obtain ⟨-, rfl⟩ := accessAt_swapAssert hr
    exact h.goto rfl rfl hpc (.inl rfl) (.inl rfl)
  case recycle f =>
    obtain ⟨-, rfl⟩ := accessAt_recycle hr
    exact h.goto rfl rfl hpc (.inl rfl) (.inl rfl)
  case noTask =>
    obtain ⟨-, rfl⟩ | ⟨-, rfl⟩ := accessAt_noTask hr <;>
      exact h.goto rfl rfl hpc (.inr rfl) (.inl rfl)
  case woken pipe =>
    cases pipe <;> cases hr <;> exact h.goto rfl rfl hpc (.inr rfl) (.inl rfl)
  case idleDec =>
    cases hr
    exact h.goto rfl rfl hpc (.inr rfl) (.inl rfl)
  -- loads that choose the next access
  case checkTerm f | checkExcept f =>
    cases hr
    refine h.goto rfl rfl hpc (.inl ?_) (.inl rfl)
    dsimp only
    split <;> rfl
  case postReady b f | post1 b f | post2 b f =>
    cases hr
    refine h.goto rfl rfl hpc ?_ (.inl rfl)
    cases b <;> dsimp only <;> split <;> first | exact .inl rfl | exact .inr rfl
  -- one access, then the next program counter
  case deadDec f | recycleWrite f =>
    cases hr
    exact h.goto rfl rfl hpc (.inr rfl) (.inl rfl)
  case decActive b f | swapExec b f | swapCtx b f | yieldReady b f | swapOut b f =>
    cases hr
    exact h.goto rfl rfl hpc (.inl rfl) (.inl rfl)
  case prepareWrite cb f =>
    cases hr
    exact h.goto rfl rfl hpc (.inl rfl) (.inl rfl)

end Positive

/-! ## The invariant -/

structure Follows (caller : Option (Fin n)) (p : Switched n) : Prop where
  woken : WokenOnce p.sched
  positive : Positive p.sched
  fits : p.machine.Fits p.entered (homeFiber caller) (p.place caller) (p.alive caller)
  waiting : ∀ w, p.entered w = false → (p.sched.workers w).pc = .scan
  leaving : ∀ w f, leavingOf (p.sched.workers w).pc = some f →
    p.machine.leaving w = some (.task f)
  ended : ∀ f, p.machine.ended f = true → hasEnded caller p.sched f

section Places

variable {p : Switched n} {v w : Fin n}

theorem place_of_entered (hw : p.entered w = true) :
    p.place caller w = standsOn caller w (p.sched.workers w).pc := if_pos hw

theorem place_of_not_entered (hw : p.entered w = false) : p.place caller w = .thread w := by
  rw [Switched.place, hw]
  rfl

theorem homeFiber_cases (caller : Option (Fin n)) (w : Fin n) :
    (caller = some w ∧ homeFiber caller w = .root) ∨ homeFiber caller w = .thread w := by
  unfold homeFiber
  split
  · exact .inl ⟨‹_›, rfl⟩
  · exact .inr rfl

theorem place_cases (p : Switched n) (caller : Option (Fin n)) (v : Fin n) :
    p.place caller v = .thread v ∨ (caller = some v ∧ p.place caller v = .root) ∨
      p.place caller v = .idle v ∨
      ∃ f, (p.sched.workers v).pc.fiber = some f ∧ p.place caller v = .task f := by
  cases hv : p.entered v with
  | false => exact .inl (place_of_not_entered hv)
  | true =>
      rw [place_of_entered hv]
      have hhome : homeFiber caller v = .thread v ∨
          (caller = some v ∧ homeFiber caller v = .root) := (homeFiber_cases caller v).symm
      cases (p.sched.workers v).pc with
      | running b f | yieldReady b f | swapOut b f => exact .inr (.inr (.inr ⟨f, rfl, rfl⟩))
      | idleCheck | blocked | woken pipe => exact .inr (.inr (.inl rfl))
      | exited => exact .inl rfl
      | _ => exact hhome.imp_right .inl

theorem place_eq_thread (h : p.place caller v = .thread w) : v = w := by
  rcases place_cases p caller v with hv | ⟨-, hv⟩ | hv | ⟨f, -, hv⟩ <;> rw [hv] at h <;> cases h
  rfl

theorem place_eq_root (h : p.place caller v = .root) : caller = some v := by
  rcases place_cases p caller v with hv | ⟨hc, hv⟩ | hv | ⟨f, -, hv⟩ <;> rw [hv] at h <;> cases h
  exact hc

theorem place_eq_idle (h : p.place caller v = .idle w) : v = w := by
  rcases place_cases p caller v with hv | ⟨-, hv⟩ | hv | ⟨f, -, hv⟩ <;> rw [hv] at h <;> cases h
  rfl

theorem place_eq_task {f : FiberId} (h : p.place caller v = .task f) :
    (p.sched.workers v).pc.fiber = some f := by
  rcases place_cases p caller v with hv | ⟨-, hv⟩ | hv | ⟨g, hg, hv⟩ <;> rw [hv] at h <;> cases h
  exact hg

theorem place_eq_home (h : p.place caller v = homeFiber caller w) : v = w := by
  rcases homeFiber_cases caller w with ⟨hc, hw⟩ | hw <;> rw [hw] at h
  · exact Option.some.inj ((place_eq_root h).symm.trans hc)
  · exact place_eq_thread h

theorem Follows.place_task (h : Follows caller p) {f : FiberId}
    (hw : (p.sched.workers w).pc.fiber = some f) (hv : p.place caller v = .task f) : v = w :=
  (h.woken.handedOff f).exclusive v w (.inl (place_eq_task hv)) (.inl hw)

theorem place_update {t : State n} {m : Machine n} {x : Worker} (hw : p.entered w = true)
    (hworkers : t.workers = Function.update p.sched.workers w x) :
    ({ p with sched := t, machine := m } : Switched n).place caller =
      Function.update (p.place caller) w (standsOn caller w x.pc) := by
  funext v
  simp only [Switched.place, hworkers]
  by_cases hvw : v = w
  · rw [hvw, Function.update_self, Function.update_self]
    exact if_pos hw
  · rw [Function.update_of_ne hvw, Function.update_of_ne hvw]
    rfl

end Places

/-! ## Steps of a worker -/

section Steps

variable {p : Switched n} {w : Fin n} {t : State n} {m : Machine n} {x : Worker} {pc : Pc}

theorem hasEnded_congr {s t : State n} (hworkers : t.workers = Function.update s.workers w x)
    (hidle : (s.workers w).idle = .term → x.idle = .term) (hw : (s.workers w).pc = pc)
    (hpc : pc ≠ .exited)
    {f : Fiber n} (hstates : ∀ g, f = .task g → s.states g = .term ∨ s.states g = .except →
      t.states g = s.states g) (hf : hasEnded caller s f) : hasEnded caller t f := by
  cases f with
  | thread v => exact hf
  | root =>
      intro v hv
      have hvw : v ≠ w := by
        rintro rfl
        exact hpc (hw ▸ hf v hv)
      rw [hworkers, Function.update_of_ne hvw]
      exact hf v hv
  | idle v =>
      change (t.workers v).idle = .term
      rw [hworkers]
      by_cases hvw : v = w
      · rw [hvw, Function.update_self]
        rw [hvw] at hf
        exact hidle hf
      · rw [Function.update_of_ne hvw]
        exact hf
  | task f =>
      change t.states f = .term ∨ t.states f = .except
      rw [hstates f rfl hf]
      exact hf

/-- A step that stores nothing leaves the ended fibers ended. -/
theorem Follows.still_ended (h : Follows caller p) {pc' : Pc}
    (hworkers : t.workers =
      Function.update p.sched.workers w { p.sched.workers w with pc := pc' })
    (hstates : t.states = p.sched.states) (hpc : (p.sched.workers w).pc = pc)
    (hexit : pc ≠ .exited) (f : Fiber n) (hf : p.machine.ended f = true) :
    hasEnded caller t f :=
  hasEnded_congr hworkers (fun hidle => hidle) hpc hexit (fun g _ _ => congrFun hstates g)
    (h.ended f hf)

/-- A step of the worker `w`, by what it makes of the machine. -/
theorem Follows.next (h : Follows caller p) (hw : p.entered w = true) (hwoken : WokenOnce t)
    (hpositive : Positive t) (hworkers : t.workers = Function.update p.sched.workers w x)
    (hfits : m.Fits p.entered (homeFiber caller)
      (Function.update (p.place caller) w (standsOn caller w x.pc))
      (({ p with sched := t, machine := m } : Switched n).alive caller))
    (hleaving : ∀ v, v ≠ w → m.leaving v = p.machine.leaving v)
    (hleft : ∀ f, leavingOf x.pc = some f → m.leaving w = some (.task f))
    (hended : ∀ f, m.ended f = true → hasEnded caller t f) :
    Follows caller { p with sched := t, machine := m } where
  woken := hwoken
  positive := hpositive
  fits := by
    rw [place_update hw hworkers]
    exact hfits
  waiting := by
    intro v hv
    have hvw : v ≠ w := by
      rintro rfl
      rw [hw] at hv
      cases hv
    change (t.workers v).pc = .scan
    rw [hworkers, Function.update_of_ne hvw]
    exact h.waiting v hv
  leaving := by
    intro v f hv
    change leavingOf (t.workers v).pc = some f at hv
    rw [hworkers] at hv
    by_cases hvw : v = w
    · rw [hvw, Function.update_self] at hv
      rw [hvw]
      exact hleft f hv
    · rw [Function.update_of_ne hvw] at hv
      exact (hleaving v hvw).trans (h.leaving v f hv)
  ended := hended

theorem alive_of_le (hlast : t.lastFiber = p.sched.lastFiber) (f : Fiber n)
    (hf : ({ p with sched := t, machine := m } : Switched n).alive caller f) :
    p.alive caller f := by
  cases f with
  | task f =>
      have hle : 0 < f ∧ f ≤ t.lastFiber := hf
      exact ⟨hle.1, hlast ▸ hle.2⟩
  | _ => exact hf

theorem Follows.stay (h : Follows caller p) (hw : p.entered w = true) (hwoken : WokenOnce t)
    (hpositive : Positive t) (hworkers : t.workers = Function.update p.sched.workers w x)
    (hlast : t.lastFiber = p.sched.lastFiber) (hpc : (p.sched.workers w).pc = pc)
    (hexit : pc ≠ .exited) (hstands : standsOn caller w x.pc = standsOn caller w pc)
    (hleft : leavingOf x.pc = none ∨ leavingOf x.pc = leavingOf pc)
    (hidle : (p.sched.workers w).idle = .term → x.idle = .term)
    (hstates : ∀ f, p.sched.states f = .term ∨ p.sched.states f = .except →
      t.states f = p.sched.states f) :
    Follows caller { p with sched := t, machine := p.machine } := by
  refine h.next hw hwoken hpositive hworkers ?_ (fun _ _ => rfl) (fun f hf => ?_)
    fun f hf => hasEnded_congr hworkers hidle hpc hexit (fun g _ => hstates g) (h.ended f hf)
  · rw [hstands, ← hpc, ← place_of_entered hw, Function.update_eq_self]
    exact h.fits.mono (alive_of_le hlast)
  · rcases hleft with heq | heq <;> rw [heq] at hf
    · cases hf
    · exact h.leaving w f (hpc ▸ hf)

/-- A step that makes a context for the fiber `f`. -/
theorem Follows.make (h : Follows caller p) (hw : p.entered w = true) (hwoken : WokenOnce t)
    (hpositive : Positive t) (hworkers : t.workers = Function.update p.sched.workers w x)
    {f : FiberId} (hlast : ∀ g, g ≤ t.lastFiber → g ≤ p.sched.lastFiber ∨ g = f)
    (hpc : (p.sched.workers w).pc = pc) (hexit : pc ≠ .exited)
    (hstands : standsOn caller w x.pc = standsOn caller w pc)
    (hleft : leavingOf x.pc = none)
    (hidle : (p.sched.workers w).idle = .term → x.idle = .term)
    (hstates : ∀ g, g ≠ f → t.states g = p.sched.states g) :
    Follows caller { p with sched := t, machine := p.machine.makecontext (.task f) } := by
  refine h.next hw hwoken hpositive hworkers ?_ (fun _ _ => rfl) (fun g hg => ?_)
    fun g hg => ?_
  · rw [hstands, ← hpc, ← place_of_entered hw, Function.update_eq_self]
    refine h.fits.makecontext fun g hg => ?_
    cases g with
    | task g =>
        have hle : 0 < g ∧ g ≤ t.lastFiber := hg
        exact (hlast g hle.2).imp (fun hold => ⟨hle.1, hold⟩) (congrArg Fiber.task)
    | _ => exact .inl hg
  · rw [hleft] at hg
    cases hg
  · have hne : g ≠ .task f := by
      rintro rfl
      rw [Machine.makecontext_self] at hg
      cases hg
    refine hasEnded_congr hworkers hidle hpc hexit (fun i hi _ => hstates i ?_)
      (h.ended g (Machine.makecontext_ended hg))
    rintro rfl
    exact hne hi

/-- A step that switches to the fiber `b`, behind what `m` did to the machine. -/
theorem Follows.switch (h : Follows caller p) (hw : p.entered w = true) (hwoken : WokenOnce t)
    (hpositive : Positive t) (hworkers : t.workers = Function.update p.sched.workers w x)
    (hlast : t.lastFiber = p.sched.lastFiber)
    (hfits : m.Fits p.entered (homeFiber caller) (p.place caller) (p.alive caller))
    (hleaving : ∀ v, v ≠ w → m.leaving v = p.machine.leaving v)
    (hended : ∀ f, m.ended f = true → hasEnded caller t f) {b : Fiber n}
    (hb : p.alive caller b) (hfree : ∀ v, p.place caller v ≠ b) (hnot : m.ended b = false)
    (hstands : standsOn caller w x.pc = b)
    (hleft : leavingOf x.pc = none) :
    ∃ m', (m.setThis w (some b)).swapcontext w (p.place caller w) b = .ok m' ∧
      Follows caller { p with sched := t, machine := m' } := by
  obtain ⟨m', hswitch, hfits', hended', hleaving'⟩ := hfits.switch hw rfl hb hfree hnot
  refine ⟨m', hswitch, h.next hw hwoken hpositive hworkers ?_ (fun v hv => ?_) (fun g hg => ?_)
    fun g hg => hended g (hended' ▸ hg)⟩
  · rw [hstands]
    exact hfits'.mono (alive_of_le hlast)
  · rw [hleaving']
    exact hleaving v hv
  · rw [hleft] at hg
    cases hg

/-! ### Switching out -/

theorem Follows.yield_eq (h : Follows caller p) (hw : p.entered w = true) :
    p.machine.yield w = { p.machine with
      leaving := Function.update p.machine.leaving w (some (p.place caller w)) } := by
  simp only [Machine.yield, Machine.getThis, h.fits.thisFiber w hw]

theorem Follows.leave_eq (h : Follows caller p) (hplace : ∀ v, p.place caller w ≠ .thread v) :
    p.machine.leave w = { p.machine with
      ended := Function.update p.machine.ended (p.place caller w) true
      leaving := Function.update p.machine.leaving w (some (p.place caller w)) } := by
  have hcur : p.machine.cur (p.place caller w) = some (p.place caller w) := by
    have hnamed := h.fits.named w
    cases hfiber : p.place caller w with
    | thread v => exact (hplace v hfiber).elim
    | _ =>
        rw [hfiber] at hnamed
        exact hnamed
  rw [Machine.leave, h.fits.running w, hcur]

theorem Follows.alive_home (hw : p.entered w = true) : p.alive caller (homeFiber caller w) := by
  rcases homeFiber_cases caller w with ⟨hc, heq⟩ | heq <;> rw [heq]
  · exact ⟨w, hc, hw⟩
  · exact hw

theorem Follows.home_not_ended (h : Follows caller p) (hpc : (p.sched.workers w).pc ≠ .exited) :
    p.machine.ended (homeFiber caller w) = false := by
  rw [← Bool.not_eq_true]
  intro htrue
  have hended := h.ended _ htrue
  rcases homeFiber_cases caller w with ⟨hc, heq⟩ | heq <;> rw [heq] at hended
  · exact hpc (hended w hc)
  · exact hended

theorem Follows.swapOut (h : Follows caller p) (hw : p.entered w = true) (hwoken : WokenOnce t)
    (hpositive : Positive t) (hworkers : t.workers = Function.update p.sched.workers w x)
    (hlast : t.lastFiber = p.sched.lastFiber)
    (hfits : m.Fits p.entered (homeFiber caller) (p.place caller) (p.alive caller))
    (hleaving : ∀ v, v ≠ w → m.leaving v = p.machine.leaving v)
    (hended : ∀ f, m.ended f = true → hasEnded caller t f)
    (hnot : m.ended (homeFiber caller w) = false)
    (haway : p.place caller w ≠ homeFiber caller w)
    (hleave : m.leaving w = some (p.place caller w))
    (hstands : standsOn caller w x.pc = homeFiber caller w)
    (hleft : leavingOf x.pc = none) :
    ∃ m', m.swapOut w (m.leaving w) = .ok m' ∧
      Follows caller { p with sched := t, machine := m' } := by
  have hfree : ∀ v, p.place caller v ≠ homeFiber caller w := by
    intro v hv
    cases place_eq_home hv
    exact haway hv
  obtain ⟨m', hswitch, hfollows⟩ := h.switch hw hwoken hpositive hworkers hlast hfits hleaving
    hended (Follows.alive_home hw) hfree hnot hstands hleft
  refine ⟨m', ?_, hfollows⟩
  rw [hleave]
  simp only [Machine.swapOut, hfits.schedulerFiber w hw]
  exact hswitch

/-! ### The accesses of `run` -/

theorem Follows.allows (h : Follows caller p) {pc : Pc} {f : FiberId}
    (hpc : (p.sched.workers w).pc = pc) (hf : pc.fiber = some f) :
    pc.Allows (p.sched.states f) (p.sched.pending f) := by
  have hallows := ((h.woken.handedOff f).handles w).handled (hpc ▸ hf)
  rwa [hpc] at hallows

theorem update_states {states : FiberId → FiberState} {f : FiberId} {x : FiberState}
    (hf : ¬ (states f = .term ∨ states f = .except)) (g : FiberId)
    (hg : states g = .term ∨ states g = .except) : Function.update states f x g = states g := by
  have hne : g ≠ f := by
    rintro rfl
    exact hf hg
  exact Function.update_of_ne hne _ _

/-! ### Where the accesses switch -/

theorem home_ne_task (caller : Option (Fin n)) (w : Fin n) (f : FiberId) :
    homeFiber caller w ≠ .task f := by
  intro htask
  rcases homeFiber_cases caller w with ⟨-, heq⟩ | heq <;> rw [heq] at htask <;> cases htask

theorem home_ne_idle (caller : Option (Fin n)) (v w : Fin n) :
    homeFiber caller w ≠ .idle v := by
  intro hidle
  rcases homeFiber_cases caller w with ⟨-, heq⟩ | heq <;> rw [heq] at hidle <;> cases hidle

theorem Follows.swapIn (h : Follows caller p) (hw : p.entered w = true) (hwoken : WokenOnce t)
    (hpositive : Positive t) (hworkers : t.workers = Function.update p.sched.workers w x)
    (hlast : t.lastFiber = p.sched.lastFiber) (hpc : (p.sched.workers w).pc = pc)
    (hhome : standsOn caller w pc = homeFiber caller w)
    (hended : ∀ f, p.machine.ended f = true → hasEnded caller t f) {b : Fiber n}
    (hb : p.alive caller b) (hfree : ∀ v, p.place caller v ≠ b)
    (hnot : p.machine.ended b = false) (hstands : standsOn caller w x.pc = b)
    (hleft : leavingOf x.pc = none) :
    ∃ m', p.machine.swapIn w b = .ok m' ∧
      Follows caller { p with sched := t, machine := m' } := by
  obtain ⟨m', hswitch, hfollows⟩ := h.switch hw hwoken hpositive hworkers hlast h.fits
    (fun _ _ => rfl) hended hb hfree hnot hstands hleft
  refine ⟨m', ?_, hfollows⟩
  rw [place_of_entered hw, hpc, hhome] at hswitch
  simp only [Machine.swapIn, h.fits.schedulerFiber w hw]
  exact hswitch

theorem Follows.idleOut (h : Follows caller p) (hw : p.entered w = true) (hwoken : WokenOnce t)
    (hpositive : Positive t) (hworkers : t.workers = Function.update p.sched.workers w x)
    (hlast : t.lastFiber = p.sched.lastFiber) (hpc : (p.sched.workers w).pc = pc)
    (hexit : pc ≠ .exited) (hplace : standsOn caller w pc = .idle w) {ended : Fiber n → Bool}
    (hended : ∀ f, ended f = true → hasEnded caller t f)
    (hnot : ended (homeFiber caller w) = p.machine.ended (homeFiber caller w))
    (hstands : standsOn caller w x.pc = homeFiber caller w) (hleft : leavingOf x.pc = none) :
    ∃ m', ({ p.machine with
        ended := ended
        leaving := Function.update p.machine.leaving w (some (p.place caller w)) } :
          Machine n).swapOut w (some (p.place caller w)) = .ok m' ∧
      Follows caller { p with sched := t, machine := m' } := by
  have hidle : p.place caller w = .idle w := by rw [place_of_entered hw, hpc, hplace]
  let leaving := Function.update p.machine.leaving w (some (p.place caller w))
  have hleave : leaving w = some (p.place caller w) := Function.update_self ..
  obtain ⟨m', hswap, hfollows⟩ := h.swapOut hw hwoken hpositive hworkers hlast
    (h.fits.frame ended leaving)
    (fun v hv => Function.update_of_ne hv _ _) hended
    (hnot.trans (h.home_not_ended (hpc ▸ hexit))) (hidle ▸ (home_ne_idle caller w w).symm)
    hleave hstands hleft
  exact ⟨m', (congrArg (Machine.swapOut _ w) hleave).symm.trans hswap, hfollows⟩

theorem Follows.yieldOut_eq (h : Follows caller p) (hw : p.entered w = true) :
    p.machine.yieldOut w = ({ p.machine with
      leaving := Function.update p.machine.leaving w (some (p.place caller w)) } :
        Machine n).swapOut w (some (p.place caller w)) := by
  simp only [Machine.yieldOut, h.yield_eq hw, Function.update_self]

/-- Without a task a worker leaves `run` behind an ended `idle_fiber`, and switches into another. -/
theorem accessAt_noTask_term {s t : State n} (hr : s.accessAt w .noTask = some (.ok t)) :
    ((s.workers w).idle = .term ∧ t = s.goto w .exited) ∨
    ((s.workers w).idle ≠ .term ∧
      t = { s with idle := s.idle + 1 }.setWorker w { s.workers w with
        idle := .exec
        pc := .idleCheck }) := by
  by_cases hterm : (s.workers w).idle = .term
  · simp only [State.accessAt, State.noTask, hterm, Option.some.injEq, Except.ok.injEq] at hr
    exact .inl ⟨hterm, hr.symm⟩
  · obtain ⟨hidle, -⟩ | ⟨-, ht⟩ := accessAt_noTask hr
    · exact (hterm hidle).elim
    · exact .inr ⟨hterm, ht⟩

/-- `run` returns; `CallerMainFunc` goes back to the thread. -/
theorem Follows.exit (h : Follows caller p) (hw : p.entered w = true)
    (hwoken : WokenOnce (p.sched.goto w .exited)) (hpositive : Positive (p.sched.goto w .exited))
    (hpc : (p.sched.workers w).pc = .noTask) :
    ∃ m', p.machine.exit caller w = .ok m' ∧
      Follows caller { p with sched := p.sched.goto w .exited, machine := m' } := by
  have hplace : p.place caller w = homeFiber caller w := by
    rw [place_of_entered hw, hpc]
    rfl
  by_cases hc : caller = some w
  · have hroot : homeFiber caller w = .root := if_pos hc
    rw [hroot] at hplace
    have hleave := h.leave_eq (w := w) fun v heq => by rw [hplace] at heq; cases heq
    have hfree : ∀ v, p.place caller v ≠ .thread w := by
      intro v hv
      cases place_eq_thread hv
      rw [hplace] at hv
      cases hv
    have hthread : (p.machine.leave w).ended (.thread w) = false := by
      rw [hleave, hplace]
      change Function.update p.machine.ended .root true (.thread w) = false
      rw [Function.update_of_ne (fun heq => by cases heq), ← Bool.not_eq_true]
      exact h.ended (.thread w)
    have hended : ∀ f, (p.machine.leave w).ended f = true →
        hasEnded caller (p.sched.goto w .exited) f := by
      intro f hf
      by_cases hfr : f = .root
      · rw [hfr]
        intro v hv
        cases Option.some.inj (hc.symm.trans hv)
        simp [State.goto]
      · rw [hleave, hplace] at hf
        change Function.update p.machine.ended .root true f = true at hf
        rw [Function.update_of_ne hfr] at hf
        exact h.still_ended (t := p.sched.goto w .exited) rfl rfl hpc (by decide) f hf
    have hfits : (p.machine.leave w).Fits p.entered (homeFiber caller) (p.place caller)
        (p.alive caller) := by
      rw [hleave]
      exact h.fits.frame _ _
    have hleaving : ∀ v, v ≠ w → (p.machine.leave w).leaving v = p.machine.leaving v := by
      intro v hv
      rw [hleave]
      exact Function.update_of_ne hv _ _
    obtain ⟨m', hswitch, hfollows⟩ := h.switch hw hwoken hpositive rfl rfl hfits hleaving hended
      (b := .thread w) hw hfree hthread rfl rfl
    refine ⟨m', ?_, hfollows⟩
    have hcur : p.machine.cur .root = some .root := by
      have hnamed := h.fits.named w
      rwa [hplace] at hnamed
    have hback : (p.machine.leave w).threadFiber w = some (.thread w) := h.fits.threadFiber w hw
    rw [hplace] at hswitch
    simp only [Machine.exit, if_pos hc, h.fits.running w, hplace, hcur, Machine.back, hback]
    exact hswitch
  · have hthread : homeFiber caller w = .thread w := if_neg hc
    refine ⟨p.machine, if_neg hc, h.stay hw hwoken hpositive rfl rfl hpc (by decide) ?_ (.inl rfl)
      (fun hidle => hidle) fun _ _ => rfl⟩
    exact hthread.symm

/-- The switch into the fiber that `swapIn` was called for. -/
theorem Follows.swapCtx (h : Follows caller p) (hw : p.entered w = true) (hwoken : WokenOnce t)
    (hpositive : Positive t) {b : Branch} {f : FiberId}
    (hpc : (p.sched.workers w).pc = .swapCtx b f)
    (hr : p.sched.accessAt w (.swapCtx b f) = some (.ok t)) :
    ∃ m', p.machine.access caller w p.sched t (.swapCtx b f) = .ok m' ∧
      Follows caller { p with sched := t, machine := m' } := by
  cases hr
  have hpcf : (p.sched.workers w).pc.fiber = some f := by rw [hpc]; rfl
  have hhome : p.place caller w = homeFiber caller w := by rw [place_of_entered hw, hpc]; rfl
  have hexec : p.sched.states f = .exec := (h.allows hpc rfl).1
  have hfree : ∀ v, p.place caller v ≠ .task f := by
    intro v hv
    cases h.place_task hpcf hv
    exact home_ne_task caller w f (hhome.symm.trans hv)
  have hnot : p.machine.ended (.task f) = false := by
    rw [← Bool.not_eq_true]
    intro htrue
    have hends : p.sched.states f = .term ∨ p.sched.states f = .except := h.ended _ htrue
    rcases hends with hx | hx <;> rw [hexec] at hx <;> cases hx
  have halive : p.alive caller (.task f) := by
    refine ⟨Nat.pos_of_ne_zero ?_, (h.woken.sound.wellFormed.workers w).fiber f hpcf⟩
    rintro rfl
    exact h.positive.pc w hpcf
  exact h.swapIn hw hwoken hpositive rfl rfl hpc rfl
    (h.still_ended rfl rfl hpc fun heq => by cases heq) halive hfree hnot rfl rfl

theorem Follows.swapOutAt (h : Follows caller p) (hw : p.entered w = true) (hwoken : WokenOnce t)
    (hpositive : Positive t) {b : Branch} {f : FiberId}
    (hpc : (p.sched.workers w).pc = .swapOut b f)
    (hr : p.sched.accessAt w (.swapOut b f) = some (.ok t)) :
    ∃ m', p.machine.access caller w p.sched t (.swapOut b f) = .ok m' ∧
      Follows caller { p with sched := t, machine := m' } := by
  cases hr
  have hplace : p.place caller w = .task f := by rw [place_of_entered hw, hpc]; rfl
  have hleave : p.machine.leaving w = some (p.place caller w) := by
    rw [hplace]
    exact h.leaving w f (by rw [hpc]; rfl)
  exact h.swapOut hw hwoken hpositive rfl rfl h.fits (fun _ _ => rfl)
    (h.still_ended rfl rfl hpc fun heq => by cases heq)
    (h.home_not_ended (by rw [hpc]; exact fun heq => by cases heq))
    (hplace ▸ (home_ne_task caller w f).symm) hleave rfl rfl

/-- `idle_fiber` is continued, or `run` returns if it has ended. -/
theorem Follows.noTask (h : Follows caller p) (hw : p.entered w = true) (hwoken : WokenOnce t)
    (hpositive : Positive t) (hpc : (p.sched.workers w).pc = .noTask)
    (hr : p.sched.accessAt w .noTask = some (.ok t)) :
    ∃ m', p.machine.access caller w p.sched t .noTask = .ok m' ∧
      Follows caller { p with sched := t, machine := m' } := by
  obtain ⟨-, rfl⟩ | ⟨hterm, rfl⟩ := accessAt_noTask_term hr
  · have hexited : ((p.sched.goto w .exited).workers w).pc = .exited := by simp [State.goto]
    simp only [Machine.access, if_pos hexited]
    exact h.exit hw hwoken hpositive hpc
  · have hnot : p.machine.ended (.idle w) = false := by
      rw [← Bool.not_eq_true]
      exact fun htrue => hterm (h.ended (.idle w) htrue)
    have hhome : p.place caller w = homeFiber caller w := by rw [place_of_entered hw, hpc]; rfl
    have hfree : ∀ v, p.place caller v ≠ .idle w := by
      intro v hv
      cases place_eq_idle hv
      exact home_ne_idle caller w w (hhome.symm.trans hv)
    have hgo : ¬ ((({ p.sched with idle := p.sched.idle + 1 } : State n).setWorker w
        { p.sched.workers w with idle := .exec, pc := .idleCheck }).workers w).pc =
          .exited := by simp
    simp only [Machine.access, if_neg hgo]
    exact h.swapIn hw hwoken hpositive rfl rfl hpc rfl
      (fun g hg => hasEnded_congr rfl (fun hidle => (hterm hidle).elim) hpc
        (fun heq => by cases heq) (fun _ _ _ => rfl) (h.ended g hg)) hw hfree hnot rfl rfl

theorem Follows.wokenAt (h : Follows caller p) (hw : p.entered w = true) (hwoken : WokenOnce t)
    (hpositive : Positive t) {pipe : Bool} (hpc : (p.sched.workers w).pc = .woken pipe)
    (hr : p.sched.accessAt w (.woken pipe) = some (.ok t)) :
    ∃ m', p.machine.access caller w p.sched t (.woken pipe) = .ok m' ∧
      Follows caller { p with sched := t, machine := m' } := by
  cases pipe <;> cases hr
  · simp only [Machine.access, h.yieldOut_eq hw]
    exact h.idleOut hw hwoken hpositive rfl rfl hpc (fun heq => by cases heq) rfl
      (h.still_ended rfl rfl hpc fun heq => by cases heq) rfl rfl rfl
  · exact ⟨_, rfl, h.stay hw hwoken hpositive rfl rfl hpc (fun heq => by cases heq) rfl
      (.inl rfl) (fun hidle => hidle) fun _ _ => rfl⟩

/-- `cb_fiber` is there already, or is made. -/
theorem Follows.prepare (h : Follows caller p) (hw : p.entered w = true) (hwoken : WokenOnce t)
    (hpositive : Positive t) {cb : Cb} (hpc : (p.sched.workers w).pc = .prepare cb)
    (hr : p.sched.accessAt w (.prepare cb) = some (.ok t)) :
    ∃ m', p.machine.access caller w p.sched t (.prepare cb) = .ok m' ∧
      Follows caller { p with sched := t, machine := m' } := by
  obtain ⟨hnone, rfl⟩ | ⟨f, hsome, -, rfl⟩ := accessAt_prepare hr
  · simp only [Machine.access, hnone]
    refine ⟨_, rfl, h.make hw hwoken hpositive rfl (fun g hg => ?_) hpc
      (fun heq => by cases heq) rfl rfl (fun hidle => hidle) fun g hg => ?_⟩
    · exact Nat.le_succ_iff.mp hg
    · exact Function.update_of_ne hg _ _
  · simp only [Machine.access, hsome]
    exact ⟨_, rfl, h.stay hw hwoken hpositive rfl rfl hpc (fun heq => by cases heq) rfl
      (.inl rfl) (fun hidle => hidle) fun _ _ => rfl⟩

theorem Follows.scan (h : Follows caller p) (hw : p.entered w = true) (hwoken : WokenOnce t)
    (hpositive : Positive t) (hpc : (p.sched.workers w).pc = .scan)
    (hr : p.sched.accessAt w .scan = some (.ok t)) :
    ∃ m', p.machine.access caller w p.sched t .scan = .ok m' ∧
      Follows caller { p with sched := t, machine := m' } := by
  obtain ⟨u, hu, hscan⟩ := scan_scans p.sched w h.woken.sound.conserves.queue_nonEmpty
  cases hu.symm.trans (Option.some.inj hr)
  refine ⟨_, rfl, ?_⟩
  cases hscan with
  | nothing tickle hnone htickle =>
      exact h.stay hw hwoken hpositive rfl rfl hpc (fun heq => by cases heq) rfl
        (.inl rfl) (fun hidle => hidle) fun _ _ => rfl
  | took tickle pre post e pc' hqueue hpre he hstart =>
      cases hstart <;> exact h.stay hw hwoken hpositive rfl rfl hpc (fun heq => by cases heq)
        rfl (.inl rfl) (fun hidle => hidle) fun _ _ => rfl

theorem Follows.requeue (h : Follows caller p) (hw : p.entered w = true) (hwoken : WokenOnce t)
    (hpositive : Positive t) {b : Branch} {f : FiberId}
    (hpc : (p.sched.workers w).pc = .requeue b f)
    (hr : p.sched.accessAt w (.requeue b f) = some (.ok t)) :
    ∃ m', p.machine.access caller w p.sched t (.requeue b f) = .ok m' ∧
      Follows caller { p with sched := t, machine := m' } := by
  cases hr
  refine ⟨_, rfl, ?_⟩
  have hstep : p.sched.requeue w b f = (p.sched.push [⟨some f, none, -1⟩]).setWorker w
      { p.sched.workers w with
        pc := .scan
        cbFiber := dropFiber b (p.sched.workers w).cbFiber
        tickle := needTickle (decide (p.sched.queue = [])) } := by
    rw [State.requeue, requeue_eq]
  rw [hstep] at hwoken hpositive ⊢
  exact h.stay hw hwoken hpositive rfl rfl hpc (fun heq => by cases heq) rfl
    (.inl rfl) (fun hidle => hidle) fun _ _ => rfl

/-- An access of `run`, with what it switches. -/
theorem Follows.access (h : Follows caller p) (hw : p.entered w = true) (hwoken : WokenOnce t)
    (hr : p.sched.accessAt w (p.sched.workers w).pc = some (.ok t)) :
    ∃ m', p.machine.access caller w p.sched t (p.sched.workers w).pc = .ok m' ∧
      Follows caller { p with sched := t, machine := m' } := by
  have hpositive := h.positive.accessAt h.woken.sound.conserves hr
  cases hpc : (p.sched.workers w).pc <;> rw [hpc] at hr
  case running b f => cases hr
  case idleCheck => cases hr
  case blocked => cases hr
  case exited => cases hr
  -- the steps that switch
  case swapCtx b f => exact h.swapCtx hw hwoken hpositive hpc hr
  case swapOut b f => exact h.swapOutAt hw hwoken hpositive hpc hr
  case noTask => exact h.noTask hw hwoken hpositive hpc hr
  case woken pipe => exact h.wokenAt hw hwoken hpositive hpc hr
  -- the steps that make a context
  case prepare cb => exact h.prepare hw hwoken hpositive hpc hr
  case prepareWrite cb f =>
    cases hr
    refine ⟨_, rfl, h.make hw hwoken hpositive rfl (fun g hg => .inl hg) hpc
      (fun heq => by cases heq) rfl rfl (fun hidle => hidle) fun g hg => ?_⟩
    exact Function.update_of_ne hg _ _
  case recycleWrite f =>
    cases hr
    refine ⟨_, rfl, h.make hw hwoken hpositive rfl (fun g hg => .inl hg) hpc
      (fun heq => by cases heq) rfl rfl (fun hidle => hidle) fun g hg => ?_⟩
    exact Function.update_of_ne hg _ _
  -- the steps that switch nothing
  case scan => exact h.scan hw hwoken hpositive hpc hr
  case requeue b f => exact h.requeue hw hwoken hpositive hpc hr
  case swapAssert b f =>
    obtain ⟨-, rfl⟩ := accessAt_swapAssert hr
    exact ⟨_, rfl, h.stay hw hwoken hpositive rfl rfl hpc (fun heq => by cases heq) rfl
      (.inl rfl) (fun hidle => hidle) fun _ _ => rfl⟩
  case recycle f =>
    obtain ⟨-, rfl⟩ := accessAt_recycle hr
    exact ⟨_, rfl, h.stay hw hwoken hpositive rfl rfl hpc (fun heq => by cases heq) rfl
      (.inl rfl) (fun hidle => hidle) fun _ _ => rfl⟩
  case idleDec =>
    cases hr
    refine ⟨_, rfl, h.stay hw hwoken hpositive rfl rfl hpc (fun heq => by cases heq) rfl
      (.inl rfl) (fun hidle => ?_) fun _ _ => rfl⟩
    simp only [hidle]
    rfl
  case deadDec f | decActive b f =>
    cases hr
    exact ⟨_, rfl, h.stay hw hwoken hpositive rfl rfl hpc (fun heq => by cases heq) rfl
      (.inl rfl) (fun hidle => hidle) fun _ _ => rfl⟩
  -- loads that choose the next access
  case checkTerm f | checkExcept f =>
    cases hr
    refine ⟨_, rfl, h.stay hw hwoken hpositive rfl rfl hpc (fun heq => by cases heq) ?_
      (.inl ?_) (fun hidle => hidle) fun _ _ => rfl⟩ <;> dsimp only <;> split <;> rfl
  case postReady b f | post1 b f | post2 b f =>
    cases hr
    refine ⟨_, rfl, h.stay hw hwoken hpositive rfl rfl hpc (fun heq => by cases heq) ?_
      (.inl ?_) (fun hidle => hidle) fun _ _ => rfl⟩ <;> cases b <;> dsimp only <;> split <;> rfl
  -- stores to a fiber that has not ended
  case swapExec b f =>
    cases hr
    have hallows := (h.allows hpc rfl).2
    refine ⟨_, rfl, h.stay hw hwoken hpositive rfl rfl hpc (fun heq => by cases heq) rfl
      (.inl rfl) (fun hidle => hidle) (update_states ?_)⟩
    rcases hallows with hx | hx | hx <;> rw [hx] <;> decide
  case yieldReady b f =>
    cases hr
    have hexec : p.sched.states f = .exec := (h.allows hpc rfl).1
    refine ⟨_, rfl, h.stay hw hwoken hpositive rfl rfl hpc (fun heq => by cases heq) rfl
      (.inr rfl) (fun hidle => hidle) (update_states ?_)⟩
    rw [hexec]
    decide
  case writeHold b f =>
    cases hr
    have hexec : p.sched.states f = .exec := h.allows hpc rfl
    refine ⟨_, rfl, h.stay hw hwoken hpositive rfl rfl hpc (fun heq => by cases heq) rfl
      (.inl rfl) (fun hidle => hidle) (update_states ?_)⟩
    rw [hexec]
    decide

/-! ### The other steps of a worker -/

theorem Follows.leaveOut_eq (h : Follows caller p) (hplace : ∀ v, p.place caller w ≠ .thread v) :
    p.machine.leaveOut w = ({ p.machine with
      ended := Function.update p.machine.ended (p.place caller w) true
      leaving := Function.update p.machine.leaving w (some (p.place caller w)) } :
        Machine n).swapOut w (some (p.place caller w)) := by
  simp only [Machine.leaveOut, h.leave_eq hplace, Function.update_self]

/-- A worker that stays on its stack notes which fiber it leaves. -/
theorem Follows.record (h : Follows caller p) (hw : p.entered w = true) (hwoken : WokenOnce t)
    (hpositive : Positive t) (hworkers : t.workers = Function.update p.sched.workers w x)
    (hlast : t.lastFiber = p.sched.lastFiber)
    (hplace : p.place caller w = standsOn caller w x.pc) {ended : Fiber n → Bool}
    (hleft : ∀ f, leavingOf x.pc = some f → p.place caller w = .task f)
    (hended : ∀ f, ended f = true → hasEnded caller t f) :
    Follows caller { p with
      sched := t
      machine := { p.machine with
        ended := ended
        leaving := Function.update p.machine.leaving w (some (p.place caller w)) } } := by
  refine h.next hw hwoken hpositive hworkers ?_ (fun v hv => Function.update_of_ne hv _ _)
    (fun f hf => ?_) hended
  · rw [← hplace, Function.update_eq_self]
    exact (h.fits.frame _ _).mono (alive_of_le hlast)
  · exact (Function.update_self ..).trans (congrArg some (hleft f hf))

theorem Follows.fiberOp (h : Follows caller p) (hw : p.entered w = true) (hwoken : WokenOnce t)
    {b : Branch} {f : FiberId} (hpc : (p.sched.workers w).pc = .running b f) {fop : FiberOp}
    (hr : p.sched.fiberOp w b f fop = some (.ok t)) :
    Follows caller { p with sched := t, machine := p.machine.fiberOp w fop } := by
  have hplace : p.place caller w = .task f := by rw [place_of_entered hw, hpc]; rfl
  have hexec : ¬ (p.sched.states f = .term ∨ p.sched.states f = .except) := by
    have hallows : p.sched.states f = .exec := h.allows hpc rfl
    rw [hallows]
    decide
  unfold State.fiberOp at hr
  split at hr
  · cases hr
  · cases fop with
    | register =>
        cases hr
        exact h.stay hw hwoken ⟨h.positive.queue, h.positive.pc, h.positive.cbFiber⟩
          (Function.update_eq_self ..).symm rfl hpc (fun heq => by cases heq) (by rw [hpc])
          (.inr (by rw [hpc])) (fun hidle => hidle) fun _ _ => rfl
    | yieldToReady | yieldToHold =>
        simp only [State.runFiber, Option.some.injEq] at hr
        split at hr <;> cases hr
        simp only [Machine.fiberOp, h.yield_eq hw]
        refine h.record hw hwoken (h.positive.goto rfl rfl hpc (.inl rfl) (.inl rfl)) rfl rfl
          hplace (fun g hg => ?_) (h.still_ended rfl rfl hpc fun heq => by cases heq)
        cases hg
        exact hplace
    | finish | throw =>
        cases hr
        have hleave := h.leave_eq (w := w) fun v heq => by rw [hplace] at heq; cases heq
        simp only [Machine.fiberOp, hleave]
        refine h.record hw hwoken (h.positive.goto rfl rfl hpc (.inl rfl) (.inl rfl)) rfl rfl
          hplace (fun g hg => ?_) fun g hg => ?_
        · cases hg
          exact hplace
        · by_cases hgf : g = .task f
          · subst hgf
            simp [hasEnded, State.goto, State.setState, State.setWorker]
          · rw [hplace, Function.update_of_ne hgf] at hg
            exact hasEnded_congr (x := { p.sched.workers w with pc := .swapOut b f }) rfl
              (fun hidle => hidle) hpc (fun heq => by cases heq)
              (fun i _ => update_states hexec i) (h.ended g hg)

theorem Follows.idleCheck (h : Follows caller p) (hw : p.entered w = true) (k : Kind)
    (quiet : Bool) (hpc : (p.sched.workers w).pc = .idleCheck)
    (hwoken : WokenOnce (p.sched.idleCheck k w quiet)) :
    ∃ m', p.machine.idleCheck k w quiet p.sched = .ok m' ∧
      Follows caller { p with sched := p.sched.idleCheck k w quiet, machine := m' } := by
  have hplace : p.place caller w = .idle w := by rw [place_of_entered hw, hpc]; rfl
  revert hwoken
  unfold State.idleCheck Machine.idleCheck
  split
  · intro hwoken
    have hleave := h.leaveOut_eq (w := w) fun v heq => by rw [hplace] at heq; cases heq
    rw [hleave]
    have hne : homeFiber caller w ≠ p.place caller w := hplace ▸ home_ne_idle caller w w
    refine h.idleOut hw hwoken (h.positive.goto rfl rfl hpc (.inr rfl) (.inl rfl)) rfl rfl hpc
      (fun heq => by cases heq) rfl (fun g hg => ?_) (Function.update_of_ne hne _ _) rfl rfl
    by_cases hgi : g = .idle w
    · subst hgi
      simp [hasEnded]
    · rw [hplace, Function.update_of_ne hgi] at hg
      exact hasEnded_congr (x := { p.sched.workers w with idle := .term, pc := .idleDec }) rfl
        (fun _ => rfl) hpc (fun heq => by cases heq) (fun _ _ _ => rfl) (h.ended g hg)
  · cases k with
    | base =>
        intro hwoken
        rw [h.yieldOut_eq hw]
        exact h.idleOut hw hwoken (h.positive.goto rfl rfl hpc (.inr rfl) (.inl rfl)) rfl rfl
          hpc (fun heq => by cases heq) rfl
          (h.still_ended rfl rfl hpc fun heq => by cases heq) rfl rfl rfl
    | io =>
        intro hwoken
        exact ⟨_, rfl, h.stay hw hwoken (h.positive.goto rfl rfl hpc (.inr rfl) (.inl rfl)) rfl
          rfl hpc (fun heq => by cases heq) rfl (.inl rfl) (fun hidle => hidle) fun _ _ => rfl⟩

/-! ## Steps that no worker switches in -/

/-- Workers that stand where they stood, with the same fibers or one more. -/
theorem Follows.still (h : Follows caller p) (hwoken : WokenOnce t) (hpositive : Positive t)
    (hpc : ∀ v, (t.workers v).pc = (p.sched.workers v).pc)
    (hfits : m.Fits p.entered (homeFiber caller) (p.place caller)
      (({ p with sched := t, machine := m } : Switched n).alive caller))
    (hleaving : m.leaving = p.machine.leaving)
    (hended : ∀ f, m.ended f = true → hasEnded caller t f) :
    Follows caller { p with sched := t, machine := m } where
  woken := hwoken
  positive := hpositive
  fits := by
    have hplace : ({ p with sched := t, machine := m } : Switched n).place caller =
        p.place caller := by
      funext v
      simp only [Switched.place, hpc v]
    rw [hplace]
    exact hfits
  waiting := fun v hv => (hpc v).trans (h.waiting v hv)
  leaving := by
    intro v f hv
    rw [hleaving]
    exact h.leaving v f (hpc v ▸ hv)
  ended := hended

theorem hasEnded_same {s t : State n} (hpc : ∀ v, (t.workers v).pc = (s.workers v).pc)
    (hidle : ∀ v, (t.workers v).idle = (s.workers v).idle) {f : Fiber n}
    (hstates : ∀ g, f = .task g → t.states g = s.states g) (hf : hasEnded caller s f) :
    hasEnded caller t f := by
  cases f with
  | thread v => exact hf
  | root => exact fun v hv => (hpc v).trans (hf v hv)
  | idle v => exact (hidle v).trans hf
  | task f =>
      change t.states f = .term ∨ t.states f = .except
      rw [hstates f rfl]
      exact hf

theorem Follows.notify (h : Follows caller p) (hwoken : WokenOnce t)
    (ht : Notifies p.sched t) :
    Follows caller { p with sched := t, machine := p.machine } :=
  h.still hwoken (h.positive.notifies ht) ht.pc (h.fits.mono (alive_of_le ht.lastFiber)) rfl
    fun f hf => hasEnded_same ht.pc ht.idle (fun g _ => congrFun ht.states g) (h.ended f hf)

theorem Follows.call (h : Follows caller p) (hwoken : WokenOnce t) {c : Call}
    (hc : c.enabled p.sched) (ht : Notifies (p.sched.call c).2 t) :
    Follows caller { p with sched := t, machine := p.machine.creates t c } := by
  have hpositive : Positive t := (h.positive.call hc).notifies ht
  have hworkers : ((p.sched.call c).2).workers = p.sched.workers := call_workers p.sched c
  have hpc : ∀ v, (t.workers v).pc = (p.sched.workers v).pc :=
    fun v => (ht.pc v).trans (by rw [hworkers])
  have hidle : ∀ v, (t.workers v).idle = (p.sched.workers v).idle :=
    fun v => (ht.idle v).trans (by rw [hworkers])
  have hlast : t.lastFiber = (p.sched.settle c).lastFiber :=
    ht.lastFiber.trans (by rw [call_eq]; rfl)
  have hstates : t.states = (p.sched.settle c).states := ht.states.trans (by rw [call_eq]; rfl)
  cases c with
  | newFiber cb =>
      have hnew : t.lastFiber = p.sched.lastFiber + 1 := hlast
      refine h.still hwoken hpositive hpc (h.fits.makecontext fun f hf => ?_) rfl fun f hf => ?_
      · cases f with
        | task f =>
            have hle : 0 < f ∧ f ≤ t.lastFiber := hf
            rw [hnew] at hle ⊢
            exact (Nat.le_succ_iff.mp hle.2).imp (fun hold => ⟨hle.1, hold⟩) (congrArg Fiber.task)
        | _ => exact .inl hf
      · have hne : f ≠ .task t.lastFiber := by
          rintro rfl
          simp only [Machine.creates, Machine.makecontext_self] at hf
          cases hf
        refine hasEnded_same hpc hidle (fun g hg => ?_) (h.ended f (Machine.makecontext_ended hf))
        rw [hstates]
        refine Function.update_of_ne (fun heq => hne ?_) _ _
        rw [hg, hnew, heq]
  | schedule _ _ | scheduleAll _ | fire _ | tickle =>
      exact h.still hwoken hpositive hpc (h.fits.mono (alive_of_le hlast)) rfl
        fun f hf => hasEnded_same hpc hidle (fun g _ => congrFun hstates g) (h.ended f hf)

/-- A worker blocks in `epoll_wait` and returns. -/
theorem Follows.wake (h : Follows caller p) (hw : p.entered w = true) (pipe : Bool)
    (hpc : (p.sched.workers w).pc = .blocked) (hwoken : WokenOnce (p.sched.goto w (.woken pipe))) :
    Follows caller { p with sched := p.sched.goto w (.woken pipe), machine := p.machine } :=
  h.stay hw hwoken (h.positive.goto rfl rfl hpc (.inr rfl) (.inl rfl)) rfl rfl hpc
    (fun heq => by cases heq) rfl (.inl rfl) (fun hidle => hidle) fun _ _ => rfl

theorem Follows.enter (h : Follows caller p) (hw : p.entered w = false) :
    ∃ m', p.machine.enter caller w = .ok m' ∧
      Follows caller { p with machine := m', entered := Function.update p.entered w true } := by
  have hroot : caller = some w → ∀ v, p.place caller v ≠ .root := by
    intro hc v hv
    cases Option.some.inj (hc.symm.trans (place_eq_root hv))
    rw [place_of_not_entered hw] at hv
    cases hv
  let q : Switched n := { p with entered := Function.update p.entered w true }
  have hentered : ∀ v, q.entered v = true → p.entered v = true ∨ v = w := by
    intro v hv
    by_cases hvw : v = w
    · exact .inr hvw
    · exact .inl ((Function.update_of_ne hvw _ _).symm.trans hv)
  have halive : ∀ f, q.alive caller f →
      p.alive caller f ∨ f = .thread w ∨ f = .idle w ∨ f = homeFiber caller w := by
    intro f hf
    cases f with
    | thread v => exact (hentered v hf).imp_right fun heq => .inl (congrArg Fiber.thread heq)
    | idle v =>
        exact (hentered v hf).imp_right fun heq => .inr (.inl (congrArg Fiber.idle heq))
    | root =>
        obtain ⟨v, hc, hv⟩ := hf
        rcases hentered v hv with hold | rfl
        · exact .inl ⟨v, hc, hold⟩
        · exact .inr (.inr (.inr (if_pos hc).symm))
    | task f => exact .inl hf
  obtain ⟨m', hm', hfits, hended, hleaving⟩ :=
    h.fits.enter hw (place_of_not_entered hw) hroot halive
  refine ⟨m', hm', h.woken, h.positive, ?_, fun v hv => ?_, fun v f hv => ?_,
    fun f hf => h.ended f (hended f hf)⟩
  · have hplace : ({ q with machine := m' } : Switched n).place caller =
        Function.update (p.place caller) w (homeFiber caller w) := by
      funext v
      by_cases hvw : v = w
      · rw [hvw, Function.update_self, place_of_entered (Function.update_self ..)]
        exact congrArg (standsOn caller w) (h.waiting w hw)
      · rw [Function.update_of_ne hvw]
        simp only [Switched.place, q, Function.update_of_ne hvw]
    rw [hplace]
    exact hfits
  · have hvw : v ≠ w := by
      rintro rfl
      exact absurd ((Function.update_self ..).symm.trans hv) (by decide)
    exact h.waiting v ((Function.update_of_ne hvw _ _).symm.trans hv)
  · exact (congrFun hleaving v).trans (h.leaving v f hv)

end Steps

/-! ## Every run -/

theorem follows_init (caller : Option (Fin n)) : Follows caller (.init n) where
  woken := ⟨sound_init n, handedOff_init n, accounted_init n⟩
  positive := positive_init n
  fits := by
    refine ⟨fun w => rfl, fun w hw => ?_, fun w hw => ?_, fun w hw => ?_, fun w _ => rfl,
      fun w => trivial, fun f hf hout => ?_⟩
    · cases hw
    · cases hw
    · cases hw
    · cases f with
      | thread w => cases hf
      | idle w => cases hf
      | root =>
          obtain ⟨w, -, hw⟩ := hf
          cases hw
      | task f => exact absurd hf.1 (Nat.not_lt.mpr hf.2)
  waiting := fun w _ => rfl
  leaving := by
    intro w f hf
    cases hf
  ended := by
    intro f hf
    cases hf

section Runs

variable {p : Switched n} {t : State n}

theorem Follows.act (h : Follows caller p) {a : Scheduler.Action n}
    (hactor : ∀ w ∈ actor a, p.entered w = true) (hwoken : WokenOnce t)
    (hr : Scheduler.op k p.sched a = some (.ok t)) :
    ∃ m, p.machine.next k caller p.sched t a = .ok m ∧
      Follows caller { p with sched := t, machine := m } := by
  cases a with
  | outside i c =>
      simp only [Scheduler.op] at hr
      split at hr <;> cases hr
      rename_i hen
      exact ⟨_, rfl, h.call hwoken hen.2 (notifies_outside _ _)⟩
  | outsideTickle i =>
      simp only [Scheduler.op] at hr
      split at hr <;> cases hr
      exact ⟨_, rfl, h.notify hwoken ((notifies_tickleStep _ k _).trans (notifies_outside _ _))⟩
  | start | autoStop | stop =>
      cases hr
      exact ⟨_, rfl, h.notify hwoken
        ⟨rfl, rfl, rfl, rfl, rfl, rfl, rfl, rfl, rfl, rfl, fun _ => rfl⟩⟩
  | worker w =>
      have hw : p.entered w = true := hactor w rfl
      simp only [Scheduler.op] at hr
      simp only [Machine.next]
      split at hr
      · rename_i htickle
        rw [if_pos htickle]
        exact h.access hw hwoken hr
      · rename_i htickle
        rw [if_neg htickle]
        cases hr
        refine ⟨_, rfl, h.notify hwoken
          ((notifies_tickleStep _ k (p.sched.workers w).tickle).trans ?_)⟩
        have hset := notifies_setWorker (p.sched.tickleStep k (p.sched.workers w).tickle).1 w
          (p.sched.tickleStep k (p.sched.workers w).tickle).2
        rwa [tickleStep_workers] at hset
  | call w c =>
      simp only [Scheduler.op] at hr
      split at hr <;> cases hr
      rename_i hen
      have hset := notifies_setWorker (p.sched.call c).2 w (needTickle (p.sched.call c).1)
      rw [call_workers] at hset
      exact ⟨_, rfl, h.call hwoken hen.2.2 hset⟩
  | fiber w fop =>
      simp only [Scheduler.op] at hr
      split at hr
      · rename_i b f hpc
        split at hr
        · exact ⟨_, rfl, h.fiberOp (hactor w rfl) hwoken hpc hr⟩
        · cases hr
      · cases hr
  | idleCheck w quiet =>
      simp only [Scheduler.op] at hr
      split at hr <;> cases hr
      rename_i hpc
      exact h.idleCheck (hactor w rfl) k quiet hpc.1 hwoken
  | wake w pipe =>
      simp only [Scheduler.op] at hr
      split at hr <;> cases hr
      rename_i hpc
      exact ⟨_, rfl, h.wake (hactor w rfl) pipe hpc.1 hwoken⟩

theorem op_follows (p : Switched n) (a : Action n) (r : Except (Fault ⊕ Crash) (Switched n))
    (h : Follows caller p) (ha : Allowed p a) (hr : op k caller p a = some r) :
    Holds (Follows caller) (fun _ => False) r := by
  cases a with
  | enter w =>
      simp only [op] at hr
      split at hr
      · cases hr
      · rename_i hw
        obtain ⟨m, hm, hfollows⟩ := h.enter (Bool.not_eq_true _ ▸ hw)
        rw [hm] at hr
        cases hr
        exact hfollows
  | act a =>
      simp only [op] at hr
      split at hr
      · rename_i hactor
        obtain ⟨r', hr', rfl⟩ := Option.map_eq_some_iff.mp hr
        have hwoken := op_wokenOnce p.sched a r' h.woken ha hr'
        cases r' with
        | error e => exact hwoken.elim
        | ok t =>
            obtain ⟨m, hm, hfollows⟩ := h.act hactor hwoken hr'
            simp only [Switched.follow, hm]
            exact hfollows
      · cases hr

theorem Follows.place_injective (h : Follows caller p) {v w : Fin n}
    (hvw : p.place caller v = p.place caller w) : v = w := by
  rcases place_cases p caller w with hw | ⟨hc, hw⟩ | hw | ⟨f, hf, hw⟩ <;> rw [hw] at hvw
  · exact place_eq_thread hvw
  · exact Option.some.inj ((place_eq_root hvw).symm.trans hc)
  · exact place_eq_idle hvw
  · exact h.place_task hf hvw

/-- With one outstanding wake-up per fiber no assertion fails and no switch goes wrong: a worker
executes on the fiber that its place in `run` says and that `t_fiber` points to, no two threads
execute on one stack, and every suspended fiber is continued where it was left. -/
theorem stacks_followed {r : Except (Fault ⊕ Crash) (Switched n)}
    (h : Reaches (step k caller) (onOk Allowed) (.ok (.init n)) r) : ∃ p, r = .ok p ∧
      (∀ w, p.entered w = true →
        p.machine.running w = standsOn caller w (p.sched.workers w).pc ∧
          p.machine.thisFiber w = some (p.machine.running w)) ∧
      (∀ v w, p.machine.running v = p.machine.running w → v = w) ∧
      ∀ f, p.alive caller f → (∀ w, p.machine.running w ≠ f) → p.machine.Resumes f := by
  have hinv := h.invariant (preserves_abortable op_follows) (follows_init caller)
  cases r with
  | error e => exact hinv.elim
  | ok p =>
      have hp : Follows caller p := hinv
      refine ⟨p, rfl, fun w hw => ?_, fun v w hvw => ?_, fun f hf hout => ?_⟩
      · have hrunning : p.machine.running w = standsOn caller w (p.sched.workers w).pc :=
          (hp.fits.running w).trans (place_of_entered hw)
        exact ⟨hrunning, (hp.fits.thisFiber w hw).trans (congrArg some (hp.fits.running w).symm)⟩
      · rw [hp.fits.running v, hp.fits.running w] at hvw
        exact hp.place_injective hvw
      · exact hp.fits.resumes f hf fun w hw => hout w ((hp.fits.running w).trans hw)

/-- A fiber yields on the caller's thread and goes on on the other one. -/
def migratingRun : List (Action 2) :=
  [.enter 1, .enter 0, .act (.outside 0 (.newFiber (some 5))),
    .act (.outside 0 (.schedule (.fiber (some 1)) (-1)))] ++
  List.replicate 6 (.act (.worker 0)) ++ [.act (.fiber 0 .yieldToReady)] ++
  List.replicate 5 (.act (.worker 0)) ++ List.replicate 6 (.act (.worker 1))

theorem stacks_followed_sample :
    ∃ p, checkedRun (step .base (some 0)) (fun s a => decide (onOk Allowed s a)) (.ok (.init 2))
        migratingRun = some (.ok p) ∧
      (p.sched.workers 1).pc = .running .fiber 1 ∧ p.machine.running 1 = .task 1 ∧
      p.machine.running 0 = .root := by
  have hrun : (checkedRun (step .base (some 0)) (fun s a => decide (onOk Allowed s a))
      (.ok (.init 2)) migratingRun).any (okAnd fun p => decide (
        (p.entered 0 = true ∧ p.entered 1 = true) ∧ (p.sched.workers 0).pc = .scan ∧
          (p.sched.workers 1).pc = .running .fiber 1)) = true := by decide +kernel
  obtain ⟨p, hp, hentered, hpc₀, hpc₁⟩ := exists_ok_of_any hrun
  obtain ⟨q, hq, hstands, -⟩ := stacks_followed (.of_decidedRun hp)
  cases hq
  refine ⟨p, hp, hpc₁, ?_, ?_⟩
  · rw [(hstands 1 hentered.2).1, hpc₁]
    rfl
  · rw [(hstands 0 hentered.1).1, hpc₀]
    rfl

end Runs

end Sylar.Switch
