import Sylar.Scheduler.Task

/-! # Switching stacks

What `swapcontext` does to a thread, and the functions of `Fiber` that call it. A fiber stands
for its stack, and the fiber that `GetThis` creates for a thread for the stack of the thread. A
saved context names a stack and how often that stack had been continued, so that an outdated
context can be told from the last one.
-/

namespace Sylar.Switch

variable {n : Nat}

/-! ## Fibers and contexts -/

/-- The fiber that `GetThis` creates for a thread, `m_rootFiber`, the `idle_fiber` of a `run`, and
the fibers of tasks. -/
inductive Fiber (n : Nat) where
  | thread (w : Fin n)
  | root
  | idle (w : Fin n)
  | task (f : FiberId)
  deriving DecidableEq, Repr

/-- What `m_ctx` holds: the entry that `makecontext` made, or where a stack was left. -/
inductive Context (n : Nat) where
  | entry (f : Fiber n)
  | saved (f : Fiber n) (position : Nat)
  deriving DecidableEq, Repr

/-- Switches that do not continue a stack where it was left. -/
inductive Crash where
  /-- through a null pointer -/
  | null
  /-- to a context that nothing was stored in -/
  | unmade
  /-- to a stack that another thread executes on -/
  | busy
  /-- to a place that the stack has left since -/
  | stale
  /-- into the assertion behind the last switch of `MainFunc` -/
  | ended
  deriving DecidableEq, Repr

/-- The stacks of the threads, the contexts, and the thread-local pointers `t_fiber`,
`t_threadFiber` and `t_scheduler_fiber`. On the stack of a fiber stands the local `cur` of its
`MainFunc`, and `ended` says that `m_cb` is left; `leaving` is the fiber whose `swapOut()` the
code of a thread is about to call. -/
structure Machine (n : Nat) where
  running : Fin n → Fiber n
  position : Fiber n → Nat
  ctx : Fiber n → Option (Context n)
  thisFiber : Fin n → Option (Fiber n)
  threadFiber : Fin n → Option (Fiber n)
  schedulerFiber : Fin n → Option (Fiber n)
  cur : Fiber n → Option (Fiber n)
  ended : Fiber n → Bool
  leaving : Fin n → Option (Fiber n)

/-- Threads that have not used a fiber. -/
def Machine.blank (n : Nat) : Machine n where
  running := .thread
  position := fun _ => 0
  ctx := fun _ => none
  thisFiber := fun _ => none
  threadFiber := fun _ => none
  schedulerFiber := fun _ => none
  cur := fun _ => none
  ended := fun _ => false
  leaving := fun _ => none

/-! ## `ucontext` -/

def Machine.busy (m : Machine n) (w : Fin n) (f : Fiber n) : Prop := ∃ v, v ≠ w ∧ m.running v = f

instance (m : Machine n) (w : Fin n) (f : Fiber n) : Decidable (m.busy w f) :=
  inferInstanceAs (Decidable (∃ _, _ ∧ _))

/-- `getcontext` and `makecontext` of a new or a reset fiber. -/
def Machine.makecontext (m : Machine n) (f : Fiber n) : Machine n :=
  { m with
    ctx := Function.update m.ctx f (some (.entry f))
    ended := Function.update m.ended f false }

/-- Store where the thread stands. -/
def Machine.save (m : Machine n) (w : Fin n) (f : Fiber n) : Machine n :=
  { m with
    ctx := Function.update m.ctx f (some (.saved (m.running w) (m.position (m.running w)))) }

/-- `getcontext(&m_ctx)`, which the thread goes on behind. -/
def Machine.getcontext (m : Machine n) (w : Fin n) (f : Fiber n) : Machine n :=
  { m.save w f with
    position := Function.update m.position (m.running w) (m.position (m.running w) + 1) }

/-- Continue with a context; `MainFunc` and `CallerMainFunc` begin with `GetThis()`, which finds
`t_fiber` set. -/
def Machine.load (m : Machine n) (w : Fin n) (f : Fiber n) : Except Crash (Machine n) :=
  match m.ctx f with
  | none => .error .unmade
  | some (.entry g) =>
      if m.busy w g then .error .busy
      else
        .ok { m with
          running := Function.update m.running w g
          cur := Function.update m.cur g (m.thisFiber w) }
  | some (.saved g position) =>
      if m.busy w g then .error .busy
      else if position ≠ m.position g then .error .stale
      else if m.ended g then .error .ended
      else
        .ok { m with
          running := Function.update m.running w g
          position := Function.update m.position g (m.position g + 1) }

def Machine.swapcontext (m : Machine n) (w : Fin n) (a b : Fiber n) : Except Crash (Machine n) :=
  (m.save w a).load w b

/-! ## `Fiber` -/

def Machine.setThis (m : Machine n) (w : Fin n) (f : Option (Fiber n)) : Machine n :=
  { m with thisFiber := Function.update m.thisFiber w f }

/-- `Fiber::GetThis`: the running fiber, or a new one for the thread. -/
def Machine.getThis (m : Machine n) (w : Fin n) : Fiber n × Machine n :=
  match m.thisFiber w with
  | some f => (f, m)
  | none =>
      (.thread w, { (m.setThis w (some (.thread w))).getcontext w (.thread w) with
        threadFiber := Function.update m.threadFiber w (some (.thread w)) })

def Machine.call (m : Machine n) (w : Fin n) (f : Fiber n) : Except Crash (Machine n) :=
  match m.threadFiber w with
  | none => .error .null
  | some g => (m.setThis w (some f)).swapcontext w g f

def Machine.back (m : Machine n) (w : Fin n) (f : Fiber n) : Except Crash (Machine n) :=
  match m.threadFiber w with
  | none => .error .null
  | some g => (m.setThis w (some g)).swapcontext w f g

/-- `Fiber::swapIn`, whose switch saves to `Scheduler::GetMainFiber()`. -/
def Machine.swapIn (m : Machine n) (w : Fin n) (f : Fiber n) : Except Crash (Machine n) :=
  match m.schedulerFiber w with
  | none => .error .null
  | some g => (m.setThis w (some f)).swapcontext w g f

/-- `Fiber::swapOut` through a pointer. -/
def Machine.swapOut (m : Machine n) (w : Fin n) (f : Option (Fiber n)) :
    Except Crash (Machine n) :=
  match f, m.schedulerFiber w with
  | some f, some g => (m.setThis w (some g)).swapcontext w f g
  | _, _ => .error .null

/-- `YieldToReady` and `YieldToHold` up to their `swapOut()`. -/
def Machine.yield (m : Machine n) (w : Fin n) : Machine n :=
  let r := m.getThis w
  { r.2 with leaving := Function.update r.2.leaving w (some r.1) }

/-- `MainFunc` behind `m_cb`, returned or thrown out of, up to its `swapOut()`. -/
def Machine.leave (m : Machine n) (w : Fin n) : Machine n :=
  { m with
    ended := Function.update m.ended (m.running w) true
    leaving := Function.update m.leaving w (m.cur (m.running w)) }

/-! ## `Scheduler` -/

/-- The constructor of `Scheduler` on the thread that is to execute `run` in `m_rootFiber`. -/
def Machine.useCaller (m : Machine n) (w : Fin n) : Machine n :=
  let r := (m.getThis w).2.makecontext .root
  { r with schedulerFiber := Function.update r.schedulerFiber w (some .root) }

/-- `run` up to its loop, on a thread of the scheduler's own. -/
def Machine.beginRun (m : Machine n) (w : Fin n) : Machine n :=
  let r := m.getThis w
  ({ r.2 with
    schedulerFiber := Function.update r.2.schedulerFiber w (some r.1) }).makecontext (.idle w)

/-- A thread on its way to the loop of `run`: the caller's goes there through `m_rootFiber`, which
`stop` calls. -/
def Machine.enter (m : Machine n) (caller : Option (Fin n)) (w : Fin n) :
    Except Crash (Machine n) :=
  if caller = some w then
    ((m.useCaller w).call w .root).map fun m => m.makecontext (.idle w)
  else .ok (m.beginRun w)

/-- `run` returns: to `Thread::run`, or to `CallerMainFunc`. -/
def Machine.exit (m : Machine n) (caller : Option (Fin n)) (w : Fin n) :
    Except Crash (Machine n) :=
  if caller = some w then
    match m.cur (m.running w) with
    | none => .error .null
    | some f => (m.leave w).back w f
  else .ok m

/-! ## What a switch does -/

/-- `cur` of the stack is its own fiber; the stack of a thread has none. -/
def Machine.Named (m : Machine n) : Fiber n → Prop
  | .thread _ => True
  | f => m.cur f = some f

/-- The context of `f` is its entry, or the place where its stack was left. -/
def Machine.Resumes (m : Machine n) (f : Fiber n) : Prop :=
  m.ctx f = some (.entry f) ∨ m.ctx f = some (.saved f (m.position f)) ∧ m.Named f

/-- The threads that have `entered` a loop execute in their `place`, the fiber that their pointers
name, and every suspended fiber that is `alive` can be continued where it was left. -/
structure Machine.Fits (m : Machine n) (entered : Fin n → Bool) (home place : Fin n → Fiber n)
    (alive : Fiber n → Prop) : Prop where
  running : ∀ w, m.running w = place w
  thisFiber : ∀ w, entered w = true → m.thisFiber w = some (place w)
  threadFiber : ∀ w, entered w = true → m.threadFiber w = some (.thread w)
  schedulerFiber : ∀ w, entered w = true → m.schedulerFiber w = some (home w)
  blank : ∀ w, entered w = false → m.thisFiber w = none
  named : ∀ w, m.Named (place w)
  resumes : ∀ f, alive f → (∀ w, place w ≠ f) → m.Resumes f

variable {m : Machine n} {entered : Fin n → Bool} {home place : Fin n → Fiber n}
  {alive alive' : Fiber n → Prop} {w : Fin n} {a b : Fiber n}

theorem Machine.Named.congr {m m' : Machine n} {f : Fiber n} (h : m.Named f)
    (hcur : m'.cur f = m.cur f) : m'.Named f := by
  cases f <;> first | trivial | exact hcur.trans h

theorem Machine.Resumes.congr {m m' : Machine n} {f : Fiber n} (h : m.Resumes f)
    (hctx : m'.ctx f = m.ctx f) (hposition : m'.position f = m.position f)
    (hcur : m'.cur f = m.cur f) : m'.Resumes f := by
  rcases h with hentry | ⟨hsaved, hnamed⟩
  · exact .inl (hctx.trans hentry)
  · exact .inr ⟨by rw [hctx, hposition, hsaved], hnamed.congr hcur⟩

theorem Machine.Fits.free (h : m.Fits entered home place alive) (hb : ∀ v, v ≠ w → place v ≠ b) :
    ¬ m.busy w b := by
  rintro ⟨v, hv, hrunning⟩
  exact hb v hv ((h.running v).symm.trans hrunning)

theorem Machine.Fits.mono (h : m.Fits entered home place alive)
    (halive : ∀ f, alive' f → alive f) : m.Fits entered home place alive' :=
  ⟨h.running, h.thisFiber, h.threadFiber, h.schedulerFiber, h.blank, h.named,
    fun f hf => h.resumes f (halive f hf)⟩

/-- What is no part of the contexts or the pointers may change. -/
theorem Machine.Fits.frame (h : m.Fits entered home place alive) (ended : Fiber n → Bool)
    (leaving : Fin n → Option (Fiber n)) :
    ({ m with ended := ended, leaving := leaving } : Machine n).Fits entered home place alive :=
  ⟨h.running, h.thisFiber, h.threadFiber, h.schedulerFiber, h.blank,
    fun v => (h.named v).congr rfl, fun f hf hout => (h.resumes f hf hout).congr rfl rfl rfl⟩

/-- A context that can be continued is continued. -/
theorem Machine.Resumes.load (h : m.Resumes b) (hfree : ¬ m.busy w b) (hended : m.ended b = false)
    (hthis : m.thisFiber w = some b) :
    ∃ m', m.load w b = .ok m' ∧ m'.Named b ∧
      (∀ f, f ≠ b → m'.position f = m.position f ∧ m'.cur f = m.cur f) ∧
      m' = { m with
        running := Function.update m.running w b
        position := m'.position
        cur := m'.cur } := by
  unfold Machine.load
  rcases h with hentry | ⟨hsaved, hnamed⟩
  · rw [hentry]
    refine ⟨_, if_neg hfree, ?_, fun f hf => ⟨rfl, Function.update_of_ne hf _ _⟩, rfl⟩
    rw [hthis]
    cases b <;> first | trivial | exact Function.update_self ..
  · rw [hsaved]
    simp only [if_neg hfree, ne_eq, not_true_eq_false, if_false, hended, Bool.false_eq_true]
    exact ⟨_, rfl, hnamed.congr rfl, fun f hf => ⟨Function.update_of_ne hf _ _, rfl⟩, rfl⟩

/-- A switch from the fiber of a thread to one that is suspended. -/
theorem Machine.Fits.switch (h : m.Fits entered home place alive) (hw : entered w = true)
    (ha : place w = a) (hb : alive b) (hplace : ∀ v, place v ≠ b) (hended : m.ended b = false) :
    ∃ m', (m.setThis w (some b)).swapcontext w a b = .ok m' ∧
      m'.Fits entered home (Function.update place w b) alive ∧
      m'.ended = m.ended ∧ m'.leaving = m.leaving := by
  have hab : b ≠ a := fun heq => hplace w (ha.trans heq.symm)
  let m₁ := (m.setThis w (some b)).save w a
  have hresumes : m₁.Resumes b :=
    (h.resumes b hb hplace).congr (Function.update_of_ne hab _ _) rfl rfl
  have hfree : ¬ m₁.busy w b := h.free fun v _ => hplace v
  obtain ⟨m', hload, hnamed, hother, heq⟩ := hresumes.load hfree hended (Function.update_self ..)
  have hctx : m'.ctx = Function.update m.ctx a (some (.saved a (m.position a))) := by
    rw [heq]
    change Function.update m.ctx a (some (.saved (m.running w) (m.position (m.running w)))) = _
    rw [h.running w, ha]
  have hrunning : m'.running = Function.update m.running w b := by rw [heq]; rfl
  have hthis : m'.thisFiber = Function.update m.thisFiber w (some b) := by rw [heq]; rfl
  have hthread : m'.threadFiber = m.threadFiber := by rw [heq]; rfl
  have hscheduler : m'.schedulerFiber = m.schedulerFiber := by rw [heq]; rfl
  refine ⟨m', hload, ⟨fun v => ?_, fun v hv => ?_, fun v hv => ?_, fun v hv => ?_, fun v hv => ?_,
    fun v => ?_, fun f hf hout => ?_⟩, by rw [heq]; rfl, by rw [heq]; rfl⟩
  · rw [hrunning]
    by_cases hvw : v = w
    · rw [hvw, Function.update_self, Function.update_self]
    · rw [Function.update_of_ne hvw, Function.update_of_ne hvw]
      exact h.running v
  · rw [hthis]
    by_cases hvw : v = w
    · rw [hvw, Function.update_self, Function.update_self]
    · rw [Function.update_of_ne hvw, Function.update_of_ne hvw]
      exact h.thisFiber v hv
  · rw [hthread]
    exact h.threadFiber v hv
  · rw [hscheduler]
    exact h.schedulerFiber v hv
  · have hvw : v ≠ w := by
      rintro rfl
      rw [hw] at hv
      cases hv
    rw [hthis, Function.update_of_ne hvw]
    exact h.blank v hv
  · by_cases hvw : v = w
    · rw [hvw, Function.update_self]
      exact hnamed
    · rw [Function.update_of_ne hvw]
      exact (h.named v).congr (hother _ (hplace v)).2
  · have hfb : f ≠ b := by
      rintro rfl
      exact hout w (Function.update_self ..)
    obtain ⟨hposition, hcur⟩ := hother f hfb
    by_cases hfa : f = a
    · -- the stack that is left
      subst hfa
      refine .inr ⟨?_, (ha ▸ h.named w).congr hcur⟩
      rw [hctx, Function.update_self, hposition]
      rfl
    · have hsuspended : ∀ v, place v ≠ f := by
        intro v
        by_cases hvw : v = w
        · rw [hvw, ha]
          exact Ne.symm hfa
        · have hplacev := hout v
          rwa [Function.update_of_ne hvw] at hplacev
      refine (h.resumes f hf hsuspended).congr ?_ hposition hcur
      rw [hctx, Function.update_of_ne hfa]

/-- A new or a reset fiber can be continued at its entry. -/
theorem Machine.Fits.makecontext (h : m.Fits entered home place alive)
    (halive : ∀ f, alive' f → alive f ∨ f = b) :
    (m.makecontext b).Fits entered home place alive' where
  running := h.running
  thisFiber := h.thisFiber
  threadFiber := h.threadFiber
  schedulerFiber := h.schedulerFiber
  blank := h.blank
  named := fun v => (h.named v).congr rfl
  resumes := by
    intro f hf hout
    by_cases hfb : f = b
    · rw [hfb]
      exact .inl (Function.update_self ..)
    · have hold := (halive f hf).resolve_right hfb
      exact (h.resumes f hold hout).congr (Function.update_of_ne hfb _ _) rfl rfl

theorem Machine.makecontext_self (m : Machine n) (b : Fiber n) :
    (m.makecontext b).ended b = false := by
  simp only [Machine.makecontext, Function.update_self]

theorem Machine.makecontext_ended {f : Fiber n} (hf : (m.makecontext b).ended f = true) :
    m.ended f = true := by
  by_cases hfb : f = b
  · rw [hfb, m.makecontext_self] at hf
    cases hf
  · exact (Function.update_of_ne hfb _ _).symm.trans hf

theorem getThis_ended (m : Machine n) (w : Fin n) : (m.getThis w).2.ended = m.ended := by
  unfold Machine.getThis
  split <;> rfl

theorem getThis_leaving (m : Machine n) (w : Fin n) : (m.getThis w).2.leaving = m.leaving := by
  unfold Machine.getThis
  split <;> rfl

/-! ### Entering a loop -/

/-- `m_rootFiber` on the caller's thread, and the fiber of the thread elsewhere. -/
def homeFiber (caller : Option (Fin n)) (w : Fin n) : Fiber n :=
  if caller = some w then .root else .thread w

theorem Machine.Fits.begin (h : m.Fits entered home place alive) (hw : entered w = false)
    (hplace : place w = .thread w) (halive : ∀ f, alive' f → alive f ∨ f = .thread w) :
    ({ (m.getThis w).2 with
      schedulerFiber := Function.update m.schedulerFiber w (some (home w)) }).Fits
      (Function.update entered w true) home place alive' := by
  have hrunning : m.running w = .thread w := (h.running w).trans hplace
  have hentered : ∀ v, v ≠ w → Function.update entered w true v = true → entered v = true := by
    intro v hvw hv
    rwa [Function.update_of_ne hvw] at hv
  simp only [Machine.getThis, h.blank w hw]
  refine ⟨h.running, fun v hv => ?_, fun v hv => ?_, fun v hv => ?_, fun v hv => ?_,
    fun v => (h.named v).congr rfl, fun f hf hout => ?_⟩
  · change Function.update m.thisFiber w (some (.thread w)) v = _
    by_cases hvw : v = w
    · rw [hvw, Function.update_self, hplace]
    · rw [Function.update_of_ne hvw]
      exact h.thisFiber v (hentered v hvw hv)
  · change Function.update m.threadFiber w (some (.thread w)) v = _
    by_cases hvw : v = w
    · rw [hvw, Function.update_self]
    · rw [Function.update_of_ne hvw]
      exact h.threadFiber v (hentered v hvw hv)
  · change Function.update m.schedulerFiber w (some (home w)) v = _
    by_cases hvw : v = w
    · rw [hvw, Function.update_self]
    · rw [Function.update_of_ne hvw]
      exact h.schedulerFiber v (hentered v hvw hv)
  · have hvw : v ≠ w := by
      rintro rfl
      rw [Function.update_self] at hv
      cases hv
    rw [Function.update_of_ne hvw] at hv
    change Function.update m.thisFiber w (some (.thread w)) v = none
    rw [Function.update_of_ne hvw]
    exact h.blank v hv
  · have hne : f ≠ .thread w := fun heq => hout w (hplace.trans heq.symm)
    refine (h.resumes f ((halive f hf).resolve_right hne) hout).congr ?_ ?_ rfl
    · exact Function.update_of_ne hne _ _
    · change Function.update m.position (m.running w) _ f = m.position f
      rw [hrunning, Function.update_of_ne hne]

theorem Machine.Fits.enter {caller : Option (Fin n)} {place : Fin n → Fiber n}
    (h : m.Fits entered (homeFiber caller) place alive) (hw : entered w = false)
    (hplace : place w = .thread w) (hroot : caller = some w → ∀ v, place v ≠ .root)
    (halive : ∀ f, alive' f →
      alive f ∨ f = .thread w ∨ f = .idle w ∨ f = homeFiber caller w) :
    ∃ m', m.enter caller w = .ok m' ∧
      m'.Fits (Function.update entered w true) (homeFiber caller)
        (Function.update place w (homeFiber caller w)) alive' ∧
      (∀ f, m'.ended f = true → m.ended f = true) ∧ m'.leaving = m.leaving := by
  have hbegin := h.begin hw hplace fun (f : Fiber n) (hf : alive f ∨ f = .thread w) => hf
  by_cases hc : caller = some w
  · have hhome : homeFiber caller w = .root := if_pos hc
    rw [hhome] at hbegin halive ⊢
    have heq : m.useCaller w = ({ (m.getThis w).2 with
        schedulerFiber := Function.update m.schedulerFiber w (some .root) }).makecontext
          .root := by
      simp only [Machine.useCaller, Machine.getThis, h.blank w hw]
      rfl
    have huse : (m.useCaller w).Fits (Function.update entered w true) (homeFiber caller) place
        fun f => (alive f ∨ f = .thread w) ∨ f = .root := by
      rw [heq]
      exact hbegin.makecontext fun _ hf => hf
    have hroot' : (m.useCaller w).ended .root = false := by
      rw [heq]
      exact Machine.makecontext_self _ _
    obtain ⟨m', hswitch, hfits, hended, hleaving⟩ :=
      huse.switch (Function.update_self ..) hplace (.inr rfl) (hroot hc) hroot'
    refine ⟨m'.makecontext (.idle w), ?_, hfits.makecontext fun f hf => ?_, fun f hf => ?_, ?_⟩
    · simp only [Machine.enter, if_pos hc, Machine.call,
        huse.threadFiber w (Function.update_self ..), hswitch]
      rfl
    · rcases halive f hf with hold | hthread | hidle | hroot
      · exact .inl (.inl (.inl hold))
      · exact .inl (.inl (.inr hthread))
      · exact .inr hidle
      · exact .inl (.inr hroot)
    · have hold := Machine.makecontext_ended hf
      rw [hended, heq] at hold
      exact getThis_ended m w ▸ Machine.makecontext_ended hold
    · exact hleaving.trans (by rw [heq]; exact getThis_leaving m w)
  · have hhome : homeFiber caller w = .thread w := if_neg hc
    rw [hhome] at hbegin halive ⊢
    have heq : m.beginRun w = ({ (m.getThis w).2 with
        schedulerFiber := Function.update m.schedulerFiber w (some (.thread w)) }).makecontext
          (.idle w) := by
      simp only [Machine.beginRun, Machine.getThis, h.blank w hw]
      rfl
    refine ⟨m.beginRun w, if_neg hc, ?_, ?_⟩
    · rw [← hplace, Function.update_eq_self, heq]
      refine hbegin.makecontext fun f hf => ?_
      rcases halive f hf with hold | hthread | hidle | hthread
      · exact .inl (.inl hold)
      · exact .inl (.inr hthread)
      · exact .inr hidle
      · exact .inl (.inr hthread)
    · rw [heq]
      exact ⟨fun f hf => getThis_ended m w ▸ Machine.makecontext_ended hf, getThis_leaving m w⟩

end Sylar.Switch
