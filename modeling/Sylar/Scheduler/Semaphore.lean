import Sylar.Transition.Run

/-! # `FiberSemaphore`

`tryWait`, `wait` and `notify` by any number of fibers on any number of schedulers, each
lock-protected section one step. A waiter leaves the lock before it yields, so `notify` may
schedule it while it still runs; the scheduler switches it in only once it has yielded. A
permit is counted in `m_concurrency`, or handed to a fiber.
-/

namespace Sylar.Semaphore

open Transition

variable {σ φ : Type*}

/-! ## State -/

/-- What a fiber does: its own code, the end of `wait` after the locked section, or nothing
in `YieldToHold`. -/
inductive Stage where
  | running
  | suspending
  | held
  deriving DecidableEq, Repr

/-- `concurrency` and `waiters` are the data members, a waiter being the pair of
`Scheduler::GetThis()` and `Fiber::GetThis()`. `on` is the scheduler of a fiber, and `queued`
are the entries in `m_fibers` of all schedulers. The last four fields record the run: who waited
and who was scheduled, and the numbers of permits taken without waiting and of `notify` calls. -/
structure State (σ φ : Type*) where
  concurrency : Nat
  waiters : List (σ × φ)
  stage : φ → Stage
  on : φ → σ
  queued : List (σ × φ)
  arrived : List (σ × φ)
  scheduled : List (σ × φ)
  taken : Nat
  notified : Nat

/-- `FiberSemaphore::FiberSemaphore`, before any fiber uses it. -/
def State.init (initial : Nat) (on : φ → σ) : State σ φ where
  concurrency := initial
  waiters := []
  stage := fun _ => .running
  on := on
  queued := []
  arrived := []
  scheduled := []
  taken := 0
  notified := 0

/-! ## Steps -/

/-- `--m_concurrency`, a `size_t`. -/
def decrement (n : Nat) : Nat := (n + (2 ^ 64 - 1)) % 2 ^ 64

/-- `++m_concurrency`. -/
def increment (n : Nat) : Nat := (n + 1) % 2 ^ 64

def State.take (s : State σ φ) : State σ φ :=
  { s with concurrency := decrement s.concurrency, taken := s.taken + 1 }

def State.tryWait (s : State σ φ) : Bool × State σ φ :=
  if s.concurrency > 0 then (true, s.take) else (false, s)

/-- The locked section of `wait`. -/
def State.wait [DecidableEq φ] (s : State σ φ) (f : φ) : State σ φ :=
  if s.concurrency > 0 then s.take
  else
    { s with
      waiters := s.waiters ++ [(s.on f, f)]
      arrived := s.arrived ++ [(s.on f, f)]
      stage := Function.update s.stage f .suspending }

/-- The locked section of `notify`. -/
def State.notify (s : State σ φ) : State σ φ :=
  match s.waiters with
  | next :: rest =>
      { s with
        waiters := rest
        queued := s.queued ++ [next]
        scheduled := s.scheduled ++ [next]
        notified := s.notified + 1 }
  | [] => { s with concurrency := increment s.concurrency, notified := s.notified + 1 }

inductive Action (σ φ : Type*) where
  | tryWait (f : φ)
  | wait (f : φ)
  /-- `YieldToHold` -/
  | yield (f : φ)
  | notify
  /-- a worker of the scheduler switches a queued fiber in -/
  | resume (scheduler : σ) (f : φ)

def step [DecidableEq σ] [DecidableEq φ] (s : State σ φ) : Action σ φ → Option (State σ φ)
  | .tryWait f => if s.stage f = .running then some s.tryWait.2 else none
  | .wait f => if s.stage f = .running then some (s.wait f) else none
  | .yield f =>
      if s.stage f = .suspending then
        some { s with stage := Function.update s.stage f .held }
      else none
  | .notify => some s.notify
  | .resume scheduler f =>
      if (scheduler, f) ∈ s.queued ∧ s.stage f = .held then
        some { s with
          queued := s.queued.erase (scheduler, f)
          stage := Function.update s.stage f .running
          on := Function.update s.on f scheduler }
      else none

/-- `++m_concurrency` does not wrap. -/
def NoWrap (s : State σ φ) : Action σ φ → Prop
  | .notify => s.waiters = [] → s.concurrency ≠ 2 ^ 64 - 1
  | _ => True

/-! ## The invariant -/

/-- The initial permits and those of the `notify` calls are counted, were taken, or were handed
to the waiters that are scheduled. -/
def Conserved (initial : Nat) (s : State σ φ) : Prop :=
  initial + s.notified = s.concurrency + s.taken + s.scheduled.length

/-- A fiber waits only without a permit, waiters are scheduled in the order of their arrival on
the scheduler they waited on, and every fiber in `wait` is in one place: a waiter, or an entry
of a scheduler. -/
structure Fair [DecidableEq φ] (s : State σ φ) : Prop where
  exclusive : s.waiters ≠ [] → s.concurrency = 0
  bounded : s.concurrency < 2 ^ 64
  fifo : s.arrived = s.scheduled ++ s.waiters
  once : ∀ f, (s.waiters.map Prod.snd).count f + (s.queued.map Prod.snd).count f =
    if s.stage f = .running then 0 else 1
  home : ∀ e ∈ s.waiters ++ s.queued, s.on e.2 = e.1

theorem fair_init [DecidableEq φ] {initial : Nat} (hinitial : initial < 2 ^ 64) (on : φ → σ) :
    Fair (.init initial on) where
  exclusive := fun hne => (hne rfl).elim
  bounded := hinitial
  fifo := rfl
  once := fun _ => rfl
  home := by
    intro e he
    cases he

theorem decrement_lt (n : Nat) : decrement n < 2 ^ 64 := Nat.mod_lt _ (Nat.two_pow_pos 64)

theorem increment_lt (n : Nat) : increment n < 2 ^ 64 := Nat.mod_lt _ (Nat.two_pow_pos 64)

theorem decrement_of_pos {n : Nat} (hpos : n > 0) (hword : n < 2 ^ 64) :
    decrement n + 1 = n := by
  unfold decrement
  omega

theorem increment_eq_iff {n : Nat} (hword : n < 2 ^ 64) :
    increment n = n + 1 ↔ n ≠ 2 ^ 64 - 1 := by
  unfold increment
  omega

/-! ## Sections -/

variable [DecidableEq φ] {s : State σ φ}

/-- Another count of permits, that is zero while a fiber waits. -/
theorem Fair.recount (h : Fair s) {n : Nat} (hword : n < 2 ^ 64)
    (hexclusive : s.waiters ≠ [] → n = 0) (taken notified : Nat) :
    Fair { s with concurrency := n, taken := taken, notified := notified } where
  exclusive := hexclusive
  bounded := hword
  fifo := h.fifo
  once := h.once
  home := h.home

/-- A permit is taken only while nobody waits. -/
theorem Fair.take (h : Fair s) (hpos : s.concurrency > 0) : Fair s.take :=
  h.recount (decrement_lt _) (fun hne => absurd (h.exclusive hne) hpos.ne') _ _

theorem Fair.take_conserved (h : Fair s) (hpos : s.concurrency > 0) {initial : Nat}
    (hs : Conserved initial s) : Conserved initial s.take := by
  have hless := decrement_of_pos hpos h.bounded
  unfold Conserved at hs ⊢
  unfold State.take
  dsimp only
  omega

/-- Without a permit the fiber becomes the last waiter. -/
theorem Fair.arrive (h : Fair s) {f : φ} (hrunning : s.stage f = .running)
    (hnone : ¬ s.concurrency > 0) :
    Fair { s with
      waiters := s.waiters ++ [(s.on f, f)]
      arrived := s.arrived ++ [(s.on f, f)]
      stage := Function.update s.stage f .suspending } where
  exclusive := by
    intro _
    exact Nat.eq_zero_of_not_pos hnone
  bounded := h.bounded
  fifo := by
    simp only [h.fifo, List.append_assoc]
  once := by
    intro g
    have hg := h.once g
    by_cases hgf : g = f
    · subst hgf
      rw [if_pos hrunning] at hg
      simp only [List.map_append, List.map_cons, List.map_nil, List.count_append,
        List.count_singleton_self, Function.update_self, reduceCtorEq, if_false]
      omega
    · simp only [List.map_append, List.map_cons, List.map_nil, List.count_append,
        Function.update_of_ne hgf]
      rw [List.count_singleton, if_neg (by simpa using Ne.symm hgf), Nat.add_zero]
      exact hg
  home := by
    intro e he
    simp only [List.append_assoc, List.mem_append, List.mem_singleton] at he
    rcases he with he | rfl | he
    · exact h.home e (List.mem_append_left _ he)
    · rfl
    · exact h.home e (List.mem_append_right _ he)

theorem Fair.yield (h : Fair s) {f : φ} (hstage : s.stage f = .suspending) :
    Fair { s with stage := Function.update s.stage f .held } where
  exclusive := h.exclusive
  bounded := h.bounded
  fifo := h.fifo
  once := by
    intro g
    have hg := h.once g
    by_cases hgf : g = f
    · subst hgf
      simpa [hstage] using hg
    · simpa only [Function.update_of_ne hgf] using hg
  home := h.home

/-- The first waiter is handed the permit and scheduled. -/
theorem Fair.handOver (h : Fair s) {next : σ × φ} {rest : List (σ × φ)}
    (hwaiters : s.waiters = next :: rest) :
    Fair { s with
      waiters := rest
      queued := s.queued ++ [next]
      scheduled := s.scheduled ++ [next]
      notified := s.notified + 1 } where
  exclusive := by
    intro _
    apply h.exclusive
    rw [hwaiters]
    exact List.cons_ne_nil next rest
  bounded := h.bounded
  fifo := by
    rw [h.fifo, hwaiters, List.append_assoc]
    rfl
  once := by
    intro g
    have hg := h.once g
    rw [hwaiters, List.map_cons, List.count_cons] at hg
    rw [← hg]
    simp only [List.map_append, List.count_append, List.map_cons, List.map_nil, List.count_cons,
      List.count_nil]
    omega
  home := by
    intro e he
    apply h.home e
    rw [hwaiters]
    simp only [List.mem_append, List.mem_cons, List.not_mem_nil, or_false] at he ⊢
    tauto

theorem Fair.count (h : Fair s) (hwaiters : s.waiters = []) :
    Fair { s with concurrency := increment s.concurrency, notified := s.notified + 1 } :=
  h.recount (increment_lt _) (fun hne => (hne hwaiters).elim) _ _

/-- There the count is right unless it wraps. -/
theorem Fair.count_conserved (h : Fair s) {initial : Nat} (hs : Conserved initial s) :
    Conserved initial
        { s with concurrency := increment s.concurrency, notified := s.notified + 1 } ↔
      s.concurrency ≠ 2 ^ 64 - 1 := by
  rw [← increment_eq_iff h.bounded]
  unfold Conserved at hs ⊢
  dsimp only
  omega

/-- A queued fiber runs again on the scheduler it waited on. -/
theorem Fair.resume [DecidableEq σ] (h : Fair s) {scheduler : σ} {f : φ}
    (hqueued : (scheduler, f) ∈ s.queued) (hstage : s.stage f = .held) :
    Fair { s with
      queued := s.queued.erase (scheduler, f)
      stage := Function.update s.stage f .running
      on := Function.update s.on f scheduler } := by
  have hon : Function.update s.on f scheduler = s.on := by
    have hhome : s.on f = scheduler := h.home _ (List.mem_append_right s.waiters hqueued)
    rw [← hhome]
    exact Function.update_eq_self f s.on
  have hperm := (List.perm_cons_erase hqueued).map Prod.snd
  refine ⟨h.exclusive, h.bounded, h.fifo, fun g => ?_, fun e he => ?_⟩
  · have hg := h.once g
    rw [hperm.count_eq, List.map_cons, List.count_cons] at hg
    by_cases hgf : g = f
    · subst hgf
      simp [hstage] at hg
      simp
      omega
    · simpa [Function.update_of_ne hgf, Ne.symm hgf] using hg
  · rw [hon]
    apply h.home e
    simp only [List.mem_append] at he ⊢
    exact he.imp_right List.mem_of_mem_erase

/-! ## Every interleaving -/

variable [DecidableEq σ]

theorem Fair.step (h : Fair s) {a : Action σ φ} {t : State σ φ} (ht : step s a = some t) :
    Fair t := by
  cases a with
  | tryWait f =>
      simp only [Semaphore.step, State.tryWait] at ht
      split at ht <;> cases ht
      split
      · rename_i hpos
        exact h.take hpos
      · exact h
  | wait f =>
      simp only [Semaphore.step, State.wait] at ht
      split at ht <;> cases ht
      rename_i hrunning
      split
      · rename_i hpos
        exact h.take hpos
      · rename_i hnone
        exact h.arrive hrunning hnone
  | yield f =>
      simp only [Semaphore.step] at ht
      split at ht <;> cases ht
      rename_i hstage
      exact h.yield hstage
  | notify =>
      simp only [Semaphore.step, State.notify] at ht
      split at ht <;> cases ht
      · rename_i next rest hwaiters
        exact h.handOver hwaiters
      · rename_i hwaiters
        exact h.count hwaiters
  | resume scheduler f =>
      simp only [Semaphore.step] at ht
      split at ht <;> cases ht
      rename_i hf
      exact h.resume hf.1 hf.2

theorem Fair.conserved_iff (h : Fair s) {initial : Nat} (hs : Conserved initial s)
    {a : Action σ φ} {t : State σ φ} (ht : Semaphore.step s a = some t) :
    Conserved initial t ↔ NoWrap s a := by
  cases a with
  | tryWait f =>
      simp only [Semaphore.step, State.tryWait] at ht
      split at ht <;> cases ht
      refine iff_of_true ?_ trivial
      split
      · rename_i hpos
        exact h.take_conserved hpos hs
      · exact hs
  | wait f =>
      simp only [Semaphore.step, State.wait] at ht
      split at ht <;> cases ht
      refine iff_of_true ?_ trivial
      split
      · rename_i hpos
        exact h.take_conserved hpos hs
      · exact hs
  | yield f =>
      simp only [Semaphore.step] at ht
      split at ht <;> cases ht
      exact iff_of_true hs trivial
  | notify =>
      simp only [Semaphore.step, State.notify] at ht
      split at ht <;> cases ht
      · rename_i next rest hwaiters
        refine iff_of_true ?_ fun hnil => ?_
        · unfold Conserved at hs ⊢
          simp only [List.length_append, List.length_singleton]
          omega
        · rw [hwaiters] at hnil
          cases hnil
      · rename_i hwaiters
        rw [h.count_conserved hs]
        exact ⟨fun hne _ => hne, fun hok => hok hwaiters⟩
  | resume scheduler f =>
      simp only [Semaphore.step] at ht
      split at ht <;> cases ht
      exact iff_of_true hs trivial

theorem Fair.concurrency_le (h : Fair s) {a : Action σ φ} {t : State σ φ} (ha : a ≠ .notify)
    (ht : Semaphore.step s a = some t) : t.concurrency ≤ s.concurrency := by
  have htake : s.concurrency > 0 → s.take.concurrency ≤ s.concurrency := by
    intro hpos
    have hless := decrement_of_pos hpos h.bounded
    unfold State.take
    dsimp only
    omega
  cases a with
  | tryWait f =>
      simp only [Semaphore.step, State.tryWait] at ht
      split at ht <;> cases ht
      split
      · rename_i hpos
        exact htake hpos
      · exact le_rfl
  | wait f =>
      simp only [Semaphore.step, State.wait] at ht
      split at ht <;> cases ht
      split
      · rename_i hpos
        exact htake hpos
      · exact le_rfl
  | yield f =>
      simp only [Semaphore.step] at ht
      split at ht <;> cases ht
      exact le_rfl
  | notify => exact (ha rfl).elim
  | resume scheduler f =>
      simp only [Semaphore.step] at ht
      split at ht <;> cases ht
      exact le_rfl

/-- As long as `++m_concurrency` does not wrap no permit is lost or invented, in every
interleaving; a step that wraps loses permits. Waiters are released in the order of their
arrival in any case. -/
theorem permits_conserved {initial : Nat} (hinitial : initial < 2 ^ 64) {on : φ → σ}
    (h : Reaches Semaphore.step NoWrap (.init initial on) s) :
    Fair s ∧ Conserved initial s ∧
      ∀ a t, Semaphore.step s a = some t →
        Fair t ∧ (Conserved initial t ↔ NoWrap s a) ∧
          (a ≠ .notify → t.concurrency ≤ s.concurrency) := by
  have hinv : Fair s ∧ Conserved initial s := by
    apply h.invariant (P := fun s : State σ φ => Fair s ∧ Conserved initial s)
    · intro s a t hs hg ht
      exact ⟨hs.1.step ht, (hs.1.conserved_iff hs.2 ht).mpr hg⟩
    · exact ⟨fair_init hinitial on, rfl⟩
  exact ⟨hinv.1, hinv.2, fun a t ht => ⟨hinv.1.step ht, hinv.1.conserved_iff hinv.2 ht,
    fun ha => hinv.1.concurrency_le ha ht⟩⟩

instance (s : State σ φ) (a : Action σ φ) : Decidable (NoWrap s a) :=
  match a with
  | .notify => inferInstanceAs (Decidable (_ → _))
  | .tryWait _ | .wait _ | .yield _ | .resume _ _ => isTrue trivial

/-- Three fibers on two schedulers; `notify` runs before the waiter has yielded. -/
def handedOver : List (Action (Fin 2) (Fin 3)) :=
  [.wait 0, .wait 1, .tryWait 2, .notify, .yield 1, .notify, .resume 1 1, .wait 2]

theorem permits_conserved_handedOver : ∃ s : State (Fin 2) (Fin 3),
    checkedRun Semaphore.step (fun s a => decide (NoWrap s a))
        (.init 1 fun f => if f = 1 then 1 else 0) handedOver = some s ∧
      s.scheduled = [(1, 1)] ∧ s.concurrency = 0 ∧ Fair s ∧ Conserved 1 s := by
  have hrun : (checkedRun Semaphore.step (fun s a => decide (NoWrap s a))
      (.init 1 fun f => if f = 1 then 1 else 0 : State (Fin 2) (Fin 3)) handedOver).any
        (fun s => decide (s.scheduled = [(1, 1)] ∧ s.concurrency = 0)) := by decide
  obtain ⟨s, hr, hscheduled, hconcurrency⟩ := exists_some_of_any hrun
  have hs := permits_conserved (by decide) (.of_decidedRun hr)
  exact ⟨s, hr, hscheduled, hconcurrency, hs.1, hs.2.1⟩

/-- One `notify` more than a `size_t` counts. -/
theorem permits_wrapped :
    ¬ ∀ initial < 2 ^ 64, ∀ s : State (Fin 1) (Fin 1),
      Reaches Semaphore.step Free (.init initial fun _ => 0) s → Conserved initial s := by
  intro h
  have hrun : (run Semaphore.step (.init (2 ^ 64 - 1) fun _ => 0 : State (Fin 1) (Fin 1))
      [.notify]).any (fun s => decide (s.concurrency = 0 ∧ s.notified = 1 ∧ s.taken = 0 ∧
        s.scheduled = [])) := by decide
  obtain ⟨s, hr, hconcurrency, hnotified, htaken, hscheduled⟩ := exists_some_of_any hrun
  have hs := h (2 ^ 64 - 1) (by decide) s (.of_run hr)
  unfold Conserved at hs
  rw [hconcurrency, hnotified, htaken, hscheduled] at hs
  cases hs

end Sylar.Semaphore
