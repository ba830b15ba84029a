import Sylar.Collection.Sum
import Sylar.Transition.Run

/-! # Threads and the calls that start and join them

`Thread::Thread` creates a thread and waits until `Thread::run` has taken what it needs from the
object; `Scheduler::start` constructs its threads one by one under `m_mutex`, and `Scheduler::stop`
swaps them out and joins them. Any number of threads call the two.

What `stop` does between its flag and the lock (the calls of `tickle`, and `run` on `m_rootFiber`)
is the time that the caller takes there. The callers are not threads that the scheduler created,
which would join themselves, and the callback of a thread returns at some time.
-/

namespace Sylar.Start

open Transition

variable {ι : Type*}

/-! ## State -/

/-- What `Thread::run` does next. -/
inductive RunPc where
  /-- `thread->m_id = sylar::GetThreadId();` -/
  | setId
  /-- `cb.swap(thread->m_cb);` -/
  | swapCb
  /-- `thread->m_semaphore.notify();` -/
  | notify
  /-- `cb();` -/
  | cb
  | ended
  deriving DecidableEq, Repr

/-- A `Thread` with the thread that `pthread_create` made for it. `tid` is the id that
`GetThreadId()` returns on that thread, `calls` counts the calls of the callback, and `destroyed`
says whether the object is gone; the code keeps none of them. -/
structure Thread where
  id : Int
  cb : Bool
  semaphore : Nat
  pc : RunPc
  tid : Int
  calls : Nat
  destroyed : Bool
  deriving DecidableEq, Repr

/-- `Thread::Thread` up to `pthread_create`. -/
def Thread.new (tid : Int) : Thread := ⟨-1, true, 0, .setId, tid, 0, false⟩

/-- One statement of `Thread::run`. -/
def Thread.run (t : Thread) : Option Thread :=
  match t.pc with
  | .setId => some { t with id := t.tid, pc := .swapCb }
  | .swapCb => some { t with cb := false, pc := .notify }
  | .notify => some { t with semaphore := t.semaphore + 1, pc := .cb }
  | .cb => some { t with calls := t.calls + 1, pc := .ended }
  | .ended => none

/-- Where a caller is in `start` or `stop`. -/
inductive Pc where
  | outside
  /-- `start` waits for `m_mutex`. -/
  | locking
  | entered
  /-- at the test of the loop -/
  | create (i : Nat)
  /-- in `m_semaphore.wait()` of the constructor of thread `o` -/
  | await (i o : Nat)
  /-- `stop` has set `m_stopping`. -/
  | flagged
  /-- The threads of `thrs`, and those of them that are still to join. -/
  | joining (thrs left : List (Option Nat))
  deriving DecidableEq, Repr

/-- `m_threadCount`, the id of the thread that made the scheduler with `use_caller`, and the callers
on whose threads `Scheduler::GetThis()` is this scheduler. -/
structure Setup (ι : Type*) where
  threadCount : Nat
  rootThread : Option Int
  getThis : ι → Bool

/-- The parts of a `Scheduler` that `start` and `stop` change; threads are named by their position
in `objects`, and a null pointer is `none`. -/
structure Scheduler (ι : Type*) where
  stopping : Bool
  threads : List (Option Nat)
  threadIds : List Int
  mutex : Option ι
  objects : List Thread
  pc : ι → Pc

def Scheduler.init (x : Setup ι) : Scheduler ι :=
  ⟨true, [], x.rootThread.toList, none, [], fun _ => .outside⟩

inductive Fault where
  /-- `SYLAR_ASSERT(m_threads.empty())` -/
  | threads
  /-- `SYLAR_ASSERT(GetThis() == this)`, or `!=` without `use_caller` -/
  | getThis
  /-- `i->join()` through a null pointer -/
  | nullThread
  deriving DecidableEq, Repr

inductive Action (ι : Type*) where
  | start (c : ι)
  /-- The answer of `stopping()`, if `stop` asks it before anything else. -/
  | stop (c : ι) (early : Option Bool)
  /-- The caller goes on; `created` is the id of the new thread, if `pthread_create` is called and
  succeeds. -/
  | next (c : ι) (created : Option Int)
  | run (o : Nat)
  deriving DecidableEq, Repr

/-- The destructor of `thrs`: joined threads are not detached. -/
def destroy (thrs : List (Option Nat)) (objects : List Thread) : List Thread :=
  objects.mapIdx fun o t => if some o ∈ thrs then { t with destroyed := true } else t

variable [DecidableEq ι]

def Scheduler.goto (s : Scheduler ι) (c : ι) (pc : Pc) : Scheduler ι :=
  { s with pc := Function.update s.pc c pc }

def Scheduler.next (count : Nat) (s : Scheduler ι) (c : ι) (created : Option Int) :
    Option (Except Fault (Scheduler ι)) :=
  match s.pc c with
  | .outside => none
  | .locking =>
      if s.mutex = none then some (.ok ({ s with mutex := some c }.goto c .entered)) else none
  | .entered =>
      if s.stopping = false then some (.ok ({ s with mutex := none }.goto c .outside))
      else if s.threads ≠ [] then some (.error .threads)
      else some (.ok ({ s with
        stopping := false
        threads := List.replicate count none }.goto c (.create 0)))
  | .create i =>
      if i < count then
        match created with
        | some tid => some (.ok ({ s with objects := s.objects ++ [Thread.new tid] }.goto c
            (.await i s.objects.length)))
        -- `std::logic_error`; the guard of the lock releases it
        | none => some (.ok ({ s with mutex := none }.goto c .outside))
      else some (.ok ({ s with mutex := none }.goto c .outside))
  | .await i o =>
      s.objects[o]?.bind fun t =>
        if t.semaphore = 0 then none
        else some (.ok ({ s with
          objects := s.objects.set o { t with semaphore := t.semaphore - 1 }
          threads := s.threads.set i (some o)
          threadIds := s.threadIds ++ [t.id] }.goto c (.create (i + 1))))
  | .flagged =>
      if s.mutex = none then
        some (.ok ({ s with threads := [] }.goto c (.joining s.threads s.threads)))
      else none
  | .joining thrs [] => some (.ok ({ s with objects := destroy thrs s.objects }.goto c .outside))
  | .joining _ (none :: _) => some (.error .nullThread)
  | .joining thrs (some o :: left) =>
      s.objects[o]?.bind fun t =>
        if t.pc = .ended then some (.ok (s.goto c (.joining thrs left))) else none

/-- `Scheduler::stop` up to its flag. It asks `stopping()` first where there is a root fiber and no
thread. -/
def Scheduler.stop (x : Setup ι) (s : Scheduler ι) (c : ι) (early : Option Bool) :
    Option (Except Fault (Scheduler ι)) :=
  if s.pc c ≠ .outside ∨ early ≠ none ∧ (x.rootThread = none ∨ x.threadCount ≠ 0) then none
  else if early = some true then some (.ok ({ s with stopping := true }.goto c .outside))
  else if x.getThis c = x.rootThread.isSome then
    some (.ok ({ s with stopping := true }.goto c .flagged))
  else some (.error .getThis)

def Scheduler.act (x : Setup ι) (s : Scheduler ι) : Action ι → Option (Except Fault (Scheduler ι))
  | .start c => if s.pc c = .outside then some (.ok (s.goto c .locking)) else none
  | .stop c early => s.stop x c early
  | .next c created => s.next x.threadCount c created
  | .run o =>
      s.objects[o]?.bind fun t => t.run.map fun t => .ok { s with objects := s.objects.set o t }

def step (x : Setup ι) : Except Fault (Scheduler ι) → Action ι →
    Option (Except Fault (Scheduler ι)) :=
  abortable (Scheduler.act x)

/-- `pthread_create` succeeds; `start` is not called while a `stop` that has set the flag has still
to swap, nor `stop` while a `start` has still to look at the flag; and `GetThis()` is this scheduler
on the thread that calls `stop` if and only if it was made with `use_caller`. -/
def Heeding (x : Setup ι) (s : Scheduler ι) : Action ι → Prop
  | .start _ => ∀ d, s.pc d ≠ .flagged
  | .stop c early => early = some true ∨
      x.getThis c = x.rootThread.isSome ∧ ∀ d, s.pc d ≠ .locking ∧ s.pc d ≠ .entered
  | .next _ created => created.any (fun tid => decide (0 < tid)) = true
  | .run _ => True

instance [Fintype ι] (x : Setup ι) (s : Scheduler ι) (a : Action ι) : Decidable (Heeding x s a) :=
  match a with
  | .start _ => inferInstanceAs (Decidable (∀ d, s.pc d ≠ .flagged))
  | .stop c early => inferInstanceAs (Decidable (early = some true ∨
      x.getThis c = x.rootThread.isSome ∧ ∀ d, s.pc d ≠ .locking ∧ s.pc d ≠ .entered))
  | .next _ created => inferInstanceAs (Decidable (created.any _ = true))
  | .run _ => inferInstanceAs (Decidable True)

/-! ## What holds of every state -/

/-- A caller that holds `m_mutex`. -/
def Pc.Locked : Pc → Prop
  | .entered | .create _ | .await _ _ => True
  | _ => False

structure Thread.Constructed (t : Thread) : Prop where
  named : t.id = t.tid ∧ 0 < t.tid
  started : t.pc = .cb ∨ t.pc = .ended
  semaphore : t.semaphore = 0
  cb : t.cb = false
  calls : t.calls = if t.pc = .ended then 1 else 0
  destroyed : t.destroyed = true → t.pc = .ended

structure Thread.Constructing (t : Thread) : Prop where
  named : (t.pc ≠ .setId → t.id = t.tid) ∧ 0 < t.tid
  semaphore : t.semaphore = if t.pc = .cb ∨ t.pc = .ended then 1 else 0
  cb : t.cb = true ↔ t.pc = .setId ∨ t.pc = .swapCb
  calls : t.calls = if t.pc = .ended then 1 else 0
  kept : t.destroyed = false

/-- The first `i` threads of `count` are constructed, the others not created. -/
structure Filled (count made i : Nat) (threads : List (Option Nat)) : Prop where
  size : threads.length = count
  before : ∀ j x, threads[j]? = some x → j < i → ∃ o < made, x = some o
  after : ∀ j x, threads[j]? = some x → i ≤ j → x = none

/-- A caller is in the loop of `start`, with `i` threads constructed. -/
def Pc.InLoop (i : Nat) : Pc → Prop
  | .create j | .await j _ => j = i
  | _ => False

/-- Of the threads created, `made` are constructed. -/
structure Sound (count : Nat) (roots : List Int) (made : Nat) (s : Scheduler ι) : Prop where
  ids : s.threadIds = roots ++ (s.objects.take made).map Thread.tid
  size : made ≤ s.objects.length
  last : made < s.objects.length →
    s.objects.length = made + 1 ∧ ∃ c i, s.pc c = .await i made
  awaits : ∀ c i o, s.pc c = .await i o → o = made ∧ made < s.objects.length ∧ i < count
  constructed : ∀ o t, s.objects[o]? = some t → o < made → t.Constructed
  constructing : ∀ t, s.objects[made]? = some t → t.Constructing
  mutex : ∀ c, s.mutex = some c ↔ (s.pc c).Locked
  noted : s.threads ≠ [] → s.stopping = false ∨ ∃ c, s.pc c = .flagged
  loop : ∀ c i, (s.pc c).InLoop i → i ≤ count ∧ Filled count made i s.threads
  whole : (∀ c i, ¬ (s.pc c).InLoop i) → s.threads = [] ∨ Filled count made count s.threads
  joins : ∀ c thrs left, s.pc c = .joining thrs left →
    (∀ x ∈ thrs, ∃ o < made, x = some o) ∧
      ∃ joined, thrs = joined ++ left ∧
        ∀ o t, some o ∈ joined → s.objects[o]? = some t → t.pc = .ended
  held : ∀ o t, some o ∈ s.threads → s.objects[o]? = some t → t.destroyed = false
  owned : ∀ c thrs left, s.pc c = .joining thrs left → ∀ o, some o ∈ thrs →
    some o ∉ s.threads ∧ (∀ t, s.objects[o]? = some t → t.destroyed = false) ∧
      ∀ d thrs' left', s.pc d = .joining thrs' left' → some o ∈ thrs' → d = c

variable {count made : Nat} {roots : List Int} {s : Scheduler ι}

omit [DecidableEq ι] in
theorem sound_init (x : Setup ι) :
    Sound x.threadCount x.rootThread.toList 0 (.init x : Scheduler ι) where
  ids := by simp [Scheduler.init]
  size := le_rfl
  last h := absurd h (Nat.lt_irrefl 0)
  awaits _ _ _ h := by cases h
  constructed _ _ h := by cases h
  constructing _ h := by cases h
  mutex _ := ⟨fun h => (by cases h), fun h => h.elim⟩
  noted h := absurd rfl h
  loop _ _ h := by cases h
  whole _ := .inl rfl
  joins _ _ _ h := by cases h
  held _ _ h := by cases h
  owned _ _ _ h := by cases h

/-! ## Callers -/

omit [DecidableEq ι] in
/-- Only one caller is in a section under `m_mutex`. -/
theorem Sound.alone (h : Sound count roots made s) {c d : ι} (hc : (s.pc c).Locked)
    (hd : (s.pc d).Locked) : c = d :=
  Option.some.inj (((h.mutex c).mpr hc).symm.trans ((h.mutex d).mpr hd))

theorem Pc.InLoop.locked {pc : Pc} {i : Nat} (h : pc.InLoop i) : pc.Locked := by
  cases pc <;> trivial

/-- A caller goes on without touching a thread: what the new place asks for is given. -/
theorem Sound.shift (h : Sound count roots made s) {c : ι} {q : Pc} {stopping : Bool}
    {threads : List (Option Nat)} {mutex : Option ι}
    (hold : ∀ i o, s.pc c ≠ .await i o) (hnew : ∀ i o, q ≠ .await i o)
    (hmutex : ∀ d, mutex = some d ↔ (Function.update s.pc c q d).Locked)
    (hnoted : threads ≠ [] → stopping = false ∨ ∃ d, Function.update s.pc c q d = .flagged)
    (hloop : ∀ d i, (Function.update s.pc c q d).InLoop i →
      i ≤ count ∧ Filled count made i threads)
    (hwhole : (∀ d i, ¬ (Function.update s.pc c q d).InLoop i) →
      threads = [] ∨ Filled count made count threads)
    (hjoins : ∀ thrs left, q = .joining thrs left → (∀ x ∈ thrs, ∃ o < made, x = some o) ∧
      (∃ joined, thrs = joined ++ left ∧
        ∀ o t, some o ∈ joined → s.objects[o]? = some t → t.pc = .ended) ∧
      ∀ o, some o ∈ thrs → some o ∉ threads ∧
        (∀ t, s.objects[o]? = some t → t.destroyed = false) ∧
        ∀ d thrs' left', d ≠ c → s.pc d = .joining thrs' left' → some o ∉ thrs')
    (hheld : ∀ o, some o ∈ threads → some o ∈ s.threads) :
    Sound count roots made
      { s with stopping, threads, mutex, pc := Function.update s.pc c q } := by
  constructor
  case ids => exact h.ids
  case size => exact h.size
  case constructed => exact h.constructed
  case constructing => exact h.constructing
  case mutex => exact hmutex
  case noted => exact hnoted
  case loop => exact hloop
  case whole => exact hwhole
  case held => exact fun o t ho => h.held o t (hheld o ho)
  case last =>
    intro hlt
    obtain ⟨hlen, d, i, hd⟩ := h.last hlt
    have hne : d ≠ c := fun heq => hold i made (heq ▸ hd)
    exact ⟨hlen, d, i, (Function.update_of_ne hne _ _).trans hd⟩
  case awaits =>
    intro d i o hd
    by_cases heq : d = c
    · subst heq
      simp only [Function.update_self] at hd
      exact (hnew i o hd).elim
    · simp only [Function.update_of_ne heq] at hd
      exact h.awaits d i o hd
  case joins =>
    intro d thrs left hd
    by_cases heq : d = c
    · subst heq
      simp only [Function.update_self] at hd
      obtain ⟨hmade, hjoined, -⟩ := hjoins thrs left hd
      exact ⟨hmade, hjoined⟩
    · simp only [Function.update_of_ne heq] at hd
      exact h.joins d thrs left hd
  case owned =>
    intro d thrs left hd o ho
    by_cases heq : d = c
    · subst heq
      simp only [Function.update_self] at hd
      obtain ⟨hthreads, halive, hothers⟩ := (hjoins thrs left hd).2.2 o ho
      refine ⟨hthreads, halive, fun d' thrs' left' hd' ho' => ?_⟩
      by_contra hne
      simp only [Function.update_of_ne hne] at hd'
      exact hothers d' thrs' left' hne hd' ho'
    · simp only [Function.update_of_ne heq] at hd
      obtain ⟨hthreads, halive, hothers⟩ := h.owned d thrs left hd o ho
      refine ⟨fun hin => hthreads (hheld o hin), halive, fun d' thrs' left' hd' ho' => ?_⟩
      by_cases heq' : d' = c
      · subst heq'
        simp only [Function.update_self] at hd'
        exact ((hjoins thrs' left' hd').2.2 o ho').2.2 d thrs left heq hd ho |>.elim
      · simp only [Function.update_of_ne heq'] at hd'
        exact hothers d' thrs' left' hd' ho'

/-- The caller is in none of the sections, before and after. -/
theorem Sound.move (h : Sound count roots made s) {c : ι} {q : Pc} {stopping : Bool}
    (hold : ¬ (s.pc c).Locked) (hnew : ¬ q.Locked)
    (hnoted : s.threads ≠ [] → stopping = false ∨ ∃ d, Function.update s.pc c q d = .flagged)
    (hjoins : ∀ thrs left, q = .joining thrs left → ∃ left', s.pc c = .joining thrs left' ∧
      ∃ joined, thrs = joined ++ left ∧
        ∀ o t, some o ∈ joined → s.objects[o]? = some t → t.pc = .ended) :
    Sound count roots made ({ s with stopping := stopping }.goto c q) := by
  change Sound count roots made { s with stopping := stopping, pc := Function.update s.pc c q }
  refine h.shift (fun i o heq => hold (heq ▸ trivial)) (fun i o heq => hnew (heq ▸ trivial))
    (fun d => ?_) hnoted (fun d i hi => ?_) (fun hnone => h.whole fun d i hi => ?_)
    (fun thrs left hq => ?_) (fun _ ho => ho)
  · by_cases heq : d = c
    · subst heq
      rw [Function.update_self, h.mutex]
      exact iff_of_false hold hnew
    · rw [Function.update_of_ne heq, h.mutex]
  · by_cases heq : d = c
    · subst heq
      rw [Function.update_self] at hi
      exact (hnew hi.locked).elim
    · rw [Function.update_of_ne heq] at hi
      exact h.loop d i hi
  · have hne : d ≠ c := fun heq => hold (heq ▸ hi.locked)
    exact hnone d i (by rwa [Function.update_of_ne hne])
  · obtain ⟨left', hleft, hjoined⟩ := hjoins thrs left hq
    refine ⟨(h.joins c thrs left' hleft).1, hjoined, fun o ho => ?_⟩
    obtain ⟨hthreads, halive, hothers⟩ := h.owned c thrs left' hleft o ho
    exact ⟨hthreads, halive, fun d thrs' left₂ hne hd ho' =>
      hne (hothers d thrs' left₂ hd ho')⟩

/-- The caller that holds `m_mutex` goes on in its section, or leaves it. -/
theorem Sound.holder (h : Sound count roots made s) {c : ι} {q : Pc} {stopping : Bool}
    {threads : List (Option Nat)} {mutex : Option ι} (hold : (s.pc c).Locked)
    (hplace : ∀ i o, s.pc c ≠ .await i o) (hnew : ∀ i o, q ≠ .await i o)
    (hmutex : mutex = some c ∧ q.Locked ∨ mutex = none ∧ q = .outside)
    (hnoted : threads ≠ [] → stopping = false ∨ ∃ d, d ≠ c ∧ s.pc d = .flagged)
    (hloop : ∀ i, q.InLoop i → i ≤ count ∧ Filled count made i threads)
    (hwhole : (∀ i, ¬ q.InLoop i) → threads = [] ∨ Filled count made count threads)
    (hheld : ∀ o, some o ∈ threads → some o ∈ s.threads) :
    Sound count roots made
      { s with stopping, threads, mutex, pc := Function.update s.pc c q } := by
  -- no other caller is in a section
  have hfree : ∀ d, d ≠ c → ¬ (s.pc d).Locked := fun d hne hd => hne (h.alone hd hold)
  refine h.shift hplace hnew (fun d => ?_) (fun hne => ?_) (fun d i hi => ?_) (fun hnone => ?_)
    (fun thrs left hq => ?_) hheld
  · by_cases heq : d = c
    · subst heq
      rw [Function.update_self]
      rcases hmutex with ⟨rfl, hq⟩ | ⟨rfl, rfl⟩
      · exact iff_of_true rfl hq
      · exact iff_of_false (fun hd => (by cases hd)) (fun hq => hq)
    · rw [Function.update_of_ne heq]
      refine iff_of_false (fun hd => ?_) (hfree d heq)
      rcases hmutex with ⟨rfl, -⟩ | ⟨rfl, -⟩
      · exact heq (Option.some.inj hd).symm
      · cases hd
  · rcases hnoted hne with hstopping | ⟨d, hd, hflag⟩
    · exact .inl hstopping
    · exact .inr ⟨d, by rwa [Function.update_of_ne hd]⟩
  · by_cases heq : d = c
    · subst heq
      rw [Function.update_self] at hi
      exact hloop i hi
    · rw [Function.update_of_ne heq] at hi
      exact (hfree d heq hi.locked).elim
  · exact hwhole fun i hi => hnone c i (by rwa [Function.update_self])
  · rcases hmutex with ⟨-, hq'⟩ | ⟨-, hq'⟩
    · exact (hq ▸ hq' : (Pc.joining thrs left).Locked).elim
    · cases hq.symm.trans hq'

theorem Sound.acquire (h : Sound count roots made s) {c : ι} (hc : s.pc c = .locking)
    (hmutex : s.mutex = none) :
    Sound count roots made ({ s with mutex := some c }.goto c .entered) := by
  have hfree : ∀ d, ¬ (s.pc d).Locked := by
    intro d hd
    rw [← h.mutex, hmutex] at hd
    cases hd
  change Sound count roots made
    { s with mutex := some c, pc := Function.update s.pc c .entered }
  refine h.shift (fun i o heq => by rw [hc] at heq; cases heq) (fun i o heq => by cases heq)
    (fun d => ?_) (fun hne => ?_) (fun d i hi => ?_) (fun _ => h.whole fun d i hi => ?_)
    (fun thrs left hq => by cases hq) (fun _ ho => ho)
  · by_cases heq : d = c
    · subst heq
      rw [Function.update_self]
      exact iff_of_true rfl trivial
    · rw [Function.update_of_ne heq]
      exact iff_of_false (fun hd => heq (Option.some.inj hd).symm) (hfree d)
  · rcases h.noted hne with hstopping | ⟨d, hd⟩
    · exact .inl hstopping
    · have hdc : d ≠ c := fun heq => by rw [heq, hc] at hd; cases hd
      exact .inr ⟨d, by rwa [Function.update_of_ne hdc]⟩
  · by_cases heq : d = c
    · subst heq
      rw [Function.update_self] at hi
      exact hi.elim
    · rw [Function.update_of_ne heq] at hi
      exact (hfree d hi.locked).elim
  · exact (hfree d hi.locked).elim

/-- `thrs.swap(m_threads);` -/
theorem Sound.swap (h : Sound count roots made s) {c : ι} (hc : s.pc c = .flagged)
    (hmutex : s.mutex = none) :
    Sound count roots made
      ({ s with threads := [] }.goto c (.joining s.threads s.threads)) := by
  have hfree : ∀ d, ¬ (s.pc d).Locked := by
    intro d hd
    rw [← h.mutex, hmutex] at hd
    cases hd
  have hwhole : s.threads = [] ∨ Filled count made count s.threads :=
    h.whole fun d i hi => hfree d hi.locked
  change Sound count roots made { s with
    threads := [], pc := Function.update s.pc c (.joining s.threads s.threads) }
  refine h.shift (fun i o heq => by rw [hc] at heq; cases heq) (fun i o heq => by cases heq)
    (fun d => ?_) (fun hne => (hne rfl).elim) (fun d i hi => ?_) (fun _ => .inl rfl)
    (fun thrs left hq => ?_) (fun o ho => by cases ho)
  · by_cases heq : d = c
    · subst heq
      rw [Function.update_self, hmutex]
      exact iff_of_false (fun hd => (by cases hd)) (fun hq => hq)
    · rw [Function.update_of_ne heq]
      exact h.mutex d
  · by_cases heq : d = c
    · subst heq
      rw [Function.update_self] at hi
      exact hi.elim
    · rw [Function.update_of_ne heq] at hi
      exact (hfree d hi.locked).elim
  · cases hq
    refine ⟨fun x hx => ?_, ⟨[], rfl, fun o t ho => by cases ho⟩, fun o ho => ?_⟩
    · rcases hwhole with hnil | hfilled
      · rw [hnil] at hx
        cases hx
      · obtain ⟨j, hj⟩ := List.mem_iff_getElem?.mp hx
        have hlt : j < count := hfilled.size ▸ (List.getElem?_eq_some_iff.mp hj).1
        exact hfilled.before j x hj hlt
    · exact ⟨fun hin => (by cases hin), fun t ht => h.held o t ho ht,
        fun d thrs' left' _ hd ho' => (h.owned d thrs' left' hd o ho').1 ho⟩

omit [DecidableEq ι] in
/-- No constructor waits while its caller is elsewhere in the loop. -/
theorem Sound.none_waits (h : Sound count roots made s) {c : ι} (hc : (s.pc c).Locked)
    (hplace : ∀ i o, s.pc c ≠ .await i o) : made = s.objects.length := by
  by_contra hne
  obtain ⟨-, d, i, hd⟩ := h.last (by have := h.size; omega)
  have hdc : d = c := h.alone (hd ▸ trivial) hc
  exact hplace i made (hdc ▸ hd)

omit [DecidableEq ι] in
/-- A joined thread was constructed. -/
theorem Sound.joined_lt (h : Sound count roots made s) {d : ι} {thrs left : List (Option Nat)}
    (hd : s.pc d = .joining thrs left) {o : Nat} (ho : some o ∈ thrs) : o < made := by
  obtain ⟨o', ho', heq⟩ := (h.joins d thrs left hd).1 (some o) ho
  exact Option.some.inj heq ▸ ho'

/-! ### A step in the loop of `start` -/

theorem joining_of_update {pc : ι → Pc} {c d : ι} {q : Pc} {thrs left : List (Option Nat)}
    (hq : q ≠ .joining thrs left) (hd : Function.update pc c q d = .joining thrs left) :
    pc d = .joining thrs left := by
  by_cases heq : d = c
  · subst heq
    rw [Function.update_self] at hd
    exact (hq hd).elim
  · rwa [Function.update_of_ne heq] at hd

theorem Sound.mutex_stays (h : Sound count roots made s) {c : ι} {q : Pc} (hc : (s.pc c).Locked)
    (hq : q.Locked) (d : ι) : s.mutex = some d ↔ (Function.update s.pc c q d).Locked := by
  by_cases heq : d = c
  · subst heq
    rw [Function.update_self]
    exact iff_of_true ((h.mutex d).mpr hc) hq
  · rw [Function.update_of_ne heq]
    exact h.mutex d

theorem Sound.noted_stays (h : Sound count roots made s) {c : ι} {q : Pc}
    (hc : (s.pc c).Locked) (hne : s.threads ≠ []) :
    s.stopping = false ∨ ∃ d, Function.update s.pc c q d = .flagged := by
  refine (h.noted hne).imp_right fun ⟨d, hd⟩ => ?_
  have hdc : d ≠ c := by
    rintro rfl
    rw [hd] at hc
    exact hc
  exact ⟨d, (Function.update_of_ne hdc _ _).trans hd⟩

/-- Whoever is in the loop after the step is the caller. -/
theorem Sound.caller_in_loop (h : Sound count roots made s) {c d : ι} {q : Pc} {j : Nat}
    (hc : (s.pc c).Locked) (hj : (Function.update s.pc c q d).InLoop j) : q.InLoop j := by
  by_cases heq : d = c
  · subst heq
    rwa [Function.update_self] at hj
  · rw [Function.update_of_ne heq] at hj
    exact (heq (h.alone hj.locked hc)).elim

theorem Sound.caller_awaits (h : Sound count roots made s) {c d : ι} {q : Pc} {j o : Nat}
    (hc : (s.pc c).Locked) (hd : Function.update s.pc c q d = .await j o) : q = .await j o := by
  by_cases heq : d = c
  · subst heq
    rwa [Function.update_self] at hd
  · rw [Function.update_of_ne heq] at hd
    exact (heq (h.alone (hd ▸ trivial) hc)).elim

theorem Filled.lt_of_mem {i : Nat} {threads : List (Option Nat)}
    (h : Filled count made i threads) {o : Nat} (ho : some o ∈ threads) : o < made := by
  obtain ⟨j, hj⟩ := List.mem_iff_getElem?.mp ho
  by_cases hji : j < i
  · obtain ⟨o', ho', heq⟩ := h.before j _ hj hji
    exact Option.some.inj heq ▸ ho'
  · cases h.after j _ hj (Nat.le_of_not_lt hji)

/-- The next thread is noted. -/
theorem Filled.set {i : Nat} {threads : List (Option Nat)} (h : Filled count made i threads)
    (hi : i < count) : Filled count (made + 1) (i + 1) (threads.set i (some made)) := by
  refine ⟨by rw [List.length_set]; exact h.size, fun j x hj hji => ?_, fun j x hj hij => ?_⟩
  · by_cases heq : i = j
    · subst heq
      rw [List.getElem?_set_self (by rw [h.size]; exact hi)] at hj
      exact ⟨made, Nat.lt_succ_self made, (Option.some.inj hj).symm⟩
    · rw [List.getElem?_set_ne heq] at hj
      obtain ⟨k, hk, rfl⟩ := h.before j x hj (by omega)
      exact ⟨k, hk.trans (Nat.lt_succ_self made), rfl⟩
  · rw [List.getElem?_set_ne (by omega)] at hj
    exact h.after j x hj (by omega)

theorem Sound.created (h : Sound count roots made s) {c : ι} {i : Nat} (hc : s.pc c = .create i)
    (hi : i < count) {tid : Int} (htid : 0 < tid) :
    Sound count roots made ({ s with objects := s.objects ++ [Thread.new tid] }.goto c
      (.await i s.objects.length)) := by
  have hlocked : (s.pc c).Locked := hc ▸ trivial
  have hmade : made = s.objects.length :=
    h.none_waits hlocked fun j o heq => by rw [hc] at heq; cases heq
  have hfilled := (h.loop c i (by rw [hc]; exact rfl)).2
  have hget : ∀ (o : Nat) (t : Thread), o < made →
      (s.objects ++ [Thread.new tid])[o]? = some t → s.objects[o]? = some t :=
    fun o t ho ht => (List.getElem?_append_left (hmade ▸ ho)).symm.trans ht
  have hwhose : ∀ {d thrs left},
      Function.update s.pc c (.await i s.objects.length) d = .joining thrs left →
        s.pc d = .joining thrs left := fun hd => joining_of_update (fun hq => by cases hq) hd
  change Sound count roots made { s with
    objects := s.objects ++ [Thread.new tid]
    pc := Function.update s.pc c (.await i s.objects.length) }
  constructor
  case ids =>
    rw [List.take_append_of_le_length hmade.le]
    exact h.ids
  case size =>
    rw [List.length_append]
    exact h.size.trans (Nat.le_add_right _ _)
  case last =>
    intro _
    rw [List.length_append, ← hmade]
    exact ⟨rfl, c, i, Function.update_self ..⟩
  case awaits =>
    intro d j o hd
    cases h.caller_awaits hlocked hd
    exact ⟨hmade.symm, by simp [hmade], hi⟩
  case constructed => exact fun o t ht ho => h.constructed o t (hget o t ho ht) ho
  case constructing =>
    intro t ht
    rw [hmade, List.getElem?_concat_length] at ht
    cases ht
    exact ⟨⟨fun hne => (hne rfl).elim, htid⟩, rfl, iff_of_true rfl (.inl rfl), rfl, rfl⟩
  case mutex => exact h.mutex_stays hlocked trivial
  case noted => exact h.noted_stays hlocked
  case loop =>
    intro d j hj
    cases h.caller_in_loop hlocked hj
    exact ⟨hi.le, hfilled⟩
  case whole =>
    intro hnone
    refine (hnone c i ?_).elim
    simp only [Function.update_self]
    exact rfl
  case joins =>
    intro d thrs left hd
    obtain ⟨hold, joined, hsplit, hended⟩ := h.joins d thrs left (hwhose hd)
    refine ⟨hold, joined, hsplit, fun o t ho ht => hended o t ho (hget o t ?_ ht)⟩
    exact h.joined_lt (hwhose hd) (hsplit ▸ List.mem_append_left left ho)
  case held => exact fun o t ho ht => h.held o t ho (hget o t (hfilled.lt_of_mem ho) ht)
  case owned =>
    intro d thrs left hd o ho
    have hd := hwhose hd
    obtain ⟨hthreads, halive, hothers⟩ := h.owned d thrs left hd o ho
    exact ⟨hthreads, fun t ht => halive t (hget o t (h.joined_lt hd ho) ht),
      fun d' thrs' left' hd' => hothers d' thrs' left' (hwhose hd')⟩

theorem Thread.Constructing.finished {t : Thread} (h : t.Constructing) (hsem : t.semaphore ≠ 0) :
    Thread.Constructed { t with semaphore := t.semaphore - 1 } := by
  have hstarted : t.pc = .cb ∨ t.pc = .ended := by
    by_contra hn
    exact hsem (h.semaphore.trans (if_neg hn))
  have hpast : t.pc ≠ .setId ∧ t.pc ≠ .swapCb := by
    rcases hstarted with hpc | hpc <;> rw [hpc] <;> decide
  refine ⟨⟨h.named.1 hpast.1, h.named.2⟩, hstarted, ?_, ?_, h.calls, fun hd => ?_⟩
  · change t.semaphore - 1 = 0
    rw [h.semaphore, if_pos hstarted]
  · exact Bool.eq_false_of_not_eq_true fun hcb => not_or.mpr hpast (h.cb.mp hcb)
  · exact absurd (h.kept.symm.trans hd) Bool.false_ne_true

theorem take_set_succ {α : Type*} {l : List α} {o : Nat} (ho : o < l.length) (x : α) :
    (l.set o x).take (o + 1) = l.take o ++ [x] := by
  rw [List.take_add_one, List.getElem?_set_self ho, List.take_set_of_le le_rfl]
  rfl

/-- The constructor returns, and its caller notes the thread and its id. -/
theorem Sound.returned (h : Sound count roots made s) {c : ι} {i o : Nat} {t : Thread}
    (hc : s.pc c = .await i o) (ht : s.objects[o]? = some t) (hsem : t.semaphore ≠ 0) :
    Sound count roots (made + 1) ({ s with
      objects := s.objects.set o { t with semaphore := t.semaphore - 1 }
      threads := s.threads.set i (some o)
      threadIds := s.threadIds ++ [t.id] }.goto c (.create (i + 1))) := by
  obtain ⟨rfl, hlt, hi⟩ := h.awaits c i o hc
  have hlen := (h.last hlt).1
  have hlocked : (s.pc c).Locked := hc ▸ trivial
  have hfilled := (h.loop c i (by rw [hc]; exact rfl)).2
  have hdone := (h.constructing t ht).finished hsem
  have hself : (s.objects.set o { t with semaphore := t.semaphore - 1 })[o]? =
      some { t with semaphore := t.semaphore - 1 } := List.getElem?_set_self hlt
  have hsame : ∀ k, k ≠ o → (s.objects.set o { t with semaphore := t.semaphore - 1 })[k]? =
      s.objects[k]? := fun k hk => List.getElem?_set_ne (Ne.symm hk)
  have hwhose : ∀ {d thrs left},
      Function.update s.pc c (.create (i + 1)) d = .joining thrs left →
        s.pc d = .joining thrs left := fun hd => joining_of_update (fun hq => by cases hq) hd
  change Sound count roots (o + 1) { s with
    objects := s.objects.set o { t with semaphore := t.semaphore - 1 }
    threads := s.threads.set i (some o)
    threadIds := s.threadIds ++ [t.id]
    pc := Function.update s.pc c (.create (i + 1)) }
  constructor
  case ids =>
    rw [take_set_succ hlt, List.map_append, ← List.append_assoc, ← h.ids]
    exact congrArg _ (congrArg (fun x => [x]) hdone.named.1)
  case size =>
    rw [List.length_set]
    omega
  case last =>
    intro hgt
    rw [List.length_set] at hgt
    omega
  case awaits =>
    intro d j k hd
    cases h.caller_awaits hlocked hd
  case constructed =>
    intro k u hu hk
    by_cases heq : k = o
    · subst heq
      cases hself.symm.trans hu
      exact hdone
    · exact h.constructed k u ((hsame k heq).symm.trans hu) (by omega)
  case constructing =>
    intro u hu
    have hgt := (List.getElem?_eq_some_iff.mp hu).1
    rw [List.length_set] at hgt
    omega
  case mutex => exact h.mutex_stays hlocked trivial
  case noted =>
    intro _
    refine h.noted_stays hlocked fun hnil => ?_
    have hsize := hfilled.size
    rw [hnil] at hsize
    exact absurd hsize.symm (by simp only [List.length_nil]; omega)
  case loop =>
    intro d j hj
    cases h.caller_in_loop hlocked hj
    exact ⟨hi, hfilled.set hi⟩
  case whole =>
    intro hnone
    refine (hnone c (i + 1) ?_).elim
    simp only [Function.update_self]
    exact rfl
  case joins =>
    intro d thrs left hd
    have hd := hwhose hd
    obtain ⟨hold, joined, hsplit, hended⟩ := h.joins d thrs left hd
    refine ⟨fun x hx => ?_, joined, hsplit, fun k u hk hu => ?_⟩
    · obtain ⟨k, hk, rfl⟩ := hold x hx
      exact ⟨k, hk.trans (Nat.lt_succ_self o), rfl⟩
    · have hlt := h.joined_lt hd (hsplit ▸ List.mem_append_left left hk)
      exact hended k u hk ((hsame k hlt.ne).symm.trans hu)
  case held =>
    intro k u hk hu
    by_cases heq : k = o
    · subst heq
      cases hself.symm.trans hu
      exact (h.constructing t ht).kept
    · rcases List.mem_or_eq_of_mem_set hk with hk | hk
      · exact h.held k u hk ((hsame k heq).symm.trans hu)
      · exact (heq (Option.some.inj hk)).elim
  case owned =>
    intro d thrs left hd k hk
    have hd := hwhose hd
    obtain ⟨hthreads, halive, hothers⟩ := h.owned d thrs left hd k hk
    have hne : k ≠ o := (h.joined_lt hd hk).ne
    refine ⟨fun hin => ?_, fun u hu => halive u ((hsame k hne).symm.trans hu),
      fun d' thrs' left' hd' => hothers d' thrs' left' (hwhose hd')⟩
    rcases List.mem_or_eq_of_mem_set hin with hin | hin
    · exact hthreads hin
    · exact hne (Option.some.inj hin)

/-! ## Threads -/

theorem Thread.run_spec {t t' : Thread} (h : t.run = some t') :
    t.pc ≠ .ended ∧ t'.tid = t.tid ∧ t'.destroyed = t.destroyed ∧
      (t.Constructed → t'.Constructed) ∧ (t.Constructing → t'.Constructing) := by
  unfold Thread.run at h
  split at h
  case h_1 hpc =>
    cases h
    refine ⟨by rw [hpc]; decide, rfl, rfl, fun hc => ?_, fun hc => ?_⟩
    · rcases hc.started with hs | hs <;> cases hpc.symm.trans hs
    · refine ⟨⟨fun _ => rfl, hc.named.2⟩, ?_, ?_, ?_, hc.kept⟩
      · simpa [hpc] using hc.semaphore
      · simpa [hpc] using hc.cb
      · simpa [hpc] using hc.calls
  case h_2 hpc =>
    cases h
    refine ⟨by rw [hpc]; decide, rfl, rfl, fun hc => ?_, fun hc => ?_⟩
    · rcases hc.started with hs | hs <;> cases hpc.symm.trans hs
    · refine ⟨⟨fun _ => hc.named.1 (by rw [hpc]; decide), hc.named.2⟩, ?_, ?_, ?_, hc.kept⟩
      · simpa [hpc] using hc.semaphore
      · simp
      · simpa [hpc] using hc.calls
  case h_3 hpc =>
    cases h
    refine ⟨by rw [hpc]; decide, rfl, rfl, fun hc => ?_, fun hc => ?_⟩
    · rcases hc.started with hs | hs <;> cases hpc.symm.trans hs
    · refine ⟨⟨fun _ => hc.named.1 (by rw [hpc]; decide), hc.named.2⟩, ?_, ?_, ?_, hc.kept⟩
      · simpa [hpc] using hc.semaphore
      · simpa [hpc] using hc.cb
      · simpa [hpc] using hc.calls
  case h_4 hpc =>
    cases h
    refine ⟨by rw [hpc]; decide, rfl, rfl, fun hc => ?_, fun hc => ?_⟩
    · refine ⟨hc.named, .inr rfl, hc.semaphore, hc.cb, ?_, fun _ => rfl⟩
      simpa [hpc] using hc.calls
    · refine ⟨⟨fun _ => hc.named.1 (by rw [hpc]; decide), hc.named.2⟩, ?_, ?_, ?_, hc.kept⟩
      · simpa [hpc] using hc.semaphore
      · simpa [hpc] using hc.cb
      · simpa [hpc] using hc.calls
  case h_5 => cases h

omit [DecidableEq ι] in
theorem Sound.ran (h : Sound count roots made s) {o : Nat} {t t' : Thread}
    (ht : s.objects[o]? = some t) (hrun : t.run = some t') :
    Sound count roots made { s with objects := s.objects.set o t' } := by
  obtain ⟨hlive, htid, hdestroyed, hold, hnew⟩ := Thread.run_spec hrun
  have hself : (s.objects.set o t')[o]? = some t' :=
    List.getElem?_set_self (List.getElem?_eq_some_iff.mp ht).1
  have hsame : ∀ k, k ≠ o → (s.objects.set o t')[k]? = s.objects[k]? :=
    fun k hk => List.getElem?_set_ne (Ne.symm hk)
  have hback : ∀ k u, (s.objects.set o t')[k]? = some u →
      s.objects[k]? = some u ∨ k = o ∧ u = t' := by
    intro k u hu
    by_cases hk : k = o
    · subst hk
      exact .inr ⟨rfl, (Option.some.inj (hself.symm.trans hu)).symm⟩
    · exact .inl ((hsame k hk).symm.trans hu)
  have halive : ∀ (k : Nat) (u : Thread), (s.objects.set o t')[k]? = some u →
      (∀ u : Thread, s.objects[k]? = some u → u.destroyed = false) → u.destroyed = false := by
    intro k u hu hall
    rcases hback k u hu with hu | ⟨rfl, rfl⟩
    · exact hall u hu
    · exact hdestroyed.trans (hall t ht)
  have hids : (s.objects.set o t').map Thread.tid = s.objects.map Thread.tid := by
    rw [List.map_set, htid]
    refine List.ext_getElem? fun k => ?_
    by_cases hk : o = k
    · subst hk
      rw [List.getElem?_set_self (by simpa using (List.getElem?_eq_some_iff.mp ht).1),
        List.getElem?_map, ht]
      rfl
    · rw [List.getElem?_set_ne hk]
  constructor
  case ids =>
    change s.threadIds = roots ++ ((s.objects.set o t').take made).map Thread.tid
    rw [List.map_take, hids, ← List.map_take]
    exact h.ids
  case size => rw [List.length_set]; exact h.size
  case last => rw [List.length_set]; exact h.last
  case awaits => rw [List.length_set]; exact h.awaits
  case constructed =>
    intro k u hu hk
    rcases hback k u hu with hu | ⟨rfl, rfl⟩
    · exact h.constructed k u hu hk
    · exact hold (h.constructed k t ht hk)
  case constructing =>
    intro u hu
    rcases hback made u hu with hu | ⟨rfl, rfl⟩
    · exact h.constructing u hu
    · exact hnew (h.constructing t ht)
  case mutex => exact h.mutex
  case noted => exact h.noted
  case loop => exact h.loop
  case whole => exact h.whole
  case joins =>
    intro c thrs left hc
    obtain ⟨hmade, joined, hsplit, hended⟩ := h.joins c thrs left hc
    refine ⟨hmade, joined, hsplit, fun k u hk hu => ?_⟩
    rcases hback k u hu with hu | ⟨rfl, rfl⟩
    · exact hended k u hk hu
    · exact (hlive (hended k t hk ht)).elim
  case held => exact fun k u hk hu => halive k u hu fun u hu => h.held k u hk hu
  case owned =>
    intro c thrs left hc k hk
    obtain ⟨hthreads, hall, hothers⟩ := h.owned c thrs left hc k hk
    exact ⟨hthreads, fun u hu => halive k u hu hall, hothers⟩

theorem getElem?_destroy (thrs : List (Option Nat)) (objects : List Thread) (o : Nat) :
    (destroy thrs objects)[o]? =
      objects[o]?.map fun t => if some o ∈ thrs then { t with destroyed := true } else t := by
  rw [destroy, List.getElem?_mapIdx]

theorem Sound.left (h : Sound count roots made s) {c : ι} {thrs : List (Option Nat)}
    (hc : s.pc c = .joining thrs []) :
    Sound count roots made ({ s with objects := destroy thrs s.objects }.goto c .outside) := by
  have hmoved : Sound count roots made
      { s with stopping := s.stopping, pc := Function.update s.pc c .outside } :=
    h.move (by rw [hc]; exact id) id (fun hne => (h.noted hne).imp_right fun ⟨d, hd⟩ =>
        ⟨d, by rwa [Function.update_of_ne (fun heq => by rw [heq, hc] at hd; cases hd)]⟩)
      (fun thrs' left' hq => by cases hq)
  obtain ⟨hmade, joined, hsplit, hended⟩ := h.joins c thrs [] hc
  rw [List.append_nil] at hsplit
  subst hsplit
  have hback : ∀ k u, (destroy thrs s.objects)[k]? = some u → ∃ t, s.objects[k]? = some t ∧
      u = if some k ∈ thrs then { t with destroyed := true } else t := by
    intro k u hu
    rw [getElem?_destroy] at hu
    obtain ⟨t, ht, heq⟩ := Option.map_eq_some_iff.mp hu
    exact ⟨t, ht, heq.symm⟩
  have hlength : (destroy thrs s.objects).length = s.objects.length := List.length_mapIdx
  have hids : (destroy thrs s.objects).map Thread.tid = s.objects.map Thread.tid := by
    refine List.ext_getElem? fun k => ?_
    rw [List.getElem?_map, getElem?_destroy, List.getElem?_map, Option.map_map]
    congr 1
    funext t
    simp only [Function.comp]
    split <;> rfl
  -- a thread that nobody else owns is not among the joined ones
  have hother : ∀ (k : Nat) (u : Thread), (destroy thrs s.objects)[k]? = some u → some k ∉ thrs →
      (∀ t : Thread, s.objects[k]? = some t → t.destroyed = false) → u.destroyed = false := by
    intro k u hu hk hall
    obtain ⟨t, ht, rfl⟩ := hback k u hu
    rw [if_neg hk]
    exact hall t ht
  change Sound count roots made { s with
    objects := destroy thrs s.objects, pc := Function.update s.pc c .outside }
  constructor
  case ids =>
    change s.threadIds = roots ++ ((destroy thrs s.objects).take made).map Thread.tid
    rw [List.map_take, hids, ← List.map_take]
    exact h.ids
  case size => rw [hlength]; exact h.size
  case last => rw [hlength]; exact hmoved.last
  case awaits => rw [hlength]; exact hmoved.awaits
  case constructed =>
    intro k u hu hk
    obtain ⟨t, ht, rfl⟩ := hback k u hu
    have hold := h.constructed k t ht hk
    split
    · rename_i hin
      exact ⟨hold.named, hold.started, hold.semaphore, hold.cb, hold.calls,
        fun _ => hended k t hin ht⟩
    · exact hold
  case constructing =>
    intro u hu
    obtain ⟨t, ht, rfl⟩ := hback made u hu
    rw [if_neg]
    · exact h.constructing t ht
    · intro hin
      obtain ⟨o, ho, heq⟩ := hmade _ hin
      exact absurd (Option.some.inj heq) (by omega)
  case mutex => exact hmoved.mutex
  case noted => exact hmoved.noted
  case loop => exact hmoved.loop
  case whole => exact hmoved.whole
  case joins =>
    intro d thrs' left' hd
    obtain ⟨hmade', joined', hsplit', hended'⟩ := hmoved.joins d thrs' left' hd
    refine ⟨hmade', joined', hsplit', fun k u hk hu => ?_⟩
    obtain ⟨t, ht, rfl⟩ := hback k u hu
    have hpc := hended' k t hk ht
    split <;> exact hpc
  case held =>
    intro k u hk hu
    refine hother k u hu (fun hin => ?_) fun t ht => h.held k t hk ht
    exact (h.owned c thrs [] hc k hin).1 hk
  case owned =>
    intro d thrs' left' hd k hk
    have hdc : d ≠ c := by
      rintro rfl
      simp only [Function.update_self] at hd
      cases hd
    obtain ⟨hthreads, hall, hothers⟩ := hmoved.owned d thrs' left' hd k hk
    simp only [Function.update_of_ne hdc] at hd
    refine ⟨hthreads, fun u hu => hother k u hu (fun hin => ?_) hall, hothers⟩
    exact hdc ((h.owned c thrs [] hc k hin).2.2 d thrs' left' hd hk)

/-! ## One step -/

/-- No `start` has still to look at the flag that a `stop` has set before its swap. -/
def Apart (s : Scheduler ι) : Prop :=
  ∀ c d, s.pc c = .flagged → s.pc d ≠ .locking ∧ s.pc d ≠ .entered

theorem Apart.goto {s' : Scheduler ι} (h : Apart s) {c : ι} {q : Pc}
    (hpc : s'.pc = Function.update s.pc c q)
    (hflag : q = .flagged → ∀ d, s.pc d ≠ .locking ∧ s.pc d ≠ .entered)
    (hcheck : q = .locking ∨ q = .entered → ∀ d, s.pc d ≠ .flagged) : Apart s' := by
  intro a b ha
  simp only [hpc] at ha ⊢
  by_cases hac : a = c
  · subst hac
    rw [Function.update_self] at ha
    by_cases hba : b = a
    · subst hba
      rw [Function.update_self, ha]
      decide
    · rw [Function.update_of_ne hba]
      exact hflag ha b
  · rw [Function.update_of_ne hac] at ha
    by_cases hbc : b = c
    · subst hbc
      rw [Function.update_self]
      exact ⟨fun hq => hcheck (.inl hq) a ha, fun hq => hcheck (.inr hq) a ha⟩
    · rw [Function.update_of_ne hbc]
      exact h a b ha

def Lasting (count : Nat) (roots : List Int) (s : Scheduler ι) : Prop :=
  (∃ made, Sound count roots made s) ∧ Apart s

omit [DecidableEq ι] in
theorem Sound.flagged_elsewhere (h : Sound count roots made s) {c : ι} (hc : s.pc c ≠ .flagged)
    (hne : s.threads ≠ []) : s.stopping = false ∨ ∃ d, d ≠ c ∧ s.pc d = .flagged :=
  (h.noted hne).imp_right fun ⟨d, hd⟩ => ⟨d, fun heq => hc (heq ▸ hd), hd⟩

theorem filled_replicate (count made : Nat) :
    Filled count made 0 (List.replicate count none) where
  size := List.length_replicate
  before _ _ _ h := absurd h (Nat.not_lt_zero _)
  after j x hj _ := by
    rw [List.getElem?_replicate] at hj
    split at hj <;> cases hj
    rfl

omit [DecidableEq ι] in
theorem Sound.threads_nil (h : Sound count roots made s) (hcount : count = 0) :
    s.threads = [] := by
  subst hcount
  by_cases hloop : ∃ c i, (s.pc c).InLoop i
  · obtain ⟨c, i, hi⟩ := hloop
    exact List.length_eq_zero_iff.mp (h.loop c i hi).2.size
  · rcases h.whole fun c i hi => hloop ⟨c, i, hi⟩ with hnil | hfilled
    · exact hnil
    · exact List.length_eq_zero_iff.mp hfilled.size

omit [DecidableEq ι] in
theorem Sound.whole_of_place (h : Sound count roots made s) {c : ι} (hc : (s.pc c).Locked)
    (hplace : ∀ i, ¬ (s.pc c).InLoop i) : s.threads = [] ∨ Filled count made count s.threads :=
  h.whole fun d i hi => by
    have hdc : d = c := h.alone hi.locked hc
    exact hplace i (hdc ▸ hi)

/-- A caller of `start` looks at the flag and at the threads. -/
theorem Lasting.looks (h : Lasting count roots s) {c : ι} {created : Option Int}
    (hc : s.pc c = .entered) {r : Except Fault (Scheduler ι)}
    (hr : s.next count c created = some r) :
    ∃ s', r = .ok s' ∧ Lasting count roots s' := by
  obtain ⟨⟨made, hs⟩, hapart⟩ := h
  unfold Scheduler.next at hr
  have hlocked : (s.pc c).Locked := hc ▸ trivial
  have hplace : ∀ i o, s.pc c ≠ .await i o := fun i o heq => by rw [hc] at heq; cases heq
  have hwhole := hs.whole_of_place hlocked fun i hi => by rw [hc] at hi; exact hi
  simp only [hc] at hr
  split at hr
  · cases hr
    refine ⟨_, rfl, ⟨made, hs.holder hlocked hplace (fun i o heq => by cases heq)
      (.inr ⟨rfl, rfl⟩) (hs.flagged_elsewhere (by rw [hc]; decide)) (fun i hi => hi.elim)
      (fun _ => hwhole) fun _ ho => ho⟩, hapart.goto rfl (fun hq => by cases hq)
      (fun hq => by rcases hq with hq | hq <;> cases hq)⟩
  · rename_i hstopping
    -- the threads of an earlier start have been swapped out
    have hempty : s.threads = [] := by
      by_contra hne
      rcases hs.noted hne with hfalse | ⟨d, hd⟩
      · exact hstopping hfalse
      · exact (hapart d c hd).2 hc
    rw [if_neg (not_not.mpr hempty)] at hr
    cases hr
    refine ⟨_, rfl, ⟨made, hs.holder hlocked hplace (fun i o heq => by cases heq)
      (.inl ⟨(hs.mutex c).mpr hlocked, trivial⟩) (fun _ => .inl rfl) (fun i hi => ?_)
      (fun hnone => (hnone 0 rfl).elim) fun o ho => ?_⟩, hapart.goto rfl
      (fun hq => by cases hq) (fun hq => by rcases hq with hq | hq <;> cases hq)⟩
    · cases hi
      exact ⟨Nat.zero_le _, filled_replicate count made⟩
    · cases (List.mem_replicate.mp ho).2

/-- A caller of `stop` joins the next thread. -/
theorem Lasting.joins (h : Lasting count roots s) {c : ι} {created : Option Int}
    {thrs left : List (Option Nat)} {x : Option Nat} (hc : s.pc c = .joining thrs (x :: left))
    {r : Except Fault (Scheduler ι)} (hr : s.next count c created = some r) :
    ∃ s', r = .ok s' ∧ Lasting count roots s' := by
  obtain ⟨⟨made, hs⟩, hapart⟩ := h
  have hold : ¬ (s.pc c).Locked := by rw [hc]; exact id
  unfold Scheduler.next at hr
  obtain ⟨hmade, joined, hsplit, hended⟩ := hs.joins c thrs (x :: left) hc
  obtain ⟨o, -, rfl⟩ := hmade x (hsplit ▸ List.mem_append_right joined List.mem_cons_self)
  simp only [hc] at hr
  obtain ⟨t, ht, hr⟩ := Option.bind_eq_some_iff.mp hr
  split at hr <;> cases hr
  rename_i hpc
  refine ⟨_, rfl, ⟨made, hs.move hold id (fun hne => ?_) fun thrs' left' hq => ?_⟩,
    hapart.goto rfl (fun hq => by cases hq)
      (fun hq => by rcases hq with hq | hq <;> cases hq)⟩
  · exact (hs.flagged_elsewhere (c := c) (by rw [hc]; intro heq; cases heq) hne).imp_right
      fun ⟨d, hd, hflag⟩ => ⟨d, by rwa [Function.update_of_ne hd]⟩
  · cases hq
    refine ⟨_, hc, joined ++ [some o], by rw [hsplit, List.append_assoc]; rfl,
      fun k u hk hu => ?_⟩
    rcases List.mem_append.mp hk with hk | hk
    · exact hended k u hk hu
    · cases List.mem_singleton.mp hk
      cases ht.symm.trans hu
      exact hpc

/-- A caller goes on and keeps what holds, and no assertion fails. -/
theorem Lasting.next (h : Lasting count roots s) {c : ι} {created : Option Int}
    (ha : created.any (fun tid => decide (0 < tid)) = true) {r : Except Fault (Scheduler ι)}
    (hr : s.next count c created = some r) :
    ∃ s', r = .ok s' ∧ Lasting count roots s' := by
  obtain ⟨⟨made, hs⟩, hapart⟩ := h
  cases hc : s.pc c with
  | outside => simp [Scheduler.next, hc] at hr
  | locking =>
      simp only [Scheduler.next, hc] at hr
      split at hr <;> cases hr
      rename_i hmutex
      refine ⟨_, rfl, ⟨made, hs.acquire hc hmutex⟩, hapart.goto rfl (fun hq => by cases hq)
        fun _ d hd => (hapart d c hd).1 hc⟩
  | entered => exact Lasting.looks ⟨⟨made, hs⟩, hapart⟩ hc hr
  | create i =>
      have hlocked : (s.pc c).Locked := hc ▸ trivial
      have hplace : ∀ j o, s.pc c ≠ .await j o := fun j o heq => by rw [hc] at heq; cases heq
      obtain ⟨hi, hfilled⟩ := hs.loop c i (by rw [hc]; exact rfl)
      simp only [Scheduler.next, hc] at hr
      split at hr
      · rename_i hlt
        obtain ⟨tid, rfl, htid⟩ := (Option.any_eq_true _ _).mp ha
        cases hr
        exact ⟨_, rfl, ⟨made, hs.created hc hlt (of_decide_eq_true htid)⟩, hapart.goto rfl
          (fun hq => by cases hq) (fun hq => by rcases hq with hq | hq <;> cases hq)⟩
      · rename_i hge
        cases hr
        have heq : i = count := by omega
        subst heq
        refine ⟨_, rfl, ⟨made, hs.holder hlocked hplace (fun j o heq => by cases heq)
          (.inr ⟨rfl, rfl⟩) (hs.flagged_elsewhere (by rw [hc]; intro hq; cases hq))
          (fun j hj => hj.elim) (fun _ => .inr hfilled) fun _ ho => ho⟩, hapart.goto rfl
          (fun hq => by cases hq) (fun hq => by rcases hq with hq | hq <;> cases hq)⟩
  | await i o =>
      simp only [Scheduler.next, hc] at hr
      obtain ⟨t, ht, hr⟩ := Option.bind_eq_some_iff.mp hr
      split at hr <;> cases hr
      rename_i hsem
      exact ⟨_, rfl, ⟨made + 1, hs.returned hc ht hsem⟩, hapart.goto rfl
        (fun hq => by cases hq) (fun hq => by rcases hq with hq | hq <;> cases hq)⟩
  | flagged =>
      simp only [Scheduler.next, hc] at hr
      split at hr <;> cases hr
      rename_i hmutex
      exact ⟨_, rfl, ⟨made, hs.swap hc hmutex⟩, hapart.goto rfl
        (fun hq => by cases hq) (fun hq => by rcases hq with hq | hq <;> cases hq)⟩
  | joining thrs left =>
      cases left with
      | nil =>
          simp only [Scheduler.next, hc] at hr
          cases hr
          exact ⟨_, rfl, ⟨made, hs.left hc⟩, hapart.goto rfl
            (fun hq => by cases hq) (fun hq => by rcases hq with hq | hq <;> cases hq)⟩
      | cons x left => exact Lasting.joins ⟨⟨made, hs⟩, hapart⟩ hc hr

/-- `stop` up to its flag, by a caller that may call it. -/
theorem Lasting.stop {x : Setup ι} (h : Lasting x.threadCount x.rootThread.toList s) {c : ι}
    {early : Option Bool} (ha : Heeding x s (.stop c early)) {r : Except Fault (Scheduler ι)}
    (hr : s.stop x c early = some r) :
    ∃ s', r = .ok s' ∧ Lasting x.threadCount x.rootThread.toList s' := by
  obtain ⟨⟨made, hs⟩, hapart⟩ := h
  unfold Scheduler.stop at hr
  split at hr
  · cases hr
  · rename_i hready
    obtain ⟨hc, hearly⟩ := not_or.mp hready
    have hc : s.pc c = .outside := not_not.mp hc
    have hplace : ¬ (s.pc c).Locked := by rw [hc]; exact id
    split at hr
    · rename_i heq
      cases hr
      -- a scheduler without threads
      have hcount : x.threadCount = 0 := by
        by_contra hne
        exact hearly ⟨by rw [heq]; decide, .inr hne⟩
      have hnone : s.threads = [] := hs.threads_nil hcount
      exact ⟨_, rfl, ⟨made, hs.move hplace id (fun hne => (hne hnone).elim)
        fun _ _ hq => by cases hq⟩, hapart.goto rfl (fun hq => by cases hq)
          fun hq => by rcases hq with hq | hq <;> cases hq⟩
    · rename_i hne
      obtain ⟨hmember, hothers⟩ := ha.resolve_left hne
      rw [if_pos hmember] at hr
      cases hr
      exact ⟨_, rfl, ⟨made, hs.move hplace id (fun _ => .inr ⟨c, Function.update_self ..⟩)
        fun _ _ hq => by cases hq⟩, hapart.goto rfl (fun _ => hothers)
          fun hq => by rcases hq with hq | hq <;> cases hq⟩

theorem lasting_preserved (x : Setup ι) :
    Preserves (step x : Except Fault (Scheduler ι) → _) (onOk (Heeding x))
      (Holds (Lasting x.threadCount x.rootThread.toList) fun _ => False) := by
  refine preserves_abortable fun s a r h ha hr => ?_
  cases a with
  | next c created =>
      obtain ⟨s', rfl, hs'⟩ := h.next ha hr
      exact hs'
  | run o =>
      obtain ⟨t, ht, hr⟩ := Option.bind_eq_some_iff.mp hr
      obtain ⟨t', ht', rfl⟩ := Option.map_eq_some_iff.mp hr
      obtain ⟨⟨made, hs⟩, hapart⟩ := h
      exact ⟨⟨made, hs.ran ht ht'⟩, hapart⟩
  | start c =>
      simp only [Scheduler.act] at hr
      split at hr <;> cases hr
      rename_i hc
      obtain ⟨⟨made, hs⟩, hapart⟩ := h
      refine ⟨⟨made, hs.move (by rw [hc]; exact id) id (fun hne => ?_) fun _ _ hq => by cases hq⟩,
        hapart.goto rfl (fun hq => by cases hq) fun _ => ha⟩
      exact (hs.flagged_elsewhere (c := c) (by rw [hc]; decide) hne).imp_right
        fun ⟨d, hd, hflag⟩ => ⟨d, by rwa [Function.update_of_ne hd]⟩
  | stop c early =>
      obtain ⟨s', rfl, hs'⟩ := h.stop ha hr
      exact hs'

omit [DecidableEq ι] in
theorem lasting_init (x : Setup ι) :
    Lasting x.threadCount x.rootThread.toList (.init x : Scheduler ι) :=
  ⟨⟨0, sound_init x⟩, fun _ _ hc => by cases hc⟩

end Sylar.Start
