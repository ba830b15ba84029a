import Sylar.Transition.Run

/-! # Streams of appenders under concurrent calls

`Logger::log` on any number of threads: the test of the level, `m_mutex` held over the loop and
over the call for `m_root`, and one step for every appender, whose own lock is held for its write
only. Appenders are added to and taken from loggers meanwhile, and belong to any number of them;
their levels are those they were made with. A text is named by the call that writes it and the
logger whose loop it is written in; opening files again is left out.
-/

namespace Sylar.Streams

open Transition

variable {ι α θ : Type*}

/-! ## State -/

/-- A text: the thread of the call of `log` that it belongs to, how many calls of the thread came
before, and the logger that writes it. -/
structure Text (ι θ : Type*) where
  thread : θ
  number : Nat
  logger : ι
  deriving DecidableEq, Repr

/-- `Logger`; `mutex` is the thread that holds `m_mutex`. -/
structure Logger (ι α θ : Type*) where
  level : Nat
  appenders : List α
  root : Option ι
  mutex : Option θ
  deriving DecidableEq, Repr

/-- What a thread in `Logger::log` does next. -/
inductive Pc (ι : Type*) where
  | idle
  /-- `if (level >= m_level)` -/
  | test (l : ι)
  /-- `MutexType::Lock lock(m_mutex);` -/
  | lock (l : ι)
  /-- `for (auto& i : m_appenders)`, with the first `pos` appenders done -/
  | each (l : ι) (pos : Nat)
  /-- the end of the innermost section, or the return if there is none -/
  | unlock
  deriving DecidableEq, Repr

/-- A thread, with the loggers whose locks it holds, the last one first. -/
structure Thread (ι : Type*) where
  pc : Pc ι
  held : List ι
  level : Nat
  calls : Nat
  deriving DecidableEq, Repr

/-- A section under `m_mutex`, with the appenders it found. -/
structure Section (ι α θ : Type*) where
  text : Text ι θ
  level : Nat
  appenders : List α
  deriving DecidableEq, Repr

/-- `stream a` has the texts that appender `a` wrote. `sections` lists the sections in the order in
which the locks were taken; the code keeps no such list. -/
structure State (ι α θ : Type*) where
  loggers : ι → Logger ι α θ
  levels : α → Nat
  stream : α → List (Text ι θ)
  threads : θ → Thread ι
  sections : List (Section ι α θ)

def State.init (loggers : ι → Logger ι α θ) (levels : α → Nat) : State ι α θ where
  loggers := fun l => { loggers l with mutex := none }
  levels := levels
  stream := fun _ => []
  threads := fun _ => ⟨.idle, [], 0, 0⟩
  sections := []

inductive Action (ι α θ : Type*) where
  /-- `log(level, event)` of a logger -/
  | log (t : θ) (l : ι) (level : Nat)
  | next (t : θ)
  | setLevel (l : ι) (level : Nat)
  | addAppender (l : ι) (a : α)
  | delAppender (l : ι) (a : α)
  | clearAppenders (l : ι)
  deriving DecidableEq, Repr

/-! ## Steps -/

def State.text (s : State ι α θ) (t : θ) (l : ι) : Text ι θ := ⟨t, (s.threads t).calls, l⟩

section Threads

variable [DecidableEq θ]

def State.setThread (s : State ι α θ) (t : θ) (x : Thread ι) : State ι α θ :=
  { s with threads := Function.update s.threads t x }

theorem setThread_threads (s : State ι α θ) (t : θ) (x : Thread ι) (t' : θ) :
    (s.setThread t x).threads t' = if t' = t then x else s.threads t' :=
  Function.update_apply _ _ _ _

def State.goto (s : State ι α θ) (t : θ) (pc : Pc ι) : State ι α θ :=
  s.setThread t { s.threads t with pc := pc }

variable [DecidableEq ι]

def State.enter (s : State ι α θ) (t : θ) (l : ι) : State ι α θ where
  loggers := Function.update s.loggers l { s.loggers l with mutex := some t }
  levels := s.levels
  stream := s.stream
  threads := Function.update s.threads t
    { s.threads t with pc := .each l 0, held := l :: (s.threads t).held }
  sections := s.sections ++ [⟨s.text t l, (s.threads t).level, (s.loggers l).appenders⟩]

theorem enter_threads (s : State ι α θ) (t : θ) (l : ι) (t' : θ) :
    (s.enter t l).threads t' =
      if t' = t then { s.threads t with pc := .each l 0, held := l :: (s.threads t).held }
      else s.threads t' :=
  Function.update_apply _ _ _ _

theorem enter_loggers (s : State ι α θ) (t : θ) (l l' : ι) :
    (s.enter t l).loggers l' =
      if l' = l then { s.loggers l with mutex := some t } else s.loggers l' :=
  Function.update_apply _ _ _ _

@[simp] theorem enter_appenders (s : State ι α θ) (t : θ) (l l' : ι) :
    ((s.enter t l).loggers l').appenders = (s.loggers l').appenders := by
  rw [enter_loggers]
  split
  · rename_i hl
    rw [hl]
  · rfl

def State.leave (s : State ι α θ) (t : θ) (l : ι) (rest : List ι) : State ι α θ where
  loggers := Function.update s.loggers l { s.loggers l with mutex := none }
  levels := s.levels
  stream := s.stream
  threads := Function.update s.threads t { s.threads t with held := rest }
  sections := s.sections

theorem leave_threads (s : State ι α θ) (t : θ) (l : ι) (rest : List ι) (t' : θ) :
    (s.leave t l rest).threads t' =
      if t' = t then { s.threads t with held := rest } else s.threads t' :=
  Function.update_apply _ _ _ _

theorem leave_loggers (s : State ι α θ) (t : θ) (l : ι) (rest : List ι) (l' : ι) :
    (s.leave t l rest).loggers l' =
      if l' = l then { s.loggers l with mutex := none } else s.loggers l' :=
  Function.update_apply _ _ _ _

@[simp] theorem leave_appenders (s : State ι α θ) (t : θ) (l : ι) (rest : List ι) (l' : ι) :
    ((s.leave t l rest).loggers l').appenders = (s.loggers l').appenders := by
  rw [leave_loggers]
  split
  · rename_i hl
    rw [hl]
  · rfl

end Threads

section Writes

variable [DecidableEq α]

/-- `i->log(self, level, event)` of an appender. -/
def State.write (s : State ι α θ) (t : θ) (l : ι) (a : α) : State ι α θ :=
  if s.levels a ≤ (s.threads t).level then
    { s with stream := Function.update s.stream a (s.stream a ++ [s.text t l]) }
  else s

@[simp] theorem write_loggers (s : State ι α θ) (t : θ) (l : ι) (a : α) :
    (s.write t l a).loggers = s.loggers := by
  unfold State.write
  split <;> rfl

@[simp] theorem write_threads (s : State ι α θ) (t : θ) (l : ι) (a : α) :
    (s.write t l a).threads = s.threads := by
  unfold State.write
  split <;> rfl

@[simp] theorem write_sections (s : State ι α θ) (t : θ) (l : ι) (a : α) :
    (s.write t l a).sections = s.sections := by
  unfold State.write
  split <;> rfl

@[simp] theorem write_levels (s : State ι α θ) (t : θ) (l : ι) (a : α) :
    (s.write t l a).levels = s.levels := by
  unfold State.write
  split <;> rfl

theorem write_stream (s : State ι α θ) (t : θ) (l : ι) (a a' : α) :
    (s.write t l a).stream a' =
      s.stream a' ++ if a' = a ∧ s.levels a ≤ (s.threads t).level then [s.text t l] else [] := by
  unfold State.write
  by_cases hlevel : s.levels a ≤ (s.threads t).level
  · by_cases ha : a' = a
    · rw [if_pos hlevel, if_pos ⟨ha, hlevel⟩, ha]
      exact Function.update_self _ _ _
    · rw [if_pos hlevel, if_neg fun h => ha h.1, List.append_nil]
      exact Function.update_of_ne ha _ _
  · rw [if_neg hlevel, if_neg fun h => hlevel h.2, List.append_nil]

end Writes

section Steps

variable [DecidableEq ι] [DecidableEq α] [DecidableEq θ]

def State.next (s : State ι α θ) (t : θ) : Option (State ι α θ) :=
  match (s.threads t).pc with
  | .idle => none
  | .test l =>
      if (s.loggers l).level ≤ (s.threads t).level then some (s.goto t (.lock l))
      else some (s.goto t .unlock)
  | .lock l => if (s.loggers l).mutex = none then some (s.enter t l) else none
  | .each l pos =>
      match (s.loggers l).appenders[pos]? with
      | some a => some ((s.write t l a).goto t (.each l (pos + 1)))
      | none =>
          -- `else if (m_root)`, for a logger without appenders
          if pos = 0 then
            match (s.loggers l).root with
            | some r => some (s.goto t (.test r))
            | none => some (s.goto t .unlock)
          else some (s.goto t .unlock)
  | .unlock =>
      match (s.threads t).held with
      | l :: rest => some (s.leave t l rest)
      | [] => some (s.setThread t
          { s.threads t with pc := .idle, calls := (s.threads t).calls + 1 })

/-- A section under `m_mutex` that changes the list of appenders. -/
def State.reconfigure (s : State ι α θ) (l : ι) (f : List α → List α) : Option (State ι α θ) :=
  if (s.loggers l).mutex = none then
    some { s with
      loggers := Function.update s.loggers l
        { s.loggers l with appenders := f (s.loggers l).appenders } }
  else none

def step (s : State ι α θ) : Action ι α θ → Option (State ι α θ)
  | .log t l level =>
      if (s.threads t).pc = .idle then
        some (s.setThread t { s.threads t with pc := .test l, level := level })
      else none
  | .next t => s.next t
  | .setLevel l level =>
      some { s with loggers := Function.update s.loggers l { s.loggers l with level := level } }
  | .addAppender l a => s.reconfigure l (· ++ [a])
  | .delAppender l a => s.reconfigure l (·.erase a)
  | .clearAppenders l => s.reconfigure l fun _ => []

end Steps

/-! ## What a step can do -/

section Moves

variable [DecidableEq ι] [DecidableEq α] [DecidableEq θ] {s s' : State ι α θ}

inductive Move (s : State ι α θ) : State ι α θ → Prop where
  /-- A thread goes on outside of a loop, or comes to the end of one. -/
  | quiet (t : θ) (x : Thread ι) (hheld : x.held = (s.threads t).held)
      (hcalls : (s.threads t).calls ≤ x.calls) (hpc : ∀ l pos, x.pc ≠ .each l pos)
      (hdone : ∀ l pos, (s.threads t).pc = .each l pos → (s.loggers l).appenders.length ≤ pos) :
      Move s (s.setThread t x)
  | enter (t : θ) (l : ι) (hpc : (s.threads t).pc = .lock l)
      (hfree : (s.loggers l).mutex = none) : Move s (s.enter t l)
  | write (t : θ) (l : ι) (pos : Nat) (a : α) (hpc : (s.threads t).pc = .each l pos)
      (ha : (s.loggers l).appenders[pos]? = some a) :
      Move s ((s.write t l a).goto t (.each l (pos + 1)))
  | leave (t : θ) (l : ι) (rest : List ι) (hpc : (s.threads t).pc = .unlock)
      (hheld : (s.threads t).held = l :: rest) : Move s (s.leave t l rest)
  /-- A logger is changed; its appenders only while nobody holds its lock. -/
  | settings (l : ι) (x : Logger ι α θ) (hmutex : x.mutex = (s.loggers l).mutex)
      (hsame : x.appenders = (s.loggers l).appenders ∨ (s.loggers l).mutex = none) :
      Move s { s with loggers := Function.update s.loggers l x }

theorem next_move {t : θ} (h : s.next t = some s') : Move s s' := by
  have hquiet : ∀ pc, (∀ l pos, pc ≠ .each l pos) →
      (∀ l pos, (s.threads t).pc = .each l pos → (s.loggers l).appenders.length ≤ pos) →
        Move s (s.goto t pc) := fun pc hpc hdone => .quiet t _ rfl le_rfl hpc hdone
  unfold State.next at h
  cases hpc : (s.threads t).pc with
  | idle =>
      rw [hpc] at h
      cases h
  | test l =>
      have hdone : ∀ l pos, (s.threads t).pc = .each l pos → (s.loggers l).appenders.length ≤ pos :=
        fun l pos heq => by rw [hpc] at heq; cases heq
      rw [hpc] at h
      dsimp only at h
      split at h <;> cases h
      · exact hquiet _ (fun _ _ heq => by cases heq) hdone
      · exact hquiet _ (fun _ _ heq => by cases heq) hdone
  | lock l =>
      rw [hpc] at h
      dsimp only at h
      split at h <;> cases h
      rename_i hfree
      exact .enter t l hpc hfree
  | each l pos =>
      rw [hpc] at h
      dsimp only at h
      cases ha : (s.loggers l).appenders[pos]? with
      | some a =>
          rw [ha] at h
          cases h
          exact .write t l pos a hpc ha
      | none =>
          have hdone : ∀ l pos, (s.threads t).pc = .each l pos →
              (s.loggers l).appenders.length ≤ pos := by
            intro l' pos' heq
            rw [hpc] at heq
            cases heq
            exact List.getElem?_eq_none_iff.mp ha
          rw [ha] at h
          dsimp only at h
          split at h
          · split at h <;> cases h
            · exact hquiet _ (fun _ _ heq => by cases heq) hdone
            · exact hquiet _ (fun _ _ heq => by cases heq) hdone
          · cases h
            exact hquiet _ (fun _ _ heq => by cases heq) hdone
  | unlock =>
      have hdone : ∀ l pos, (s.threads t).pc = .each l pos → (s.loggers l).appenders.length ≤ pos :=
        fun l pos heq => by rw [hpc] at heq; cases heq
      rw [hpc] at h
      dsimp only at h
      cases hheld : (s.threads t).held with
      | cons l rest =>
          rw [hheld] at h
          cases h
          exact .leave t l rest hpc hheld
      | nil =>
          rw [hheld] at h
          cases h
          exact .quiet t _ hheld.symm (Nat.le_succ _) (fun _ _ heq => by cases heq) hdone

theorem reconfigure_move {l : ι} {f : List α → List α} (h : s.reconfigure l f = some s') :
    Move s s' := by
  unfold State.reconfigure at h
  split at h
  · rename_i hfree
    cases h
    exact .settings l _ rfl (.inr hfree)
  · cases h

theorem step_move {a : Action ι α θ} (h : step s a = some s') : Move s s' := by
  cases a with
  | log t l level =>
      rw [step] at h
      split at h
      · rename_i hpc
        cases h
        refine .quiet t _ rfl le_rfl (fun _ _ heq => by cases heq) fun _ _ heq => ?_
        rw [hpc] at heq
        cases heq
      · cases h
  | next t => exact next_move h
  | setLevel l level =>
      cases h
      exact .settings l _ rfl (.inl rfl)
  | addAppender l a => exact reconfigure_move (f := (· ++ [a])) h
  | delAppender l a => exact reconfigure_move (f := (·.erase a)) h
  | clearAppenders l => exact reconfigure_move (f := fun _ => []) h

end Moves

/-! ## Locks -/

/-- A lock is held by the thread that lists it, and a loop runs under the lock of its logger. -/
structure Locked (s : State ι α θ) : Prop where
  holder : ∀ l t, (s.loggers l).mutex = some t ↔ l ∈ (s.threads t).held
  nodup : ∀ t, (s.threads t).held.Nodup
  looping : ∀ t l pos, (s.threads t).pc = .each l pos → l ∈ (s.threads t).held

theorem Locked.init (loggers : ι → Logger ι α θ) (levels : α → Nat) :
    Locked (.init loggers levels : State ι α θ) := by
  constructor
  · intro l t
    exact iff_of_false (fun h => by cases h) List.not_mem_nil
  · exact fun _ => List.nodup_nil
  · intro t l pos h
    cases h

/-- Two threads in loops of one logger are the same. -/
theorem Locked.alone {s : State ι α θ} (h : Locked s) {t t' : θ} {l : ι} {pos pos' : Nat}
    (hpc : (s.threads t).pc = .each l pos) (hpc' : (s.threads t').pc = .each l pos') : t = t' := by
  have hmutex := (h.holder l t).mpr (h.looping t l pos hpc)
  rw [(h.holder l t').mpr (h.looping t' l pos' hpc')] at hmutex
  exact (Option.some.inj hmutex).symm

section Locks

variable [DecidableEq θ] {s : State ι α θ}

/-- A thread that keeps its locks and runs no loop, or the same one. -/
theorem Locked.setThread (h : Locked s) {t : θ} {x : Thread ι}
    (hheld : x.held = (s.threads t).held)
    (hpc : ∀ l pos, x.pc = .each l pos → ∃ pos', (s.threads t).pc = .each l pos') :
    Locked (s.setThread t x) := by
  have hsame : ∀ t', ((s.setThread t x).threads t').held = (s.threads t').held := by
    intro t'
    rw [setThread_threads]
    split
    · rename_i ht
      rw [ht, hheld]
    · rfl
  constructor
  · intro l t'
    rw [hsame]
    exact h.holder l t'
  · intro t'
    rw [hsame]
    exact h.nodup t'
  · intro t' l pos hloop
    rw [hsame]
    rw [setThread_threads] at hloop
    split at hloop
    · rename_i ht
      obtain ⟨pos', hpos'⟩ := hpc l pos hloop
      exact ht ▸ h.looping t l pos' hpos'
    · exact h.looping t' l pos hloop

variable [DecidableEq ι]

theorem Locked.enter (h : Locked s) {t : θ} {l : ι} (hfree : (s.loggers l).mutex = none) :
    Locked (s.enter t l) := by
  have hnot : ∀ t', l ∉ (s.threads t').held := by
    intro t' hmem
    rw [(h.holder l t').mpr hmem] at hfree
    cases hfree
  constructor
  · intro l' t'
    rw [enter_loggers, enter_threads]
    by_cases hl : l' = l
    · rw [if_pos hl, hl, Option.some.injEq]
      by_cases ht : t' = t
      · rw [if_pos ht]
        exact iff_of_true ht.symm List.mem_cons_self
      · rw [if_neg ht]
        exact iff_of_false (Ne.symm ht) (hnot t')
    · rw [if_neg hl, h.holder l' t']
      split
      · rename_i ht
        rw [List.mem_cons, ht]
        exact (or_iff_right hl).symm
      · rfl
  · intro t'
    rw [enter_threads]
    split
    · exact List.nodup_cons.mpr ⟨hnot t, h.nodup t⟩
    · exact h.nodup t'
  · intro t' l' pos hloop
    rw [enter_threads] at hloop ⊢
    split at hloop
    · cases hloop
      rename_i ht
      rw [if_pos ht]
      exact List.mem_cons_self
    · rename_i ht
      rw [if_neg ht]
      exact h.looping t' l' pos hloop

theorem Locked.leave (h : Locked s) {t : θ} {l : ι} {rest : List ι}
    (hpc : (s.threads t).pc = .unlock) (hheld : (s.threads t).held = l :: rest) :
    Locked (s.leave t l rest) := by
  have hnodup := h.nodup t
  rw [hheld] at hnodup
  obtain ⟨hrest, hnodup⟩ := List.nodup_cons.mp hnodup
  have hholder : (s.loggers l).mutex = some t := (h.holder l t).mpr (hheld ▸ List.mem_cons_self)
  constructor
  · intro l' t'
    rw [leave_loggers, leave_threads]
    by_cases hl : l' = l
    · rw [if_pos hl, hl]
      refine iff_of_false (fun heq => by cases heq) ?_
      split
      · exact hrest
      · rename_i ht
        intro hmem
        have hsame := (h.holder l t').mpr hmem
        rw [hholder] at hsame
        exact ht (Option.some.inj hsame).symm
    · rw [if_neg hl, h.holder l' t']
      split
      · rename_i ht
        rw [ht, hheld, List.mem_cons]
        exact or_iff_right hl
      · rfl
  · intro t'
    rw [leave_threads]
    split
    · exact hnodup
    · exact h.nodup t'
  · intro t' l' pos hloop
    rw [leave_threads] at hloop ⊢
    split at hloop
    · rw [hpc] at hloop
      cases hloop
    · rename_i ht
      rw [if_neg ht]
      exact h.looping t' l' pos hloop

omit [DecidableEq θ] in
theorem Locked.settings (h : Locked s) {l : ι} {x : Logger ι α θ}
    (hmutex : x.mutex = (s.loggers l).mutex) :
    Locked { s with loggers := Function.update s.loggers l x } := by
  constructor
  · intro l' t'
    rw [← h.holder l' t']
    dsimp only
    rw [Function.update_apply]
    split
    · rename_i hl
      rw [hmutex, hl]
    · rfl
  · exact h.nodup
  · exact h.looping

variable [DecidableEq α] {s' : State ι α θ}

omit [DecidableEq θ] [DecidableEq ι] in
theorem Locked.write (h : Locked s) (t : θ) (l : ι) (a : α) : Locked (s.write t l a) := by
  constructor
  · intro l' t'
    rw [write_loggers, write_threads]
    exact h.holder l' t'
  · intro t'
    rw [write_threads]
    exact h.nodup t'
  · intro t' l' pos hloop
    rw [write_threads] at hloop ⊢
    exact h.looping t' l' pos hloop

theorem Locked.move (h : Locked s) (hmove : Move s s') : Locked s' := by
  cases hmove with
  | quiet t x hheld hcalls hpc hdone =>
      exact h.setThread hheld fun l pos heq => absurd heq (hpc l pos)
  | enter t l hpc hfree => exact h.enter hfree
  | write t l pos a hpc ha =>
      refine (h.write t l a).setThread rfl fun l' pos' heq => ?_
      cases heq
      exact ⟨pos, by rw [write_threads, hpc]⟩
  | leave t l rest hpc hheld => exact h.leave hpc hheld
  | settings l x hmutex hsame => exact h.settings hmutex

end Locks

/-! ## Texts of sections -/

section Texts

variable [DecidableEq α]

/-- The texts that a section, or the rest of one, has for `a`. -/
def Section.texts (levels : α → Nat) (a : α) (x : Section ι α θ) : List (Text ι θ) :=
  if levels a ≤ x.level then List.replicate (x.appenders.count a) x.text else []

theorem Section.texts_nil (levels : α → Nat) (a : α) {x : Section ι α θ} (h : x.appenders = []) :
    x.texts levels a = [] := by
  rw [Section.texts, h, List.count_nil]
  split <;> rfl

theorem Section.texts_cons (levels : α → Nat) (a b : α) (text : Text ι θ) (level : Nat)
    (rest : List α) :
    Section.texts levels a ⟨text, level, b :: rest⟩ =
      (if a = b ∧ levels b ≤ level then [text] else []) ++
        Section.texts levels a ⟨text, level, rest⟩ := by
  unfold Section.texts
  by_cases ha : a = b
  · rw [← ha]
    by_cases hlevel : levels a ≤ level
    · rw [if_pos hlevel, if_pos ⟨rfl, hlevel⟩, if_pos hlevel, List.count_cons_self,
        List.replicate_succ]
      rfl
    · rw [if_neg hlevel, if_neg fun h => hlevel h.2, if_neg hlevel]
      rfl
  · have hother : ¬ (a = b ∧ levels b ≤ level) := fun h => ha h.1
    rw [if_neg hother, List.nil_append]
    dsimp only
    rw [List.count_cons_of_ne (Ne.symm ha)]

theorem Section.eq_of_mem_texts {levels : α → Nat} {a : α} {x : Section ι α θ} {y : Text ι θ}
    (h : y ∈ x.texts levels a) : y = x.text := by
  unfold Section.texts at h
  split at h
  · exact List.eq_of_mem_replicate h
  · cases h

theorem Section.filter_texts (levels : α → Nat) (a : α) (x : Section ι α θ)
    (p : Text ι θ → Bool) :
    (x.texts levels a).filter p = if p x.text then x.texts levels a else [] := by
  split
  · rename_i hp
    exact List.filter_eq_self.mpr fun y hy => Section.eq_of_mem_texts hy ▸ hp
  · rename_i hp
    exact List.filter_eq_nil_iff.mpr fun y hy => Section.eq_of_mem_texts hy ▸ hp

/-- The texts of all sections for `a`, in the order in which the locks were taken. -/
def State.due (s : State ι α θ) (a : α) : List (Text ι θ) :=
  s.sections.flatMap (·.texts s.levels a)

end Texts

def State.left (s : State ι α θ) (t : θ) : Option (Section ι α θ) :=
  match (s.threads t).pc with
  | .each l pos =>
      some ⟨s.text t l, (s.threads t).level, (s.loggers l).appenders.drop pos⟩
  | _ => none

theorem left_each {s : State ι α θ} {t : θ} {l : ι} {pos : Nat}
    (h : (s.threads t).pc = .each l pos) :
    s.left t =
      some ⟨s.text t l, (s.threads t).level, (s.loggers l).appenders.drop pos⟩ := by
  rw [State.left, h]

theorem left_none {s : State ι α θ} {t : θ} (h : ∀ l pos, (s.threads t).pc ≠ .each l pos) :
    s.left t = none := by
  unfold State.left
  split
  · rename_i l pos hpc
    exact absurd hpc (h l pos)
  · rfl

theorem left_spec {s : State ι α θ} {t : θ} {x : Section ι α θ} (h : s.left t = some x) :
    ∃ pos, (s.threads t).pc = .each x.text.logger pos ∧ x.text.thread = t ∧
      x.appenders = (s.loggers x.text.logger).appenders.drop pos := by
  unfold State.left at h
  split at h <;> cases h
  rename_i l pos hpc
  exact ⟨pos, hpc, rfl, rfl⟩

theorem left_congr {s s' : State ι α θ} {t : θ} (hthread : s'.threads t = s.threads t)
    (happenders : ∀ l pos, (s.threads t).pc = .each l pos →
      (s'.loggers l).appenders = (s.loggers l).appenders) : s'.left t = s.left t := by
  unfold State.left State.text
  rw [hthread]
  cases hpc : (s.threads t).pc with
  | each l pos =>
      dsimp only
      rw [happenders l pos hpc]
  | idle => rfl
  | test l => rfl
  | lock l => rfl
  | unlock => rfl

/-- At most one thread is in a section with texts in `p`. -/
def Alone (p : Text ι θ → Bool) (s : State ι α θ) : Prop :=
  ∀ t t' x x', s.left t = some x → s.left t' = some x' → p x.text = true → p x'.text = true → t = t'

/-- The texts of a thread are of one section at a time. -/
theorem alone_thread [DecidableEq θ] (s : State ι α θ) (t : θ) :
    Alone (fun x => decide (x.thread = t)) s := by
  intro t₁ t₂ x₁ x₂ h₁ h₂ hp₁ hp₂
  obtain ⟨-, -, ht₁, -⟩ := left_spec h₁
  obtain ⟨-, -, ht₂, -⟩ := left_spec h₂
  rw [← ht₁, ← ht₂, of_decide_eq_true hp₁, of_decide_eq_true hp₂]

/-- The texts of a logger are of one section at a time: the lock is held over the loop. -/
theorem Locked.alone_logger [DecidableEq ι] {s : State ι α θ} (h : Locked s) (l : ι) :
    Alone (fun x => decide (x.logger = l)) s := by
  intro t₁ t₂ x₁ x₂ h₁ h₂ hp₁ hp₂
  obtain ⟨pos₁, hpc₁, -⟩ := left_spec h₁
  obtain ⟨pos₂, hpc₂, -⟩ := left_spec h₂
  rw [of_decide_eq_true hp₁] at hpc₁
  rw [of_decide_eq_true hp₂] at hpc₂
  exact h.alone hpc₁ hpc₂

section Lefts

variable [DecidableEq θ]

theorem write_left [DecidableEq α] (s : State ι α θ) (t : θ) (l : ι) (a : α) (pos : Nat) :
    ((s.write t l a).goto t (.each l pos)).left t =
      some ⟨s.text t l, (s.threads t).level, (s.loggers l).appenders.drop pos⟩ := by
  have hthread : ((s.write t l a).goto t (.each l pos)).threads t =
      { s.threads t with pc := .each l pos } := by
    rw [State.goto, setThread_threads, if_pos rfl, write_threads]
  have hloggers : ((s.write t l a).goto t (.each l pos)).loggers = s.loggers := write_loggers ..
  rw [left_each (by rw [hthread]), State.text, State.text, hthread, hloggers]

theorem write_left_ne [DecidableEq α] (s : State ι α θ) {t t' : θ} (l : ι) (a : α) (pos : Nat)
    (ht : t' ≠ t) : ((s.write t l a).goto t (.each l pos)).left t' = s.left t' := by
  refine left_congr ?_ fun l' _ _ => ?_
  · rw [State.goto, setThread_threads, if_neg ht, write_threads]
  · exact congrArg (fun loggers => (loggers l').appenders) (write_loggers s t l a)

variable [DecidableEq ι]

theorem enter_left (s : State ι α θ) (t : θ) (l : ι) :
    (s.enter t l).left t =
      some ⟨s.text t l, (s.threads t).level, (s.loggers l).appenders⟩ := by
  have hthread := enter_threads s t l t
  rw [if_pos rfl] at hthread
  have hpc : ((s.enter t l).threads t).pc = .each l 0 := by rw [hthread]
  rw [left_each hpc, enter_appenders, List.drop_zero, State.text, State.text, hthread]

theorem enter_left_ne (s : State ι α θ) {t t' : θ} (l : ι) (ht : t' ≠ t) :
    (s.enter t l).left t' = s.left t' :=
  left_congr ((enter_threads s t l t').trans (if_neg ht)) fun _ _ _ => enter_appenders ..

end Lefts

/-! ## Streams -/

section Streams

variable [DecidableEq α]

/-- Texts of which at most one section is open at a time are written in the order in which the
sections were entered. -/
structure Written (p : Text ι θ → Bool) (s : State ι α θ) : Prop where
  running : ∀ t x, s.left t = some x → p x.text = true → ∀ a,
    (s.stream a).filter p ++ x.texts s.levels a = (s.due a).filter p
  resting : (∀ t x, s.left t = some x → p x.text = false) → ∀ a,
    (s.stream a).filter p = (s.due a).filter p

theorem Written.init (p : Text ι θ → Bool) (loggers : ι → Logger ι α θ) (levels : α → Nat) :
    Written p (.init loggers levels : State ι α θ) where
  running := fun _ _ h => by cases h
  resting := fun _ _ => rfl

variable {p : Text ι θ → Bool} {s s' : State ι α θ}

/-- What a thread in a section still writes to `a`. -/
def State.pending (s : State ι α θ) (t : θ) (a : α) : List (Text ι θ) :=
  (s.left t).elim [] (·.texts s.levels a)

theorem Written.thread [DecidableEq θ] {t : θ}
    (h : Written (fun x => decide (x.thread = t)) s) (a : α) :
    (s.stream a).filter (·.thread = t) ++ s.pending t a = (s.due a).filter (·.thread = t) := by
  unfold State.pending
  cases hleft : s.left t with
  | some x =>
      obtain ⟨-, -, ht, -⟩ := left_spec hleft
      exact h.running t x hleft (decide_eq_true ht) a
  | none =>
      refine (List.append_nil _).trans (h.resting (fun t' x hx => ?_) a)
      obtain ⟨-, -, ht, -⟩ := left_spec hx
      refine decide_eq_false fun heq => ?_
      rw [← ht, heq, hleft] at hx
      cases hx

theorem Written.logger [DecidableEq ι] {l : ι}
    (h : Written (fun x => decide (x.logger = l)) s) (a : α) :
    (s.stream a).filter (·.logger = l) <+: (s.due a).filter (·.logger = l) := by
  by_cases hopen : ∃ t x, s.left t = some x ∧ x.text.logger = l
  · obtain ⟨t, x, hx, hl⟩ := hopen
    exact ⟨_, h.running t x hx (decide_eq_true hl) a⟩
  · refine (h.resting (fun t x hx => ?_) a).symm ▸ List.prefix_refl _
    exact decide_eq_false fun hl => hopen ⟨t, x, hx, hl⟩

/-- A step that is seen in no section and no stream. -/
theorem Written.same (h : Written p s) (hleft : ∀ t, s'.left t = s.left t)
    (hstream : s'.stream = s.stream) (hdue : s'.due = s.due) (hlevels : s'.levels = s.levels) :
    Written p s' := by
  constructor
  · intro t x hx
    rw [hleft] at hx
    rw [hstream, hdue, hlevels]
    exact h.running t x hx
  · intro hnone
    rw [hstream, hdue]
    exact h.resting fun t x hx => hnone t x (hleft t ▸ hx)

/-- A thread that comes to the end of its section, or was in none. -/
theorem Written.close (h : Written p s) {t : θ} (hleft : ∀ t', t' ≠ t → s'.left t' = s.left t')
    (hdone : ∀ x, s.left t = some x → x.appenders = []) (hnone : s'.left t = none)
    (hstream : s'.stream = s.stream) (hdue : s'.due = s.due) (hlevels : s'.levels = s.levels) :
    Written p s' := by
  constructor
  · intro t' x hx
    by_cases ht : t' = t
    · rw [ht, hnone] at hx
      cases hx
    · rw [hleft t' ht] at hx
      rw [hstream, hdue, hlevels]
      exact h.running t' x hx
  · intro hothers a
    rw [hstream, hdue]
    by_cases hopen : ∃ x, s.left t = some x ∧ p x.text = true
    · obtain ⟨x, hx, hp⟩ := hopen
      have hrun := h.running t x hx hp a
      rwa [Section.texts_nil _ _ (hdone x hx), List.append_nil] at hrun
    · refine h.resting (fun t' x hx => ?_) a
      by_cases ht : t' = t
      · exact Bool.not_eq_true _ ▸ fun hp => hopen ⟨x, ht ▸ hx, hp⟩
      · exact hothers t' x (hleft t' ht ▸ hx)

variable [DecidableEq ι] [DecidableEq θ]

theorem enter_due (s : State ι α θ) (t : θ) (l : ι) (a : α) :
    (s.enter t l).due a = s.due a ++
      Section.texts s.levels a ⟨s.text t l, (s.threads t).level, (s.loggers l).appenders⟩ := by
  unfold State.due State.enter
  rw [List.flatMap_append, List.flatMap_singleton]

theorem Written.enter (h : Written p s) {t : θ} {l : ι} (hpc : (s.threads t).pc = .lock l)
    (halone : Alone p (s.enter t l)) : Written p (s.enter t l) := by
  have hleft : s.left t = none := left_none fun _ _ heq => by rw [hpc] at heq; cases heq
  have hstay : ∀ t' x, (s.enter t l).left t' = some x → t' ≠ t → s.left t' = some x := by
    intro t' x hx ht
    rwa [enter_left_ne s l ht] at hx
  by_cases hp : p (s.text t l) = true
  · -- the new section is the one that is open
    have hnone : ∀ t' x, s.left t' = some x → p x.text = false := by
      intro t' x hx
      refine Bool.not_eq_true _ ▸ fun hpx => ?_
      have ht : t' ≠ t := fun ht => by rw [ht, hleft] at hx; cases hx
      exact ht (halone t' t x _ (by rw [enter_left_ne s l ht, hx]) (enter_left s t l) hpx hp)
    have hdue : ∀ a, ((s.enter t l).due a).filter p = (s.stream a).filter p ++
        Section.texts s.levels a ⟨s.text t l, (s.threads t).level, (s.loggers l).appenders⟩ := by
      intro a
      rw [enter_due, List.filter_append, Section.filter_texts, if_pos hp, h.resting hnone a]
    constructor
    · intro t' x hx hpx a
      have ht := halone t' t x _ hx (enter_left s t l) hpx hp
      rw [ht, enter_left] at hx
      cases hx
      exact (hdue a).symm
    · intro hothers
      have hfalse := hothers t _ (enter_left s t l)
      rw [hp] at hfalse
      cases hfalse
  · have hdue : ∀ a, ((s.enter t l).due a).filter p = (s.due a).filter p := by
      intro a
      rw [enter_due, List.filter_append, Section.filter_texts, if_neg hp, List.append_nil]
    constructor
    · intro t' x hx hpx a
      rw [hdue]
      refine h.running t' x (hstay t' x hx fun ht => ?_) hpx a
      rw [ht, enter_left] at hx
      cases hx
      exact hp hpx
    · intro hothers a
      rw [hdue]
      refine h.resting (fun t' x hx => hothers t' x ?_) a
      have ht : t' ≠ t := fun ht => by rw [ht, hleft] at hx; cases hx
      rw [enter_left_ne s l ht, hx]

omit [DecidableEq ι] in
theorem Written.write (h : Written p s) (halone : Alone p s) {t : θ} {l : ι} {pos : Nat} {a : α}
    (hpc : (s.threads t).pc = .each l pos) (ha : (s.loggers l).appenders[pos]? = some a) :
    Written p ((s.write t l a).goto t (.each l (pos + 1))) := by
  have hleft : s.left t = some ⟨s.text t l, (s.threads t).level,
      a :: (s.loggers l).appenders.drop (pos + 1)⟩ := by
    obtain ⟨hlt, hget⟩ := List.getElem?_eq_some_iff.mp ha
    rw [left_each hpc, List.drop_eq_getElem_cons hlt, hget]
  have hleft' := write_left s t l a (pos + 1)
  have hstream : ∀ a', ((s.write t l a).goto t (.each l (pos + 1))).stream a' =
      s.stream a' ++ if a' = a ∧ s.levels a ≤ (s.threads t).level then [s.text t l] else [] :=
    write_stream s t l a
  have hlevels : ((s.write t l a).goto t (.each l (pos + 1))).levels = s.levels := write_levels ..
  have hdue : ((s.write t l a).goto t (.each l (pos + 1))).due = s.due := by
    unfold State.due
    rw [hlevels]
    exact funext fun a' => congrArg _ (write_sections s t l a)
  by_cases hp : p (s.text t l) = true
  · have honly : ∀ t' x, ((s.write t l a).goto t (.each l (pos + 1))).left t' = some x →
        p x.text = true → t' = t := by
      intro t' x hx hpx
      by_contra ht
      rw [write_left_ne s l a (pos + 1) ht] at hx
      exact ht (halone t' t x _ hx hleft hpx hp)
    constructor
    · intro t' x hx hpx a'
      rw [honly t' x hx hpx, hleft'] at hx
      cases hx
      have hrun := h.running t _ hleft hp a'
      rw [Section.texts_cons] at hrun
      rw [hstream, hdue, hlevels, ← hrun, List.filter_append, List.append_assoc]
      congr 2
      split
      · exact List.filter_cons_of_pos hp
      · rfl
    · intro hothers
      have hfalse := hothers t _ hleft'
      rw [hp] at hfalse
      cases hfalse
  · have hsame : ∀ a', (((s.write t l a).goto t (.each l (pos + 1))).stream a').filter p =
        (s.stream a').filter p := by
      intro a'
      rw [hstream, List.filter_append]
      refine (congrArg _ (List.filter_eq_nil_iff.mpr fun y hy => ?_)).trans (List.append_nil _)
      split at hy
      · exact List.mem_singleton.mp hy ▸ hp
      · cases hy
    constructor
    · intro t' x hx hpx a'
      have ht : t' ≠ t := by
        intro ht
        rw [ht, hleft'] at hx
        cases hx
        exact hp hpx
      rw [write_left_ne s l a (pos + 1) ht] at hx
      rw [hsame, hdue, hlevels]
      exact h.running t' x hx hpx a'
    · intro hothers a'
      rw [hsame, hdue]
      refine h.resting (fun t' x hx => ?_) a'
      by_cases ht : t' = t
      · rw [ht, hleft] at hx
        cases hx
        exact Bool.eq_false_iff.mpr hp
      · exact hothers t' x (by rw [write_left_ne s l a (pos + 1) ht, hx])

theorem Written.move (h : Written p s) (hlocked : Locked s) (halone : Alone p s)
    (halone' : Alone p s') (hmove : Move s s') : Written p s' := by
  cases hmove with
  | quiet t x hheld hcalls hpc hdone =>
      refine h.close (t := t) (fun t' ht => ?_) (fun y hy => ?_) ?_ rfl rfl rfl
      · exact left_congr ((setThread_threads ..).trans (if_neg ht)) fun _ _ _ => rfl
      · obtain ⟨pos, hpos, -, happenders⟩ := left_spec hy
        rw [happenders]
        exact List.drop_eq_nil_of_le (hdone _ pos hpos)
      · refine left_none fun l pos => ?_
        rw [setThread_threads, if_pos rfl]
        exact hpc l pos
  | enter t l hpc hfree => exact h.enter hpc halone'
  | write t l pos a hpc ha => exact h.write halone hpc ha
  | leave t l rest hpc hheld =>
      refine h.same (fun t' => ?_) rfl rfl rfl
      by_cases ht : t' = t
      · have hnone : ∀ l' pos, (s.threads t).pc ≠ .each l' pos :=
          fun _ _ heq => by rw [hpc] at heq; cases heq
        rw [ht, left_none hnone]
        refine left_none fun l' pos => ?_
        rw [leave_threads, if_pos rfl]
        exact hnone l' pos
      · exact left_congr ((leave_threads ..).trans (if_neg ht)) fun _ _ _ => leave_appenders ..
  | settings l x hmutex hsame =>
      refine h.same (fun t' => left_congr rfl fun l' pos hpc => ?_) rfl rfl rfl
      dsimp only
      rw [Function.update_apply]
      split
      · rename_i hl
        obtain hsame | hfree := hsame
        · rw [hsame, hl]
        · -- the loop runs under the lock
          rw [← hl, (hlocked.holder l' t').mpr (hlocked.looping t' l' pos hpc)] at hfree
          cases hfree
      · rfl

end Streams

/-! ## Order of the calls of a thread -/

structure Numbered (s : State ι α θ) : Prop where
  ordered : s.sections.Pairwise fun x y =>
    x.text.thread = y.text.thread → x.text.number ≤ y.text.number
  begun : ∀ x ∈ s.sections, x.text.number ≤ (s.threads x.text.thread).calls

theorem Numbered.init (loggers : ι → Logger ι α θ) (levels : α → Nat) :
    Numbered (.init loggers levels : State ι α θ) where
  ordered := List.Pairwise.nil
  begun := fun _ hx => absurd hx List.not_mem_nil

section Order

variable [DecidableEq α]

theorem Numbered.due {s : State ι α θ} (h : Numbered s) (a : α) :
    (s.due a).Pairwise fun x y => x.thread = y.thread → x.number ≤ y.number := by
  refine List.pairwise_flatMap.mpr ⟨fun x _ => ?_, h.ordered.imp fun hxy => ?_⟩
  · refine List.Pairwise.imp_of_mem (fun hy hz _ => ?_) (List.pairwise_of_forall fun _ _ => trivial)
    rw [Section.eq_of_mem_texts hy, Section.eq_of_mem_texts hz]
    exact fun _ => le_rfl
  · intro y hy z hz
    rw [Section.eq_of_mem_texts hy, Section.eq_of_mem_texts hz]
    exact hxy

variable [DecidableEq θ]

theorem pairwise_of_threads {r : Text ι θ → Text ι θ → Prop} {texts : List (Text ι θ)}
    (h : ∀ t, (texts.filter (·.thread = t)).Pairwise r) :
    texts.Pairwise fun x y => x.thread = y.thread → r x y := by
  refine List.pairwise_iff_getElem.mpr fun i j hi hj hij heq => ?_
  have hthread := List.pairwise_iff_getElem.mp (List.pairwise_filter.mp (h texts[j].thread))
  exact hthread i j hi hj hij (decide_eq_true heq) (decide_eq_true rfl)

variable [DecidableEq ι] {s s' : State ι α θ}

omit [DecidableEq α] [DecidableEq ι] in
/-- A thread that is changed does not go back in its calls. -/
theorem calls_le_ite (s : State ι α θ) {t : θ} {x : Thread ι}
    (hcalls : (s.threads t).calls ≤ x.calls) (t' : θ) :
    (s.threads t').calls ≤ (if t' = t then x else s.threads t').calls := by
  split
  · rename_i ht
    exact ht ▸ hcalls
  · exact le_rfl

theorem Numbered.move (h : Numbered s) (hmove : Move s s') : Numbered s' := by
  have hkeep : s'.sections = s.sections →
      (∀ t, (s.threads t).calls ≤ (s'.threads t).calls) → Numbered s' := by
    intro hsections hcalls
    constructor
    · rw [hsections]
      exact h.ordered
    · intro x hx
      rw [hsections] at hx
      exact (h.begun x hx).trans (hcalls _)
  cases hmove with
  | quiet t x hheld hcalls hpc hdone =>
      refine hkeep rfl fun t' => ?_
      rw [setThread_threads]
      exact calls_le_ite s hcalls t'
  | enter t l hpc hfree =>
      have hcalls : ∀ t', (s.threads t').calls ≤ ((s.enter t l).threads t').calls := by
        intro t'
        rw [enter_threads]
        exact calls_le_ite s (by rfl) t'
      constructor
      · refine List.pairwise_append.mpr ⟨h.ordered, List.pairwise_singleton _ _, ?_⟩
        intro x hx y hy heq
        rw [List.mem_singleton.mp hy] at heq ⊢
        exact (h.begun x hx).trans_eq (by rw [heq]; rfl)
      · intro x hx
        obtain hx | hx := List.mem_append.mp hx
        · exact (h.begun x hx).trans (hcalls _)
        · rw [List.mem_singleton.mp hx]
          exact hcalls t
  | write t l pos a hpc ha =>
      refine hkeep (write_sections s t l a) fun t' => ?_
      rw [State.goto, setThread_threads, write_threads]
      exact calls_le_ite s (by rfl) t'
  | leave t l rest hpc hheld =>
      refine hkeep rfl fun t' => ?_
      rw [leave_threads]
      exact calls_le_ite s (by rfl) t'
  | settings l x hmutex hsame => exact hkeep rfl fun _ => le_rfl

/-! ## Every run -/

structure Kept (s : State ι α θ) : Prop where
  locked : Locked s
  numbered : Numbered s
  byThread : ∀ t, Written (fun x => decide (x.thread = t)) s
  byLogger : ∀ l, Written (fun x => decide (x.logger = l)) s

theorem kept_step : Transition.Preserves (step (ι := ι)) Free (Kept (α := α) (θ := θ)) := by
  intro s a s' h _ hs
  have hmove := step_move hs
  have hlocked := h.locked.move hmove
  exact {
    locked := hlocked
    numbered := h.numbered.move hmove
    byThread := fun t =>
      (h.byThread t).move h.locked (alone_thread s t) (alone_thread s' t) hmove
    byLogger := fun l =>
      (h.byLogger l).move h.locked (h.locked.alone_logger l) (hlocked.alone_logger l) hmove }

theorem kept {loggers : ι → Logger ι α θ} {levels : α → Nat}
    (h : Reaches step Free (.init loggers levels) s) : Kept s :=
  h.invariant kept_step {
    locked := .init loggers levels
    numbered := .init loggers levels
    byThread := fun _ => .init _ loggers levels
    byLogger := fun _ => .init _ loggers levels }

/-- In every run of threads that log and of changes to the loggers, a thread has written to each
appender what the sections it was in have for it, each text as often as the section found the
appender, but for the rest of the section it is in; the texts of a logger stand in the order in
which its lock was taken, and all of them are written when it is free; those of a thread stand in
the order of its calls. -/
theorem streams_complete {loggers : ι → Logger ι α θ} {levels : α → Nat}
    (h : Reaches step Free (.init loggers levels) s) :
    (∀ t a, (s.stream a).filter (·.thread = t) ++ s.pending t a =
      (s.due a).filter (·.thread = t)) ∧
    (∀ l a, (s.stream a).filter (·.logger = l) <+: (s.due a).filter (·.logger = l)) ∧
    (∀ l a, (s.loggers l).mutex = none →
      (s.stream a).filter (·.logger = l) = (s.due a).filter (·.logger = l)) ∧
    ∀ a, (s.stream a).Pairwise fun x y => x.thread = y.thread → x.number ≤ y.number := by
  have hkept := kept h
  refine ⟨fun t a => (hkept.byThread t).thread a, fun l a => (hkept.byLogger l).logger a,
    fun l a hfree => ?_, fun a => ?_⟩
  · refine (hkept.byLogger l).resting (fun t x hx => ?_) a
    obtain ⟨pos, hpc, -⟩ := left_spec hx
    refine decide_eq_false fun hl => ?_
    rw [hl] at hpc
    rw [(hkept.locked.holder l t).mpr (hkept.locked.looping t l pos hpc)] at hfree
    cases hfree
  · refine (pairwise_of_threads (r := fun x y => x.thread = y.thread → x.number ≤ y.number)
      fun t => ?_).imp fun hxy heq => hxy heq heq
    exact ((hkept.numbered.due a).sublist List.filter_sublist).sublist
      (List.IsPrefix.sublist ⟨_, (hkept.byThread t).thread a⟩)

end Order

/-- A logger with two appenders, and one without appenders below it. -/
def pair : Bool → Logger Bool Bool Bool
  | false => ⟨1, [false, true], none, none⟩
  | true => ⟨0, [], some false, none⟩

/-- One thread logs twice; the call of the other one goes from the lower logger to its root. -/
def pairRun : List (Action Bool Bool Bool) :=
  [.log false true 3, .log true false 2, .next false, .next false, .next true, .next true,
    .next true, .next false, .next false, .next true, .next true, .next true, .next true,
    .next false, .setLevel false 5, .next false, .log true false 4]

theorem streams_complete_pair : ∃ s : State Bool Bool Bool,
    Reaches step Free (.init pair fun a => if a then 1 else 0) s ∧
      s.pending false true = [⟨false, 0, false⟩] ∧
      s.stream true ++ s.pending false true = [⟨true, 0, false⟩, ⟨false, 0, false⟩] ∧
      (s.stream true).filter (·.thread = false) ++ s.pending false true =
        (s.due true).filter (·.thread = false) := by
  have hrun : (run step (.init pair fun a => if a then 1 else 0) pairRun).any (fun s => decide
      (s.pending false true = [⟨false, 0, false⟩] ∧
        s.stream true ++ s.pending false true = [⟨true, 0, false⟩, ⟨false, 0, false⟩])) = true := by
    decide
  obtain ⟨s, hs, hpending, hstream⟩ := exists_some_of_any hrun
  exact ⟨s, .of_run hs, hpending, hstream, (streams_complete (.of_run hs)).1 false true⟩

end Sylar.Streams
