import Sylar.Config.Registry
import Sylar.Sync.Lock

/-! # Calls that overlap

A thread enters the section of a call when its lock admits it, and leaves it with the answer. The
locks keep apart what they are meant to, but for two calls: `clearListener` changes the listeners
under a lock that readers share, and `addListener` counts with a static member for all variables of
a type, each of which has its own lock. Threads that keep these apart are answered as the history
of the calls promises.

A listener, or the visitor of `Visit`, may make calls of its own within the section.
-/

namespace Sylar.Registry

open Transition
open Sync (Mode)

variable {τ ι κ : Type} {V : τ → Type}

/-! ## Locks and data -/

/-- `Config::GetMutex()`, and the mutex of a variable. -/
inductive Lock where
  | config
  | var (p : Nat)
  deriving DecidableEq, Repr

def Call.lock : Call V κ → Lock
  | .lookup _ _ | .find _ _ | .lookupBase _ | .visit _ => .config
  | .getValue p | .compare p _ _ | .assign p _ => .var p
  | .addListener _ p _ | .delListener p _ | .getListener p _ | .clearListener p => .var p

def Call.mode : Call V κ → Mode
  | .lookup _ _ | .assign _ _ | .addListener _ _ _ | .delListener _ _ => .exclusive
  | .find _ _ | .lookupBase _ | .visit _ | .getValue _ | .compare _ _ _ => .shared
  | .getListener _ _ | .clearListener _ => .shared

inductive Datum (τ : Type) where
  | datas
  | val (p : Nat)
  | cbs (p : Nat)
  | funId (t : τ)
  deriving DecidableEq

/-- With `true` for what it writes. -/
def Call.touches : Call V κ → List (Datum τ × Bool)
  | .lookup _ _ => [(.datas, true)]
  | .find _ _ | .lookupBase _ | .visit _ => [(.datas, false)]
  | .getValue p => [(.val p, false)]
  | .compare p _ _ => [(.val p, false), (.cbs p, false)]
  | .assign p _ => [(.val p, true)]
  | .addListener t p _ => [(.funId t, true), (.cbs p, true)]
  | .delListener p _ => [(.cbs p, true)]
  | .getListener p _ => [(.cbs p, false)]
  | .clearListener p => [(.cbs p, true)]

def Call.excludes (c c' : Call V κ) : Bool :=
  decide (c.lock = c'.lock ∧ ¬ (c.mode = .shared ∧ c'.mode = .shared))

/-- The two sections touch the same thing, and one writes it. -/
def Call.races [DecidableEq τ] (c c' : Call V κ) : Bool :=
  c.touches.any fun x => c'.touches.any fun y => decide (x.1 = y.1) && (x.2 || y.2)

/-! ## The calls that their locks do not keep apart -/

def Call.listeners : Call V κ → Option Nat
  | .compare p _ _ | .addListener _ p _ | .delListener p _ | .getListener p _ => some p
  | .clearListener p => some p
  | _ => none

def Call.clears : Call V κ → Bool
  | .clearListener _ => true
  | _ => false

def Call.counts : Call V κ → Option τ
  | .addListener t _ _ => some t
  | _ => none

/-- The listeners are cleared while they are used, or the keys of one type are counted twice. -/
def Call.Meets (c c' : Call V κ) : Prop :=
  ((c.clears = true ∨ c'.clears = true) ∧ c.listeners.isSome ∧ c.listeners = c'.listeners) ∨
    c.counts.isSome ∧ c.counts = c'.counts

instance [DecidableEq τ] (c c' : Call V κ) : Decidable (c.Meets c') :=
  inferInstanceAs (Decidable (_ ∨ _ ∧ _))

def Datum.lock : Datum τ → Option Lock
  | .datas => some .config
  | .val p => some (.var p)
  | .cbs p => some (.var p)
  | .funId _ => none

/-- A section touches what its lock guards, and writes it alone unless it clears; the counter of
its type it touches besides. -/
theorem Call.touches_spec (c : Call V κ) {x : Datum τ × Bool} (hx : x ∈ c.touches) :
    x.1.lock = some c.lock ∧
      (x.2 = true → c.mode = .exclusive ∨ c.clears = true ∧ ∃ p, x.1 = .cbs p) ∨
    ∃ t, x.1 = .funId t ∧ c.counts = some t := by
  cases c with
  | compare p val thrown =>
      rcases List.mem_cons.mp hx with rfl | hx
      · exact .inl ⟨rfl, nofun⟩
      · cases List.mem_singleton.mp hx
        exact .inl ⟨rfl, nofun⟩
  | addListener t p cb =>
      rcases List.mem_cons.mp hx with rfl | hx
      · exact .inr ⟨t, rfl, rfl⟩
      · cases List.mem_singleton.mp hx
        exact .inl ⟨rfl, fun _ => .inl rfl⟩
  | clearListener p =>
      cases List.mem_singleton.mp hx
      exact .inl ⟨rfl, fun _ => .inr ⟨rfl, p, rfl⟩⟩
  | lookup name default | assign p val | delListener p key =>
      cases List.mem_singleton.mp hx
      exact .inl ⟨rfl, fun _ => .inl rfl⟩
  | find name t | lookupBase name | visit order | getValue p | getListener p key =>
      cases List.mem_singleton.mp hx
      exact .inl ⟨rfl, nofun⟩

theorem Call.touches_cbs (c : Call V κ) {p : Nat} :
    (∃ w, (Datum.cbs p, w) ∈ c.touches) ↔ c.listeners = some p := by
  cases c <;> simp [Call.touches, Call.listeners, eq_comm]

theorem Call.touches_clear {c : Call V κ} (hc : c.clears = true) {p : Nat}
    (hp : c.listeners = some p) : (Datum.cbs p, true) ∈ c.touches := by
  cases c with
  | clearListener q =>
      cases hp
      exact List.mem_singleton.mpr rfl
  | _ => cases hc

theorem Call.touches_count {c : Call V κ} {t : τ} (hc : c.counts = some t) :
    (Datum.funId t, true) ∈ c.touches := by
  cases c with
  | addListener t' p cb =>
      cases hc
      exact List.mem_cons_self
  | _ => cases hc

section Races

variable [DecidableEq τ] {c c' : Call V κ}

theorem Call.races_iff : c.races c' = true ↔
    ∃ x ∈ c.touches, ∃ y ∈ c'.touches, x.1 = y.1 ∧ (x.2 = true ∨ y.2 = true) := by
  simp [Call.races, List.any_eq_true]

/-- Sections that may be open at once race exactly where they meet. -/
theorem Call.races_iff_meets (h : c.excludes c' = false) : c.races c' = true ↔ c.Meets c' := by
  rw [Call.races_iff]
  constructor
  · rintro ⟨x, hx, y, hy, hxy, hwrite⟩
    rcases c.touches_spec hx with ⟨hlock, halone⟩ | ⟨t, ht, hcount⟩
    · rcases c'.touches_spec hy with ⟨hlock', halone'⟩ | ⟨t, ht, -⟩
      · have hsame : c.lock = c'.lock := by
          rw [hxy, hlock'] at hlock
          exact (Option.some.inj hlock).symm
        have hshared : c.mode = .shared ∧ c'.mode = .shared :=
          not_not.mp fun hn => of_decide_eq_false h ⟨hsame, hn⟩
        -- the writer clears the listeners
        obtain ⟨hclears, p, hp⟩ : (c.clears = true ∨ c'.clears = true) ∧ ∃ p, x.1 = .cbs p := by
          rcases hwrite with hw | hw
          · obtain ⟨hclears, hp⟩ := (halone hw).resolve_left (by rw [hshared.1]; decide)
            exact ⟨.inl hclears, hp⟩
          · obtain ⟨hclears, hp⟩ := (halone' hw).resolve_left (by rw [hshared.2]; decide)
            exact ⟨.inr hclears, hxy ▸ hp⟩
        have hl : c.listeners = some p := c.touches_cbs.mp ⟨x.2, hp ▸ hx⟩
        have hl' : c'.listeners = some p := c'.touches_cbs.mp ⟨y.2, (hxy ▸ hp : y.1 = _) ▸ hy⟩
        exact .inl ⟨hclears, by rw [hl]; rfl, hl.trans hl'.symm⟩
      · rw [hxy, ht] at hlock
        cases hlock
    · rcases c'.touches_spec hy with ⟨hlock', -⟩ | ⟨t', ht', hcount'⟩
      · rw [← hxy, ht] at hlock'
        cases hlock'
      · rw [hxy, ht'] at ht
        cases ht
        exact .inr ⟨by rw [hcount]; rfl, hcount.trans hcount'.symm⟩
  · rintro (⟨hclears, hsome, hsame⟩ | ⟨hsome, hsame⟩)
    · obtain ⟨p, hp⟩ := Option.isSome_iff_exists.mp hsome
      obtain ⟨w, hw⟩ := c.touches_cbs.mpr hp
      obtain ⟨w', hw'⟩ := c'.touches_cbs.mpr (hsame ▸ hp)
      rcases hclears with hc | hc
      · exact ⟨_, Call.touches_clear hc hp, _, hw', rfl, .inl rfl⟩
      · exact ⟨_, hw, _, Call.touches_clear hc (hsame ▸ hp), rfl, .inr rfl⟩
    · obtain ⟨t, ht⟩ := Option.isSome_iff_exists.mp hsome
      exact ⟨_, Call.touches_count ht, _, Call.touches_count (hsame ▸ ht), rfl, .inl rfl⟩

end Races

/-! ## The registry as a system -/

/-- The registry with the open sections, the last one first, and the history of its calls. -/
structure State (V : τ → Type) (ι κ : Type) where
  config : Config V ι κ
  sections : List (ι × Call V κ)
  log : History V κ

def State.init : State V ι κ := ⟨.init, [], []⟩

inductive Action (V : τ → Type) (ι κ : Type) where
  | enter (th : ι) (c : Call V κ)
  /-- the thread's last section ends -/
  | leave (th : ι)

inductive Fault where
  | race
  deriving DecidableEq, Repr

section System

variable [DecidableEq τ] [∀ t, DecidableEq (V t)] [DecidableEq ι]

def State.act (s : State V ι κ) : Action V ι κ → Option (Except Fault (State V ι κ))
  | .enter th c =>
      if s.sections.any fun e => c.excludes e.2 then none
      else if s.sections.any fun e => c.races e.2 then some (.error .race)
      else some (.ok { s with sections := (th, c) :: s.sections })
  | .leave th =>
      (s.sections.find? fun e => decide (e.1 = th)).bind fun e =>
        (s.config.call th e.2).map fun r => .ok
          { config := r.2
            sections := s.sections.eraseP fun e => decide (e.1 = th)
            log := s.log ++ [(e.2, r.1)] }

def step : Except Fault (State V ι κ) → Action V ι κ → Option (Except Fault (State V ι κ)) :=
  abortable State.act

/-- `clearListener` overlaps no use of the listeners, calls of `addListener` for variables of one
type do not overlap, and the keys of no type run out. -/
def Apart (s : State V ι κ) : Action V ι κ → Prop
  | .enter _ c => ∀ e ∈ s.sections, ¬ c.Meets e.2
  | .leave th => ∀ e ∈ s.sections.find? fun e => decide (e.1 = th), s.config.InKeys e.2

variable {s : State V ι κ}

/-! ## Every answer -/

theorem step_kept : Preserves (step (V := V)) (onOk Apart)
    (Holds (fun s : State V ι κ => Represents s.config s.log ∧ Kept s.log) fun _ => False) := by
  refine preserves_abortable fun s a r hs ha hr => ?_
  cases a with
  | enter th c =>
      simp only [State.act] at hr
      split at hr
      · cases hr
      · rename_i hexcluded
        split at hr <;> cases hr
        · rename_i hraces
          obtain ⟨e, he, hrace⟩ := List.any_eq_true.mp hraces
          have hadmitted : c.excludes e.2 = false :=
            Bool.eq_false_of_not_eq_true fun hx => hexcluded (List.any_eq_true.mpr ⟨e, he, hx⟩)
          exact ha e he ((Call.races_iff_meets hadmitted).mp hrace)
        · exact hs
  | leave th =>
      obtain ⟨e, he, hr⟩ := Option.bind_eq_some_iff.mp hr
      obtain ⟨r, hcall, rfl⟩ := Option.map_eq_some_iff.mp hr
      obtain ⟨hpromised, hrepresents⟩ := hs.1.call (ha e he) hcall
      exact ⟨hrepresents, hs.2.concat hpromised⟩

/-- In every run in which no clearing overlaps a use of the listeners, no two counts of the keys of
a type overlap and the keys do not run out, no sections race, and every call is answered as the
calls before it promise: a name has the variable and the type of the first `Lookup` of it, a
variable has the value that was assigned last, and a change is told to the listeners that are
registered, in the order in which they were added, up to one that throws. A section that is
admitted races exactly if it meets an open one so. -/
theorem answers_promised {r : Except Fault (State V ι κ)}
    (h : Reaches step (onOk Apart) (.ok .init) r) : ∃ s, r = .ok s ∧
      (∀ pre post e, s.log = pre ++ e :: post → Promised pre e.1 e.2) ∧
      ∀ th c, (∀ e ∈ s.sections, c.excludes e.2 = false) →
        (step (.ok s) (.enter th c) = some (.error .race) ↔ ∃ e ∈ s.sections, c.Meets e.2) := by
  have hinv := h.invariant step_kept
    ⟨represents_init, fun pre _ _ heq => by cases pre <;> cases heq⟩
  cases r with
  | error e => exact hinv.elim
  | ok s =>
      refine ⟨s, rfl, fun pre post e hlog => hinv.2 pre e post hlog, fun th c hadmitted => ?_⟩
      have hfree : ¬ (s.sections.any fun e => c.excludes e.2) = true := by
        intro hany
        obtain ⟨e, he, hx⟩ := List.any_eq_true.mp hany
        rw [hadmitted e he] at hx
        cases hx
      have hany : (s.sections.any fun e => c.races e.2) = true ↔ ∃ e ∈ s.sections, c.Meets e.2 := by
        rw [List.any_eq_true]
        refine exists_congr fun e => and_congr_right fun he => ?_
        exact Call.races_iff_meets (hadmitted e he)
      rw [← hany]
      change (if _ then _ else if _ then _ else _) = _ ↔ _
      rw [if_neg hfree]
      split
      · rename_i hraces
        exact iff_of_true rfl hraces
      · rename_i hraces
        exact iff_of_false (by simp) hraces

end System

/-- Two of the types of the framework's variables. -/
inductive Kind where
  | int | string
  deriving DecidableEq, Repr

def Kind.T : Kind → Type
  | .int => Int
  | .string => String

instance (k : Kind) : DecidableEq k.T :=
  match k with
  | .int => inferInstanceAs (DecidableEq Int)
  | .string => inferInstanceAs (DecidableEq String)

instance (r : Config Kind.T Nat Nat) (c : Call Kind.T Nat) : Decidable (r.InKeys c) :=
  match c with
  | .addListener _ _ _ => inferInstanceAs (Decidable (_ < _))
  | .lookup _ _ => isTrue trivial
  | .find _ _ => isTrue trivial
  | .lookupBase _ => isTrue trivial
  | .visit _ => isTrue trivial
  | .getValue _ => isTrue trivial
  | .compare _ _ _ => isTrue trivial
  | .assign _ _ => isTrue trivial
  | .delListener _ _ => isTrue trivial
  | .getListener _ _ => isTrue trivial
  | .clearListener _ => isTrue trivial

instance (s : State Kind.T Nat Nat) (a : Action Kind.T Nat Nat) : Decidable (Apart s a) :=
  match a with
  | .enter _ _ => inferInstanceAs (Decidable (∀ e ∈ s.sections, _))
  | .leave _ => inferInstanceAs (Decidable (∀ e ∈ List.find? _ _, _))

/-- A second `Lookup` with another default, a listener that throws at the first change and not at
the second, and a reader beside. -/
def timeoutCalls : List (Action Kind.T Nat Nat) :=
  [.enter 0 (.lookup "tcp.connect.timeout" ⟨.int, (5000 : Int)⟩), .leave 0,
    .enter 0 (.lookup "tcp.connect.timeout" ⟨.int, (100 : Int)⟩), .leave 0,
    .enter 0 (.addListener .int 0 7), .leave 0,
    .enter 1 (.compare 0 ⟨.int, (300 : Int)⟩ (some 0)), .leave 1,
    .enter 1 (.compare 0 ⟨.int, (200 : Int)⟩ none), .enter 2 (.getListener 0 1), .leave 2, .leave 1,
    .enter 1 (.assign 0 ⟨.int, (200 : Int)⟩), .leave 1, .enter 2 (.getValue 0), .leave 2]

theorem answers_promised_sample :
    ∃ (s : State Kind.T Nat Nat) (pre : History Kind.T Nat) (a : Answer Kind.T Nat),
      checkedRun step (fun s c => decide (onOk Apart s c)) (.ok .init) timeoutCalls =
          some (.ok s) ∧
        s.log = pre ++ [(.getValue 0, a)] ∧ Promised pre (.getValue 0) a := by
  obtain ⟨s, hs, pre, a, hlog⟩ : ∃ s,
      checkedRun step (fun s c => decide (onOk Apart s c)) (.ok .init) timeoutCalls =
          some (.ok s) ∧
        ∃ (pre : History Kind.T Nat) (a : Answer Kind.T Nat),
          s.log = pre ++ [(.getValue 0, a)] := ⟨_, rfl, _, _, rfl⟩
  obtain ⟨t, ht, hpromised, -⟩ := answers_promised (.of_decidedRun hs)
  cases ht
  exact ⟨s, pre, a, hs, hlog, hpromised pre [] _ hlog⟩

end Sylar.Registry
