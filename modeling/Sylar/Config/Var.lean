import Sylar.Transition.Run

/-! # The value of a `ConfigVar` and its listeners

`setValue` on several threads. Its read-locked section compares and calls every listener, its
write-locked section assigns, and each is one step; a thread between the two holds the value
that it is about to assign. Listeners are named by their keys and are registered throughout.
-/

namespace Sylar.Config

open Transition

variable {ι κ T : Type*}

/-! ## State -/

/-- `heard` lists the calls of each listener, `old_value` first; the code keeps no such list. -/
structure ConfigVar (ι κ T : Type*) where
  val : T
  cbs : List κ
  pending : ι → Option T
  heard : κ → List (T × T)

/-- `ConfigVar::ConfigVar`, and the calls of `addListener`. -/
def ConfigVar.init (default : T) (cbs : List κ) : ConfigVar ι κ T :=
  ⟨default, cbs, fun _ => none, fun _ => []⟩

/-- `for (auto& i : m_cbs) i.second(m_val, val);` -/
def ConfigVar.notify [DecidableEq κ] (s : ConfigVar ι κ T) (val : T) : ConfigVar ι κ T :=
  { s with heard := fun k => if k ∈ s.cbs then s.heard k ++ [(s.val, val)] else s.heard k }

theorem ConfigVar.notify_heard [DecidableEq κ] {s : ConfigVar ι κ T} {k : κ}
    (hk : k ∈ s.cbs) (val : T) :
    (s.notify val).heard k = s.heard k ++ [(s.val, val)] := if_pos hk

inductive Action (ι T : Type*) where
  /-- the read-locked section of `setValue(val)` -/
  | compare (th : ι) (val : T)
  /-- the write-locked section -/
  | assign (th : ι)
  deriving DecidableEq

def step [DecidableEq ι] [DecidableEq κ] [DecidableEq T] (s : ConfigVar ι κ T) :
    Action ι T → Option (ConfigVar ι κ T)
  | .compare th val =>
      if s.pending th ≠ none then none
      else if val = s.val then some s
      else some { s.notify val with pending := Function.update s.pending th (some val) }
  | .assign th =>
      (s.pending th).map fun val =>
        { s with val := val, pending := Function.update s.pending th none }

/-! ## What a listener is told -/

def lastHeard (known : T) : List (T × T) → T
  | [] => known
  | call :: calls => lastHeard call.2 calls

/-- Every old value is the value that was known before. -/
def Linked (known : T) : List (T × T) → Prop
  | [] => True
  | call :: calls => call.1 = known ∧ Linked call.2 calls

@[simp] theorem lastHeard_append (known : T) (calls : List (T × T)) (old new : T) :
    lastHeard known (calls ++ [(old, new)]) = new := by
  induction calls generalizing known with
  | nil => rfl
  | cons call calls ih => exact ih call.2

/-- A further call fits exactly if it starts from the value that is known. -/
@[simp] theorem linked_append (known : T) (calls : List (T × T)) (old new : T) :
    Linked known (calls ++ [(old, new)]) ↔
      Linked known calls ∧ old = lastHeard known calls := by
  induction calls generalizing known with
  | nil => simp [Linked, lastHeard]
  | cons call calls ih => simp only [List.cons_append, Linked, lastHeard, ih, and_assoc]

/-! ## Setters one at a time -/

/-- No thread is inside `setValue`. -/
def ConfigVar.Quiet (s : ConfigVar ι κ T) : Prop := ∀ th, s.pending th = none

/-- A setter notifies only while no other is between its two sections. -/
def Alone (s : ConfigVar ι κ T) : Action ι T → Prop
  | .compare _ val => val = s.val ∨ s.Quiet
  | .assign _ => True

instance [Fintype ι] [DecidableEq T] (s : ConfigVar ι κ T) : Decidable s.Quiet :=
  inferInstanceAs (Decidable (∀ th, s.pending th = none))

instance [Fintype ι] [DecidableEq T] (s : ConfigVar ι κ T) :
    (a : Action ι T) → Decidable (Alone s a)
  | .compare _ val => inferInstanceAs (Decidable (val = s.val ∨ s.Quiet))
  | .assign _ => isTrue trivial

/-- The listeners agree on the last value, which is the stored one or the one that the only
pending setter is about to store. -/
structure Told (default : T) (cbs : List κ) (s : ConfigVar ι κ T) : Prop where
  registered : s.cbs = cbs
  linked : ∀ k ∈ cbs, Linked default (s.heard k)
  quiet : s.Quiet → ∀ k ∈ cbs, lastHeard default (s.heard k) = s.val
  single : ∀ th val, s.pending th = some val → val ≠ s.val ∧
    (∀ th', th' ≠ th → s.pending th' = none) ∧ ∀ k ∈ cbs, lastHeard default (s.heard k) = val

theorem told_init (default : T) (cbs : List κ) :
    Told default cbs (.init default cbs : ConfigVar ι κ T) :=
  ⟨rfl, fun _ _ => trivial, fun _ _ _ => rfl, fun _ _ hval => by cases hval⟩

variable {default : T} {cbs : List κ} {s t : ConfigVar ι κ T} [DecidableEq ι]

theorem Told.assign (h : Told default cbs s) {th : ι} {val : T}
    (hval : s.pending th = some val) :
    Told default cbs { s with val := val, pending := Function.update s.pending th none } := by
  obtain ⟨_, hothers, hlast⟩ := h.single th val hval
  have hquiet : ∀ u, Function.update s.pending th none u = none := by
    intro u
    by_cases hu : u = th
    · rw [hu, Function.update_self]
    · rw [Function.update_of_ne hu, hothers u hu]
  refine ⟨h.registered, h.linked, fun _ => hlast, fun u v hv => ?_⟩
  simp only [hquiet] at hv
  cases hv

variable [DecidableEq κ]

theorem Told.compare (h : Told default cbs s) (hquiet : s.Quiet) {val : T} (hne : val ≠ s.val)
    (th : ι) :
    Told default cbs
      { s.notify val with pending := Function.update s.pending th (some val) } := by
  have hheard : ∀ k ∈ cbs, (s.notify val).heard k = s.heard k ++ [(s.val, val)] :=
    fun k hk => ConfigVar.notify_heard (h.registered.symm ▸ hk) val
  refine ⟨h.registered, fun k hk => ?_, fun hq => ?_, fun th' v hv => ?_⟩
  · simp only [hheard k hk, linked_append]
    exact ⟨h.linked k hk, (h.quiet hquiet k hk).symm⟩
  · have hself := hq th
    simp only [Function.update_self] at hself
    cases hself
  · have hth' : th' = th := by
      by_contra hother
      simp only [Function.update_of_ne hother, hquiet th'] at hv
      cases hv
    subst hth'
    simp only [Function.update_self, Option.some.injEq] at hv
    subst hv
    refine ⟨hne, fun u hu => ?_, fun k hk => ?_⟩
    · simp only [Function.update_of_ne hu, hquiet u]
    · simp only [hheard k hk, lastHeard_append]

variable [DecidableEq T]

theorem told_step : Preserves (step : ConfigVar ι κ T → _) Alone (Told default cbs) := by
  intro s a t h hg ht
  cases a with
  | compare th val =>
      simp only [step] at ht
      split at ht
      · cases ht
      · split at ht <;> cases ht
        · exact h
        · rename_i hne
          exact h.compare (hg.resolve_left hne) hne th
  | assign th =>
      obtain ⟨val, hval, rfl⟩ := Option.map_eq_some_iff.mp ht
      exact h.assign hval

/-- A setter that does not wait tells the listeners of a change from a value that is not the
one they know. -/
theorem Told.broken (h : Told default cbs s) {a : Action ι T} (ha : ¬ Alone s a)
    (ht : step s a = some t) {k : κ} (hk : k ∈ cbs) : ¬ Linked default (t.heard k) := by
  cases a with
  | compare th val =>
      obtain ⟨hne, hbusy⟩ := not_or.mp ha
      obtain ⟨u, hu⟩ := not_forall.mp hbusy
      obtain ⟨v, hv⟩ := Option.ne_none_iff_exists'.mp hu
      obtain ⟨hfresh, _, hlast⟩ := h.single u v hv
      simp only [step, if_neg hne] at ht
      split at ht <;> cases ht
      have hheard := ConfigVar.notify_heard (h.registered.symm ▸ hk) val
      simp only [hheard, linked_append, hlast k hk]
      exact fun hlinked => hfresh hlinked.2.symm
  | assign th => exact (ha trivial).elim

/-! ## Agreement -/

/-- Under serial setters the listeners agree with the stored value; a setter that does not
wait breaks the chain of every listener at once. -/
theorem serial_listeners_agree (h : Reaches step Alone (.init default cbs) s) :
    (∀ k ∈ cbs, Linked default (s.heard k)) ∧
      (s.Quiet → ∀ k ∈ cbs, lastHeard default (s.heard k) = s.val) ∧
      ∀ a t, step s a = some t → ¬ Alone s a → ∀ k ∈ cbs, ¬ Linked default (t.heard k) := by
  have hinv : Told default cbs s := h.invariant told_step (told_init default cbs)
  exact ⟨hinv.linked, hinv.quiet, fun a t ht ha k hk => hinv.broken ha ht hk⟩

/-- Two setters of `tcp.connect.timeout` in turn. -/
def serialRun : List (Action (Fin 2) Nat) :=
  [.compare 0 100, .assign 0, .compare 1 100, .compare 1 200, .assign 1]

theorem serial_listeners_agree_sample :
    ∃ s : ConfigVar (Fin 2) Nat Nat,
      checkedRun step (fun s a => decide (Alone s a)) (.init 5000 [1]) serialRun = some s ∧
        s.Quiet ∧ s.val = 200 ∧ lastHeard 5000 (s.heard 1) = s.val := by
  have hrun : (checkedRun step (fun s a => decide (Alone s a))
      (.init 5000 [1] : ConfigVar (Fin 2) Nat Nat) serialRun).any
      (fun s => decide (s.Quiet ∧ s.val = 200)) := by decide
  obtain ⟨s, hr, hquiet, hval⟩ := exists_some_of_any hrun
  exact ⟨s, hr, hquiet, hval,
    (serial_listeners_agree (.of_decidedRun hr)).2.1 hquiet 1 (List.mem_singleton_self 1)⟩

/-- Both setters notify before either assigns. -/
def overlapRun : List (Action (Fin 2) Nat) :=
  [.compare 0 100, .compare 1 200, .assign 1, .assign 0]

theorem overlapping_setters_disagree :
    ∃ s : ConfigVar (Fin 2) Nat Nat, Reaches step Free (.init 5000 [1]) s ∧ s.Quiet ∧
      s.val = 100 ∧ s.heard 1 = [(5000, 100), (5000, 200)] ∧
      lastHeard 5000 (s.heard 1) ≠ s.val ∧ ¬ Linked 5000 (s.heard 1) := by
  have hrun : (run step (.init 5000 [1] : ConfigVar (Fin 2) Nat Nat) overlapRun).any
      (fun s => decide (s.Quiet ∧ s.val = 100 ∧ s.heard 1 = [(5000, 100), (5000, 200)])) := by
    decide
  obtain ⟨s, hr, hquiet, hval, hheard⟩ := exists_some_of_any hrun
  refine ⟨s, Reaches.of_run hr, hquiet, hval, hheard, ?_, ?_⟩
  · rw [hheard, hval]
    decide
  · rw [hheard]
    exact fun hlinked => absurd hlinked.2.1 (by decide)

end Sylar.Config
