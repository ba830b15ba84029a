import Sylar.Collection.Update
import Sylar.Transition.Run

/-! # Formatters that appenders take from their logger

Loggers and appenders are shared objects, named by their pointers, and so are formatters. An
appender without a formatter of its own is to print with that of the logger it is attached to.
`m_hasFormatter` records whether it has one; `addAppender` asks `m_formatter` instead.
-/

namespace Sylar.Inherit

open Collection Transition

variable {ι α φ : Type*}

/-! ## Objects -/

/-- The fields of a `LogAppender` that say what it prints with. -/
structure Appender (φ : Type*) where
  hasFormatter : Bool
  formatter : Option φ
  deriving DecidableEq, Repr

/-- A new `StdoutLogAppender` or `FileLogAppender`. -/
def Appender.new : Appender φ := ⟨false, none⟩

def Appender.setFormatter (_ : Appender φ) (formatter : Option φ) : Appender φ :=
  ⟨formatter.isSome, formatter⟩

/-- `if (!appender->getFormatter()) appender->m_formatter = m_formatter`. -/
def Appender.attach (a : Appender φ) (formatter : φ) : Appender φ :=
  if a.formatter.isNone then { a with formatter := some formatter } else a

/-- `if (!i->m_hasFormatter) i->m_formatter = m_formatter`. -/
def Appender.follow (formatter : φ) (i : Appender φ) : Appender φ :=
  if i.hasFormatter then i else { i with formatter := some formatter }

/-- `m_formatter` and `m_appenders` of every logger, and the appenders. -/
structure Loggers (ι α φ : Type*) where
  formatter : ι → φ
  appenders : ι → List α
  object : α → Appender φ

def Loggers.init (formatter : ι → φ) : Loggers ι α φ := ⟨formatter, fun _ => [], fun _ => .new⟩

/-! ## Calls -/

inductive Call (ι α φ : Type*) where
  | addAppender (l : ι) (a : α)
  | delAppender (l : ι) (a : α)
  | clearAppenders (l : ι)
  | setFormatter (l : ι) (val : φ)
  /-- `LogAppender::setFormatter` -/
  | setOwnFormatter (a : α) (formatter : Option φ)

def Loggers.perform [DecidableEq ι] [DecidableEq α] (s : Loggers ι α φ) :
    Call ι α φ → Loggers ι α φ
  | .addAppender l a =>
      { s with
        object := Function.update s.object a ((s.object a).attach (s.formatter l))
        appenders := Function.update s.appenders l (s.appenders l ++ [a]) }
  | .delAppender l a =>
      { s with appenders := Function.update s.appenders l ((s.appenders l).erase a) }
  | .clearAppenders l => { s with appenders := Function.update s.appenders l [] }
  | .setFormatter l val =>
      { s with
        formatter := Function.update s.formatter l val
        object := updateAll id (fun _ => Appender.follow val) (s.appenders l) s.object }
  | .setOwnFormatter a formatter =>
      { s with object := Function.update s.object a ((s.object a).setFormatter formatter) }

def step [DecidableEq ι] [DecidableEq α] (s : Loggers ι α φ) (call : Call ι α φ) :
    Option (Loggers ι α φ) := some (s.perform call)

/-! ## Runs -/

def Exclusive (s : Loggers ι α φ) : Call ι α φ → Prop
  | .addAppender l a => ∀ l', l' ≠ l → a ∉ s.appenders l'
  | _ => True

/-- The appender has a formatter, and it is `formatter` if it has none of its own. -/
structure Appender.Follows (a : Appender φ) (formatter : φ) : Prop where
  present : a.formatter ≠ none
  inherited : a.hasFormatter = false → a.formatter = some formatter

/-- Every attached appender follows its logger. -/
def Loggers.Inherits (s : Loggers ι α φ) : Prop :=
  ∀ l, ∀ a ∈ s.appenders l, (s.object a).Follows (s.formatter l)

/-- `addAppender` meets no formatter that is neither the appender's own nor the logger's, and
the formatter of an attached appender is not cleared. -/
def Keeps (s : Loggers ι α φ) : Call ι α φ → Prop
  | .addAppender l a => (s.object a).formatter = none ∨ (s.object a).hasFormatter = true ∨
      (s.object a).formatter = some (s.formatter l)
  | .setOwnFormatter a none => ∀ l, a ∉ s.appenders l
  | _ => True

/-- What every run keeps: the flag is never set without a formatter, and no appender is
attached twice. -/
structure Attached (s : Loggers ι α φ) : Prop where
  own : ∀ a, (s.object a).hasFormatter = true → (s.object a).formatter ≠ none
  single : ∀ l l' a, a ∈ s.appenders l → a ∈ s.appenders l' → l = l'

/-! ## One appender -/

variable {s : Loggers ι α φ}

theorem own_attach {a : Appender φ} (h : a.hasFormatter = true → a.formatter ≠ none)
    (formatter : φ) :
    (a.attach formatter).hasFormatter = true → (a.attach formatter).formatter ≠ none := by
  unfold Appender.attach
  split
  · intro _
    exact Option.some_ne_none formatter
  · exact h

theorem own_follow {a : Appender φ} (h : a.hasFormatter = true → a.formatter ≠ none)
    (formatter : φ) :
    (a.follow formatter).hasFormatter = true → (a.follow formatter).formatter ≠ none := by
  unfold Appender.follow
  split
  · exact h
  · intro _
    exact Option.some_ne_none formatter

/-- After the test of `m_formatter` the appender follows the logger, unless it kept the formatter
of another. -/
theorem attach_follows_iff (a : Appender φ) (formatter : φ) :
    (a.attach formatter).Follows formatter ↔
      a.formatter = none ∨ a.hasFormatter = true ∨ a.formatter = some formatter := by
  cases hformatter : a.formatter with
  | none =>
      have hattach : a.attach formatter = { a with formatter := some formatter } := by
        simp [Appender.attach, hformatter]
      rw [hattach]
      exact iff_of_true ⟨Option.some_ne_none _, fun _ => rfl⟩ (.inl rfl)
  | some f =>
      have hattach : a.attach formatter = a := by simp [Appender.attach, hformatter]
      rw [hattach]
      constructor
      · intro h
        cases hflag : a.hasFormatter with
        | true => exact .inr (.inl rfl)
        | false => exact .inr (.inr (hformatter ▸ h.inherited hflag))
      · intro h
        refine ⟨by simp [hformatter], fun hflag => ?_⟩
        rcases h with h | h | h
        · cases h
        · rw [hflag] at h
          cases h
        · rw [hformatter, h]

theorem follow_follows {a : Appender φ} (h : a.hasFormatter = true → a.formatter ≠ none)
    (formatter : φ) : (a.follow formatter).Follows formatter := by
  unfold Appender.follow
  split
  · rename_i hflag
    refine ⟨h hflag, fun hfalse => ?_⟩
    rw [hflag] at hfalse
    cases hfalse
  · exact ⟨Option.some_ne_none formatter, fun _ => rfl⟩

theorem follow_follow (formatter : φ) (a : Appender φ) :
    (a.follow formatter).follow formatter = a.follow formatter := by
  unfold Appender.follow
  cases hflag : a.hasFormatter <;> simp [hflag]

/-! ## One call -/

theorem attached_init (formatter : ι → φ) : Attached (.init formatter : Loggers ι α φ) where
  own := by
    intro a hflag
    cases hflag
  single := by
    intro l l' a ha
    cases ha

theorem mem_of_removed [DecidableEq ι] {l l' : ι} {rest : List α} {a : α}
    (hrest : ∀ a ∈ rest, a ∈ s.appenders l)
    (ha : a ∈ Function.update s.appenders l rest l') : a ∈ s.appenders l' := by
  by_cases hl : l' = l
  · rw [hl, Function.update_self] at ha
    rw [hl]
    exact hrest a ha
  · rwa [Function.update_of_ne hl] at ha

theorem Attached.removed [DecidableEq ι] (h : Attached s) (l : ι) {rest : List α}
    (hrest : ∀ a ∈ rest, a ∈ s.appenders l) :
    Attached { s with appenders := Function.update s.appenders l rest } where
  own := h.own
  single := by
    intro l₁ l₂ a h₁ h₂
    exact h.single l₁ l₂ a (mem_of_removed hrest h₁) (mem_of_removed hrest h₂)

theorem Loggers.Inherits.removed [DecidableEq ι] (hs : s.Inherits) (l : ι) {rest : List α}
    (hrest : ∀ a ∈ rest, a ∈ s.appenders l) :
    Loggers.Inherits { s with appenders := Function.update s.appenders l rest } := by
  intro l' a ha
  exact hs l' a (mem_of_removed hrest ha)

variable [DecidableEq ι] [DecidableEq α]

theorem setFormatter_object (s : Loggers ι α φ) (l : ι) (val : φ) (a : α) :
    (s.perform (.setFormatter l val)).object a =
      if a ∈ s.appenders l then (s.object a).follow val else s.object a :=
  updateAll_of_idempotent (follow_follow val) (s.appenders l) s.object a

theorem mem_added {l l' : ι} {a a' : α} :
    a' ∈ (s.perform (.addAppender l a)).appenders l' ↔
      a' ∈ s.appenders l' ∨ l' = l ∧ a' = a := by
  change a' ∈ Function.update s.appenders l (s.appenders l ++ [a]) l' ↔ _
  by_cases hl : l' = l
  · subst hl
    simp
  · simp [hl]

theorem Attached.perform (h : Attached s) {call : Call ι α φ} (hex : Exclusive s call) :
    Attached (s.perform call) := by
  cases call with
  | addAppender l a =>
      refine ⟨fun a' => ?_, fun l₁ l₂ a' h₁ h₂ => ?_⟩
      · change (Function.update s.object a _ a').hasFormatter = true → _
        by_cases ha : a' = a
        · subst ha
          simpa [Loggers.perform] using own_attach (h.own a') (s.formatter l)
        · simpa [Loggers.perform, Function.update_of_ne ha] using h.own a'
      · rcases mem_added.mp h₁ with hold₁ | ⟨rfl, rfl⟩
        · rcases mem_added.mp h₂ with hold₂ | ⟨rfl, rfl⟩
          · exact h.single l₁ l₂ a' hold₁ hold₂
          · by_contra hne
            exact hex l₁ hne hold₁
        · rcases mem_added.mp h₂ with hold₂ | ⟨rfl, _⟩
          · by_contra hne
            exact hex l₂ (Ne.symm hne) hold₂
          · rfl
  | delAppender l a => exact h.removed l fun a' ha' => List.mem_of_mem_erase ha'
  | clearAppenders l =>
      apply h.removed l
      intro a ha
      cases ha
  | setFormatter l val =>
      refine ⟨fun a => ?_, h.single⟩
      rw [setFormatter_object]
      split
      · exact own_follow (h.own a) val
      · exact h.own a
  | setOwnFormatter a formatter =>
      refine ⟨fun a' => ?_, h.single⟩
      change (Function.update s.object a _ a').hasFormatter = true →
        (Function.update s.object a _ a').formatter ≠ none
      by_cases ha : a' = a
      · subst ha
        rw [Function.update_self]
        cases formatter <;> simp [Appender.setFormatter]
      · rw [Function.update_of_ne ha]
        exact h.own a'

/-- The new appender follows if its formatter was none, its own or the logger's. -/
theorem inherits_addAppender_iff (hs : s.Inherits) {l : ι} {a : α}
    (hex : Exclusive s (.addAppender l a)) :
    (s.perform (.addAppender l a)).Inherits ↔ Keeps s (.addAppender l a) := by
  have hself : (s.perform (.addAppender l a)).object a = (s.object a).attach (s.formatter l) :=
    Function.update_self _ _ _
  have hother : ∀ a', a' ≠ a → (s.perform (.addAppender l a)).object a' = s.object a' :=
    fun a' ha => Function.update_of_ne ha _ _
  constructor
  · intro ht
    have hnew := ht l a (mem_added.mpr (.inr ⟨rfl, rfl⟩))
    rw [hself] at hnew
    exact (attach_follows_iff _ _).mp hnew
  · intro hkeeps l' a' ha'
    by_cases ha : a' = a
    · subst ha
      have hl : l' = l := by
        rcases mem_added.mp ha' with hold | ⟨hl, _⟩
        · by_contra hne
          exact hex l' hne hold
        · exact hl
      subst hl
      rw [hself]
      exact (attach_follows_iff _ _).mpr hkeeps
    · rw [hother a' ha]
      exact hs l' a' ((mem_added.mp ha').resolve_right fun hnew => ha hnew.2)

theorem Attached.inherits_setFormatter (h : Attached s) (hs : s.Inherits) (l : ι) (val : φ) :
    (s.perform (.setFormatter l val)).Inherits := by
  intro l' a ha
  change a ∈ s.appenders l' at ha
  rw [setFormatter_object]
  change Appender.Follows _ (Function.update s.formatter l val l')
  by_cases hl : l' = l
  · subst hl
    rw [if_pos ha, Function.update_self]
    exact follow_follows (h.own a) val
  · have hout : a ∉ s.appenders l := fun hin => hl (h.single l' l a ha hin)
    rw [if_neg hout, Function.update_of_ne hl]
    exact hs l' a ha

/-- A formatter of its own keeps an appender right; without one it may not be attached. -/
theorem inherits_setOwnFormatter_iff (hs : s.Inherits) (a : α) (formatter : Option φ) :
    (s.perform (.setOwnFormatter a formatter)).Inherits ↔
      Keeps s (.setOwnFormatter a formatter) := by
  have hself : (s.perform (.setOwnFormatter a formatter)).object a =
      (s.object a).setFormatter formatter := Function.update_self _ _ _
  have hother : ∀ a', a' ≠ a →
      (s.perform (.setOwnFormatter a formatter)).object a' = s.object a' :=
    fun a' ha => Function.update_of_ne ha _ _
  cases formatter with
  | none =>
      constructor
      · intro ht l hin
        have hnew := (ht l a hin).present
        rw [hself] at hnew
        exact hnew rfl
      · intro hout l a' ha'
        have hne : a' ≠ a := by
          rintro rfl
          exact hout l ha'
        rw [hother a' hne]
        exact hs l a' ha'
  | some f =>
      refine iff_of_true (fun l a' ha' => ?_) trivial
      by_cases ha : a' = a
      · subst ha
        rw [hself]
        refine ⟨Option.some_ne_none f, fun hfalse => ?_⟩
        cases hfalse
      · rw [hother a' ha]
        exact hs l a' ha'

theorem Attached.inherits_perform_iff (h : Attached s) (hs : s.Inherits) {call : Call ι α φ}
    (hex : Exclusive s call) : (s.perform call).Inherits ↔ Keeps s call := by
  cases call with
  | addAppender l a => exact inherits_addAppender_iff hs hex
  | delAppender l a =>
      exact iff_of_true (hs.removed l fun a' ha' => List.mem_of_mem_erase ha') trivial
  | clearAppenders l =>
      refine iff_of_true (hs.removed l fun a ha => ?_) trivial
      cases ha
  | setFormatter l val => exact iff_of_true (h.inherits_setFormatter hs l val) trivial
  | setOwnFormatter a formatter => exact inherits_setOwnFormatter_iff hs a formatter

/-! ## Every run -/

/-- As long as every call meets the condition each attached appender follows its logger, and the
next call keeps that exactly if it meets the condition too. -/
theorem appenders_inherit {formatter : ι → φ}
    (h : Reaches step (fun s call => Exclusive s call ∧ Keeps s call) (.init formatter) s) :
    s.Inherits ∧
      ∀ call : Call ι α φ, Exclusive s call → ((s.perform call).Inherits ↔ Keeps s call) := by
  have hinv : Attached s ∧ s.Inherits := by
    apply h.invariant (P := fun s : Loggers ι α φ => Attached s ∧ s.Inherits)
    · intro s call t hs hg ht
      cases ht
      exact ⟨hs.1.perform hg.1, (hs.1.inherits_perform_iff hs.2 hg.1).mpr hg.2⟩
    · refine ⟨attached_init formatter, fun l a ha => ?_⟩
      cases ha
  exact ⟨hinv.2, fun call hex => hinv.1.inherits_perform_iff hinv.2 hex⟩

/-- Two loggers, whose formatters are numbered 0 and 1. -/
abbrev TwoLoggers := Loggers (Fin 2) Nat Nat

instance (s : TwoLoggers) (call : Call (Fin 2) Nat Nat) : Decidable (Exclusive s call) :=
  match call with
  | .addAppender l a => inferInstanceAs (Decidable (∀ l', l' ≠ l → a ∉ s.appenders l'))
  | .delAppender _ _ | .clearAppenders _ | .setFormatter _ _ | .setOwnFormatter _ _ =>
      isTrue trivial

instance (s : TwoLoggers) (call : Call (Fin 2) Nat Nat) : Decidable (Keeps s call) :=
  match call with
  | .addAppender _ _ => inferInstanceAs (Decidable (_ ∨ _))
  | .setOwnFormatter a none => inferInstanceAs (Decidable (∀ l, a ∉ s.appenders l))
  | .setOwnFormatter _ (some _) => isTrue trivial
  | .delAppender _ _ | .clearAppenders _ | .setFormatter _ _ => isTrue trivial

def twoLoggers : TwoLoggers := .init fun l => (l : Nat)

def movedWithOwn : List (Call (Fin 2) Nat Nat) :=
  [.addAppender 0 3, .setFormatter 0 7, .setOwnFormatter 3 (some 9), .delAppender 0 3,
    .addAppender 1 3, .addAppender 0 4, .setFormatter 1 8]

theorem appenders_inherit_moved : ∃ s : TwoLoggers,
    checkedRun step (fun s call => decide (Exclusive s call ∧ Keeps s call)) twoLoggers
        movedWithOwn = some s ∧
      s.appenders 0 = [4] ∧ s.appenders 1 = [3] ∧ s.Inherits := by
  have hrun : (checkedRun step (fun s call => decide (Exclusive s call ∧ Keeps s call)) twoLoggers
      movedWithOwn).any (fun s => decide (s.appenders 0 = [4] ∧ s.appenders 1 = [3])) := by
    decide
  obtain ⟨s, hr, hfirst, hsecond⟩ := exists_some_of_any hrun
  exact ⟨s, hr, hfirst, hsecond, (appenders_inherit (.of_decidedRun hr)).1⟩

/-- An appender is moved to the other logger, and one loses its formatter while attached. -/
theorem moved_or_cleared :
    (∃ s : TwoLoggers, Reaches step Exclusive twoLoggers s ∧ s.appenders 1 = [3] ∧
      s.object 3 = ⟨false, some 0⟩ ∧ s.formatter 1 = 1) ∧
    (∃ s : TwoLoggers, Reaches step Exclusive twoLoggers s ∧ s.appenders 0 = [3] ∧
      s.object 3 = ⟨false, none⟩) ∧
    ¬ ∀ s : TwoLoggers, Reaches step Exclusive twoLoggers s → s.Inherits := by
  have hmoved : (checkedRun step (fun s call => decide (Exclusive s call)) twoLoggers
      [.addAppender 0 3, .delAppender 0 3, .addAppender 1 3]).any (fun s =>
        decide (s.appenders 1 = [3] ∧ s.object 3 = ⟨false, some 0⟩ ∧ s.formatter 1 = 1)) := by
    decide
  have hcleared : (checkedRun step (fun s call => decide (Exclusive s call)) twoLoggers
      [.addAppender 0 3, .setOwnFormatter 3 none]).any (fun s =>
        decide (s.appenders 0 = [3] ∧ s.object 3 = ⟨false, none⟩)) := by
    decide
  obtain ⟨s, hr, hs⟩ := exists_some_of_any hmoved
  obtain ⟨t, ht, hin, hnull⟩ := exists_some_of_any hcleared
  refine ⟨⟨s, .of_decidedRun hr, hs⟩, ⟨t, .of_decidedRun ht, hin, hnull⟩, fun h => ?_⟩
  have hmember : 3 ∈ t.appenders 0 := by
    rw [hin]
    exact List.mem_singleton_self 3
  have hpresent := (h t (.of_decidedRun ht) 0 3 hmember).present
  rw [hnull] at hpresent
  exact hpresent rfl

end Sylar.Inherit
