import Sylar.Hook.FdManager

/-! # `FdManager::get` on several threads

Each locked section of `get` and `del` is one step, and so is a setter of a context that a
thread holds. A section that would leave the table is not a step.
-/

namespace Sylar.Hook

open Transition

variable {ι : Type*}

/-! ## State -/

/-- `setUserNonblock` and `setTimeout`. -/
inductive Setting where
  | userNonblock (v : Bool)
  | timeout (event : Epoll.Event) (v : Nat)
  deriving DecidableEq, Repr

def Setting.apply (ctx : FdCtx) : Setting → FdCtx
  | .userNonblock v => { ctx with userNonblock := v }
  | .timeout event v => ctx.setTimeout event v

/-- `creating` is the descriptor of a thread between the two sections of `get`. The last two
fields are not the code's: what `get(fd, ..)` returned since the last `del(fd)`, and the
settings made through that. -/
structure FdTable (ι : Type*) where
  manager : FdManager
  ctxs : CtxId → FdCtx
  creating : ι → Option Nat
  returned : List (Nat × CtxId)
  applied : Nat → List Setting

def FdTable.init : FdTable ι :=
  ⟨FdManager.init, fun fd => FdCtx.new fd none, fun _ => none, [], fun _ => []⟩

/-- `m_datas[fd]`. -/
def FdTable.entry (s : FdTable ι) (fd : Nat) : Option CtxId := s.manager.toMap.entry fd

inductive GetAction (ι : Type*) where
  /-- the read-locked section of `get(fd, autoCreate)` -/
  | get (th : ι) (fd : Nat) (autoCreate : Bool)
  /-- its write-locked section, and the open file that `fstat` finds -/
  | store (th : ι) (file : Option File)
  | del (fd : Nat)
  | set (fd : Nat) (ctx : CtxId) (setting : Setting)

def getStep [DecidableEq ι] (s : FdTable ι) : GetAction ι → Option (FdTable ι)
  | .get th fd autoCreate =>
      if s.creating th ≠ none then none
      else
        match s.manager.readSection fd autoCreate with
        | .error _ => none
        | .ok (.found none) => some s
        | .ok (.found (some ctx)) => some { s with returned := (fd, ctx) :: s.returned }
        | .ok .create => some { s with creating := Function.update s.creating th (some fd) }
  | .store th file =>
      match s.creating th with
      | none => none
      | some fd =>
          match s.manager.writeSection fd with
          | .error _ => none
          | .ok (ctx, manager) =>
              some { s with
                manager := manager
                ctxs := Function.update s.ctxs ctx (FdCtx.new fd file)
                creating := Function.update s.creating th none
                returned := (fd, ctx) :: s.returned }
  | .del fd =>
      match s.manager.del fd with
      | .error _ => none
      | .ok manager =>
          some { s with
            manager := manager
            returned := s.returned.filter fun r => r.1 ≠ fd
            applied := Function.update s.applied fd [] }
  | .set fd ctx setting =>
      if (fd, ctx) ∈ s.returned then
        some { s with
          ctxs := Function.update s.ctxs ctx (setting.apply (s.ctxs ctx))
          applied := Function.update s.applied fd (s.applied fd ++ [setting]) }
      else none

/-! ## One creator at a time -/

/-- A write-locked section finds the entry still null. -/
def Unraced (s : FdTable ι) : GetAction ι → Prop
  | .store th _ => (s.creating th).bind s.entry = none
  | _ => True

instance (s : FdTable ι) : (a : GetAction ι) → Decidable (Unraced s a)
  | .get _ _ _ => isTrue trivial
  | .store th _ => inferInstanceAs (Decidable ((s.creating th).bind s.entry = none))
  | .del _ => isTrue trivial
  | .set _ _ _ => isTrue trivial

/-- What was returned since the last `del` is the entry, with every setting made since. -/
structure Single (s : FdTable ι) : Prop where
  returned : ∀ fd ctx, (fd, ctx) ∈ s.returned ↔ s.entry fd = some ctx
  settings : ∀ fd ctx, s.entry fd = some ctx →
    ∃ file, s.ctxs ctx = (s.applied fd).foldl Setting.apply (FdCtx.new fd file)
  untouched : ∀ fd, s.entry fd = none → s.applied fd = []
  made : ∀ fd ctx, s.entry fd = some ctx → ctx ≤ s.manager.lastCtx

variable {s t : FdTable ι}

theorem entry_init (fd : Nat) : (FdTable.init : FdTable ι).entry fd = none :=
  congrArg (fun m => m.entry fd) toMap_init

theorem single_init : Single (FdTable.init : FdTable ι) := by
  refine ⟨fun fd ctx => ?_, fun fd ctx hentry => ?_, fun _ _ => rfl, fun fd ctx hentry => ?_⟩
  · rw [entry_init]
    exact ⟨fun hmem => absurd hmem List.not_mem_nil, fun hentry => by cases hentry⟩
  · rw [entry_init] at hentry
    cases hentry
  · rw [entry_init] at hentry
    cases hentry

/-- The settings are made on a context of the descriptor. -/
theorem foldl_apply_fd (settings : List Setting) (ctx : FdCtx) :
    (settings.foldl Setting.apply ctx).fd = ctx.fd := by
  induction settings generalizing ctx with
  | nil => rfl
  | cons setting settings ih =>
      rw [List.foldl_cons, ih]
      cases setting with
      | userNonblock v => rfl
      | timeout event v => cases event <;> rfl

theorem Single.fd_eq (h : Single s) {fd : Nat} {ctx : CtxId} (hentry : s.entry fd = some ctx) :
    (s.ctxs ctx).fd = fd := by
  obtain ⟨file, hctx⟩ := h.settings fd ctx hentry
  rw [hctx, foldl_apply_fd]
  rfl

/-! ## Steps -/

theorem Single.found (h : Single s) {fd : Nat} {ctx : CtxId} (hentry : s.entry fd = some ctx) :
    Single { s with returned := (fd, ctx) :: s.returned } := by
  refine ⟨fun fd' ctx' => ?_, h.settings, h.untouched, h.made⟩
  rw [List.mem_cons, h.returned, Prod.mk.injEq]
  refine ⟨fun hor => ?_, Or.inr⟩
  obtain ⟨rfl, rfl⟩ | hentry' := hor
  · exact hentry
  · exact hentry'

theorem Single.store [DecidableEq ι] (h : Single s) {th : ι} {fd : Nat} (file : Option File)
    {ctx : CtxId} {manager : FdManager} (hnone : s.entry fd = none)
    (hstore : s.manager.writeSection fd = .ok (ctx, manager)) :
    Single { s with
      manager := manager
      ctxs := Function.update s.ctxs ctx (FdCtx.new fd file)
      creating := Function.update s.creating th none
      returned := (fd, ctx) :: s.returned } := by
  obtain ⟨hctx, hlast, hentry⟩ := entry_of_store hstore
  refine ⟨fun fd' ctx' => ?_, fun fd' ctx' hentry' => ?_, fun fd' hnone' => ?_,
    fun fd' ctx' hentry' => ?_⟩
  · simp only [FdTable.entry, hentry, List.mem_cons, h.returned, Prod.mk.injEq]
    by_cases heq : fd' = fd
    · have hfree : s.manager.toMap.entry fd = none := hnone
      simp [heq, hfree, eq_comm]
    · simp [heq]
  · simp only [FdTable.entry, hentry] at hentry'
    by_cases heq : fd' = fd
    · rw [if_pos heq, Option.some.injEq] at hentry'
      subst hentry' heq
      refine ⟨file, ?_⟩
      simp only [Function.update_self, h.untouched fd' hnone]
      rfl
    · rw [if_neg heq] at hentry'
      have hne : ctx' ≠ ctx := by
        rw [hctx]
        exact (Nat.lt_succ_of_le (h.made fd' ctx' hentry')).ne
      simpa only [Function.update_of_ne hne] using h.settings fd' ctx' hentry'
  · simp only [FdTable.entry, hentry] at hnone'
    split at hnone'
    · cases hnone'
    · exact h.untouched fd' hnone'
  · simp only [FdTable.entry, hentry] at hentry'
    split at hentry'
    · cases hentry'
      exact hlast.ge
    · simp only [hlast, hctx]
      exact Nat.le_succ_of_le (h.made fd' ctx' hentry')

theorem Single.del (h : Single s) {fd : Nat} {manager : FdManager}
    (hdel : s.manager.del fd = .ok manager) :
    Single { s with
      manager := manager
      returned := s.returned.filter fun r => r.1 ≠ fd
      applied := Function.update s.applied fd [] } := by
  obtain ⟨hlast, hentry⟩ := entry_of_del hdel
  refine ⟨fun fd' ctx' => ?_, fun fd' ctx' hentry' => ?_, fun fd' hnone' => ?_,
    fun fd' ctx' hentry' => ?_⟩
  · simp only [FdTable.entry, hentry, List.mem_filter, h.returned]
    by_cases heq : fd' = fd <;> simp [heq]
  · simp only [FdTable.entry, hentry] at hentry'
    by_cases heq : fd' = fd
    · rw [if_pos heq] at hentry'
      cases hentry'
    · rw [if_neg heq] at hentry'
      simpa only [Function.update_of_ne heq] using h.settings fd' ctx' hentry'
  · by_cases heq : fd' = fd
    · simp only [heq, Function.update_self]
    · simp only [FdTable.entry, hentry, if_neg heq] at hnone'
      simpa only [Function.update_of_ne heq] using h.untouched fd' hnone'
  · simp only [FdTable.entry, hentry] at hentry'
    split at hentry'
    · cases hentry'
    · simpa only [hlast] using h.made fd' ctx' hentry'

theorem Single.set (h : Single s) {fd : Nat} {ctx : CtxId} (hentry : s.entry fd = some ctx)
    (setting : Setting) :
    Single { s with
      ctxs := Function.update s.ctxs ctx (setting.apply (s.ctxs ctx))
      applied := Function.update s.applied fd (s.applied fd ++ [setting]) } := by
  refine ⟨h.returned, fun fd' ctx' hentry' => ?_, fun fd' hnone => ?_, h.made⟩
  · by_cases heq : fd' = fd
    · subst heq
      obtain rfl : ctx = ctx' := Option.some.inj (hentry.symm.trans hentry')
      obtain ⟨file, hctx⟩ := h.settings fd' ctx hentry
      refine ⟨file, ?_⟩
      simp only [Function.update_self, List.foldl_append, ← hctx]
      rfl
    · have hne : ctx' ≠ ctx := by
        rintro rfl
        exact heq ((h.fd_eq hentry').symm.trans (h.fd_eq hentry))
      simpa only [Function.update_of_ne heq, Function.update_of_ne hne] using
        h.settings fd' ctx' hentry'
  · have hne : fd' ≠ fd := by
      rintro rfl
      cases hentry.symm.trans hnone
    simpa only [Function.update_of_ne hne] using h.untouched fd' hnone

variable [DecidableEq ι]

theorem single_step : Preserves (getStep : FdTable ι → _) Unraced Single := by
  intro s a t h hg ht
  cases a with
  | get th fd autoCreate =>
      simp only [getStep] at ht
      split at ht
      · cases ht
      · split at ht
        · cases ht
        · cases ht
          exact h
        · next hfound =>
            cases ht
            exact h.found (entry_of_found hfound)
        · cases ht
          exact ⟨h.returned, h.settings, h.untouched, h.made⟩
  | store th file =>
      simp only [getStep] at ht
      split at ht
      · cases ht
      · next fd hfd =>
          split at ht
          · cases ht
          · next ctx manager hstore =>
              cases ht
              have hnone : s.entry fd = none := by simpa [Unraced, hfd] using hg
              exact h.store file hnone hstore
  | del fd =>
      simp only [getStep] at ht
      split at ht
      · cases ht
      · next manager hdel =>
          cases ht
          exact h.del hdel
  | set fd ctx setting =>
      simp only [getStep] at ht
      split at ht
      · next hmem =>
          cases ht
          exact h.set ((h.returned fd ctx).mp hmem) setting
      · cases ht

/-- A write-locked section that finds a context returns a second one. -/
theorem Single.raced (h : Single s) {a : GetAction ι} (ha : ¬ Unraced s a)
    (ht : getStep s a = some t) :
    ∃ fd ctx ctx', (fd, ctx) ∈ t.returned ∧ (fd, ctx') ∈ t.returned ∧ ctx ≠ ctx' := by
  cases a with
  | get => exact (ha trivial).elim
  | del => exact (ha trivial).elim
  | set => exact (ha trivial).elim
  | store th file =>
      simp only [getStep] at ht
      split at ht
      · cases ht
      · next fd hfd =>
          split at ht
          · cases ht
          · next ctx manager hstore =>
              cases ht
              have hentry : s.entry fd ≠ none := by simpa [Unraced, hfd] using ha
              obtain ⟨ctx', hentry⟩ := Option.ne_none_iff_exists'.mp hentry
              obtain ⟨hctx, -, -⟩ := entry_of_store hstore
              have hne : ctx ≠ ctx' := by
                rw [hctx]
                exact (Nat.lt_succ_of_le (h.made fd ctx' hentry)).ne'
              exact ⟨fd, ctx, ctx', List.mem_cons_self,
                List.mem_cons_of_mem _ ((h.returned fd ctx').mpr hentry), hne⟩

/-- With one creator at a time everything returned since the last `del` is the context that
remains, which has all the settings made since; a second creator breaks that at once. -/
theorem single_creator_shared (h : Reaches getStep Unraced (.init : FdTable ι) s) :
    (∀ fd ctx, (fd, ctx) ∈ s.returned → s.entry fd = some ctx) ∧
      (∀ fd ctx, s.entry fd = some ctx →
        ∃ file, s.ctxs ctx = (s.applied fd).foldl Setting.apply (FdCtx.new fd file)) ∧
      ∀ a t, getStep s a = some t → ¬ Unraced s a →
        ∃ fd ctx ctx', (fd, ctx) ∈ t.returned ∧ (fd, ctx') ∈ t.returned ∧ ctx ≠ ctx' := by
  have hinv : Single s := h.invariant single_step single_init
  exact ⟨fun fd ctx hmem => (hinv.returned fd ctx).mp hmem, hinv.settings,
    fun a t ht ha => hinv.raced ha ht⟩

/-- A context is made, found by the other thread, changed by both and deleted. -/
def sharedRun : List (GetAction (Fin 2)) :=
  [.get 0 5 true, .store 0 (some 1), .get 1 5 true, .set 5 1 (.userNonblock true),
    .set 5 1 (.timeout .read 10), .del 5, .get 1 5 true, .store 1 (some 1)]

theorem single_creator_shared_sample :
    ∃ s : FdTable (Fin 2),
      checkedRun getStep (fun s a => decide (Unraced s a)) .init sharedRun = some s ∧
        s.returned = [(5, 2)] ∧ s.entry 5 = some 2 := by
  have hrun : (checkedRun getStep (fun s a => decide (Unraced s a))
      (.init : FdTable (Fin 2)) sharedRun).any (fun s => decide (s.returned = [(5, 2)])) := by
    decide
  obtain ⟨s, hr, hreturned⟩ := exists_some_of_any hrun
  refine ⟨s, hr, hreturned, (single_creator_shared (.of_decidedRun hr)).1 5 2 ?_⟩
  rw [hreturned]
  exact List.mem_singleton_self _

/-- Both threads find the entry null, and the first applies its setting to the context that
the second has replaced. -/
def racedRun : List (GetAction (Fin 2)) :=
  [.get 0 5 true, .get 1 5 true, .store 0 (some 1), .store 1 (some 1),
    .set 5 1 (.userNonblock true)]

theorem racing_creators_lose_setting :
    ∃ s : FdTable (Fin 2), Reaches getStep Free .init s ∧
      s.returned = [(5, 2), (5, 1)] ∧ s.entry 5 = some 2 ∧
      s.applied 5 = [.userNonblock true] ∧ (s.ctxs 2).userNonblock = false := by
  have hrun : (run getStep (.init : FdTable (Fin 2)) racedRun).any (fun s =>
      decide (s.returned = [(5, 2), (5, 1)] ∧ s.entry 5 = some 2 ∧
        s.applied 5 = [.userNonblock true] ∧ (s.ctxs 2).userNonblock = false)) := by
    decide
  obtain ⟨s, hr, hs⟩ := exists_some_of_any hrun
  exact ⟨s, .of_run hr, hs⟩

end Sylar.Hook
