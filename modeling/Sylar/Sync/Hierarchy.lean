import Sylar.Sync.Programs

/-! # The order of the locks

The configuration comes before the schedulers, the timers and the events, and these before the
loggers, their appenders and the descriptors. As long as no flush of a stream logs, every function
keeps the order, so no calls block each other for good. A flush that logs takes the locks of the
loggers once more; on a thread that holds the one of `system` it never returns.
-/

namespace Sylar.Hierarchy

open Sync Transition

def discipline (ordered : Prop) (checked : Datum → Prop) : Discipline Lock Datum ℕ where
  rank := Lock.rank
  ordered := ordered
  guard := Datum.guard
  checked := checked

section Nests

variable {ordered : Prop} {checked : Datum → Prop} {k : ℕ} {under : List (Lock × Mode)}
  {l : Lock} {d : Datum}
  {body : Program}

theorem nests_read {m : Mode} (hl : d.guard = some l) (hd : (l, m) ∈ under) :
    (discipline ordered checked).Nests k under (read d) := by
  refine Discipline.nests_access fun _ l' hl' => ⟨_, hd, ?_, fun hw => by cases hw⟩
  exact Option.some.inj (hl.symm.trans hl')

theorem nests_access {w : Bool} (hl : d.guard = some l) (hd : (l, .exclusive) ∈ under) :
    (discipline ordered checked).Nests k under [.access d w] := by
  refine Discipline.nests_access fun _ l' hl' => ⟨_, hd, ?_, fun _ => rfl⟩
  exact Option.some.inj (hl.symm.trans hl')

theorem nests_write (hl : d.guard = some l) (hd : (l, .exclusive) ∈ under) :
    (discipline ordered checked).Nests k under (write d) := nests_access hl hd

/-- A datum that is not checked may be accessed anywhere, -/
theorem nests_unchecked {w : Bool} (hd : ¬ checked d) :
    (discipline ordered checked).Nests k under [.access d w] :=
  Discipline.nests_access fun hchecked => (hd hchecked).elim

/-- and so may one without a lock of its own. -/
theorem nests_bare {w : Bool} (hd : d.guard = none) :
    (discipline ordered checked).Nests k under [.access d w] := by
  refine Discipline.nests_access fun _ l hl => ?_
  cases hd.symm.trans hl

theorem nests_alone (hk : k ≤ l.rank)
    (hbody : (discipline ordered checked).Nests (l.rank + 1) ((l, .exclusive) :: under) body) :
    (discipline ordered checked).Nests k under (alone l body) :=
  .locked hk (Nat.lt_succ_self _) hbody

theorem nests_readers (hk : k ≤ l.rank)
    (hbody : (discipline ordered checked).Nests (l.rank + 1) ((l, .shared) :: under) body) :
    (discipline ordered checked).Nests k under (readers l body) :=
  .locked hk (Nat.lt_succ_self _) hbody

/-- A datum that is accessed under its lock and nothing else. -/
theorem nests_guarded {w : Bool} (hk : k ≤ l.rank) (hd : d.guard = some l) :
    (discipline ordered checked).Nests k under (alone l [.access d w]) :=
  nests_alone hk (nests_access hd List.mem_cons_self)

theorem nests_shared (hk : k ≤ l.rank) (hd : d.guard = some l) :
    (discipline ordered checked).Nests k under (readers l (read d)) :=
  nests_readers hk (nests_read hd List.mem_cons_self)

theorem nests_ite {c : Prop} [Decidable c] {p q : Program}
    (hp : c → (discipline ordered checked).Nests k under p)
    (hq : ¬ c → (discipline ordered checked).Nests k under q) :
    (discipline ordered checked).Nests k under (if c then p else q) := by
  split
  · exact hp ‹_›
  · exact hq ‹_›

end Nests

/-! ### Logging -/

section Logging

variable {ordered : Prop} {checked : Datum → Prop} {under : List (Lock × Mode)} {loud : Bool}

theorem nests_fdGet (creates : Bool) :
    (discipline ordered checked).Nests 8 under (fdGet creates) := by
  refine .append (nests_shared le_rfl rfl) ?_
  refine nests_ite (fun _ => ?_) fun _ => Discipline.nests_nil
  exact nests_guarded le_rfl rfl

theorem nests_fdDel : (discipline ordered checked).Nests 8 under fdDel :=
  nests_guarded le_rfl rfl

theorem rank_logger_le (name : String) : (Lock.logger name).rank ≤ 6 := by
  simp only [Lock.rank]
  split <;> omega

theorem le_rank_logger (name : String) : 5 ≤ (Lock.logger name).rank := by
  simp only [Lock.rank]
  split <;> omega

theorem rank_logger_of_ne {name : String} (hname : name ≠ "root") :
    (Lock.logger name).rank = 5 := if_neg hname

/-- A section of a logger that only takes locks of appenders. -/
theorem nests_logger {name : String} {m : Mode} {body : Program}
    (hbody : (discipline ordered checked).Nests 7 ((.logger name, m) :: under) body) :
    (discipline ordered checked).Nests 5 under (locked (.logger name) m body) :=
  .locked (le_rank_logger name) (Nat.lt_succ_self _)
    (hbody.mono (Nat.succ_le_succ (rank_logger_le name)) (List.Subset.refl _))

/-! A flush that does not log only looks the descriptor up. -/

theorem nests_silent (x : Option LogRun) :
    (discipline ordered checked).Nests 8 under (flush false x) := by
  cases x with
  | none => exact Discipline.nests_nil
  | some x => exact .append (nests_bare rfl) (nests_fdGet false)

theorem nests_reopen {k : ℕ} (hk : k ≤ 7) (a : Nat) {closing : Program}
    (hclosing : ∀ under, (discipline ordered checked).Nests 8 under closing) :
    (discipline ordered checked).Nests k under (reopen a closing) :=
  nests_alone hk (.append (nests_write rfl List.mem_cons_self) (hclosing _))

theorem appenderLog_silent (x : AppenderRun) :
    (discipline ordered checked).Nests 7 under (appenderLog false x) := by
  obtain ⟨a, passes, file, reopens, closing, writing⟩ := x
  refine .append (nests_bare rfl) (nests_ite (fun _ => ?_) fun _ => Discipline.nests_nil)
  refine nests_ite (fun _ => ?_) fun _ => nests_guarded le_rfl rfl
  refine .append (.append (nests_bare rfl) ?_) ?_
  · refine nests_ite (fun _ => .append ?_ (nests_bare rfl)) fun _ => Discipline.nests_nil
    exact nests_reopen le_rfl a fun _ => nests_silent closing
  · refine nests_alone le_rfl (.append (.append ?_ ?_) (nests_silent writing))
    · exact nests_read rfl List.mem_cons_self
    · exact nests_write rfl List.mem_cons_self

theorem appendersLog_silent (as : List AppenderRun) :
    (discipline ordered checked).Nests 7 under (appendersLog false as) := by
  induction as with
  | nil => exact Discipline.nests_nil
  | cons a as ih => exact .append (appenderLog_silent a) ih

theorem log_silent (name : String) (x : LogRun) :
    (discipline ordered checked).Nests 5 under (log false name x) := by
  obtain ⟨passes, own, rootPasses, root⟩ := x
  refine .append (nests_bare rfl) (nests_ite (fun _ => ?_) fun _ => Discipline.nests_nil)
  refine nests_alone (le_rank_logger name) (.append (nests_read rfl List.mem_cons_self) ?_)
  refine nests_ite (fun hroot => .append (nests_bare rfl) ?_) fun _ => ?_
  · -- the root logger is locked under another logger
    have hname : name ≠ "root" := of_decide_eq_true (Bool.and_eq_true_iff.mp hroot).2
    rw [rank_logger_of_ne hname]
    refine nests_ite (fun _ => nests_alone le_rfl ?_) fun _ => Discipline.nests_nil
    exact .append (nests_read rfl List.mem_cons_self) (appendersLog_silent root)
  · refine (appendersLog_silent own).mono ?_ (List.Subset.refl _)
    exact Nat.succ_le_succ (rank_logger_le name)

/-! A flush that logs comes behind no order, and only in that respect the functions differ. -/

theorem nests_loop (hordered : ¬ ordered) (name : String) {body : Program}
    (hbody : ∀ under, (discipline ordered checked).Nests 8 under body) :
    (discipline ordered checked).Nests 8 under (loop name body) :=
  .relocked hordered (Nat.lt_of_le_of_lt (rank_logger_le name) (by decide))
    (.append (nests_read rfl List.mem_cons_self) (hbody _))

theorem nests_appender (hordered : ¬ ordered) (a : Nat) {body : Program}
    (hbody : (discipline ordered checked).Nests 8 ((.appender a, .exclusive) :: under) body) :
    (discipline ordered checked).Nests 8 under (alone (.appender a) body) :=
  .relocked hordered (show 7 < 8 by decide) hbody

mutual

theorem flush_unordered (hordered : ¬ ordered) (under : List (Lock × Mode)) :
    (x : Option LogRun) → (discipline ordered checked).Nests 8 under (flush loud x)
  | none => Discipline.nests_nil
  | some x => by
      refine .append (nests_ite (fun _ => ?_) fun _ => nests_bare rfl) (nests_fdGet false)
      exact log_unordered hordered under "system" x

theorem appenderLog_unordered (hordered : ¬ ordered) (under : List (Lock × Mode)) :
    (x : AppenderRun) → (discipline ordered checked).Nests 8 under (appenderLog loud x)
  | ⟨a, passes, file, reopens, closing, writing⟩ => by
      refine .append (nests_bare rfl) (nests_ite (fun _ => ?_) fun _ => Discipline.nests_nil)
      refine nests_ite (fun _ => ?_) fun _ => ?_
      · refine .append (.append (nests_bare rfl) ?_) (nests_appender hordered a ?_)
        · refine nests_ite (fun _ => .append ?_ (nests_bare rfl)) fun _ => Discipline.nests_nil
          refine nests_appender hordered a (.append ?_ (flush_unordered hordered _ closing))
          exact nests_write rfl List.mem_cons_self
        · refine .append (.append ?_ ?_) (flush_unordered hordered _ writing)
          · exact nests_read rfl List.mem_cons_self
          · exact nests_write rfl List.mem_cons_self
      · exact nests_appender hordered a (nests_read rfl List.mem_cons_self)

theorem appendersLog_unordered (hordered : ¬ ordered) (under : List (Lock × Mode)) :
    (as : List AppenderRun) → (discipline ordered checked).Nests 8 under (appendersLog loud as)
  | [] => Discipline.nests_nil
  | a :: as => .append (appenderLog_unordered hordered under a)
      (appendersLog_unordered hordered under as)

theorem log_unordered (hordered : ¬ ordered) (under : List (Lock × Mode)) (name : String) :
    (x : LogRun) → (discipline ordered checked).Nests 8 under (log loud name x)
  | ⟨passes, own, rootPasses, root⟩ => by
      refine .append (nests_bare rfl) (nests_ite (fun _ => ?_) fun _ => Discipline.nests_nil)
      refine nests_loop hordered name fun under => ?_
      refine nests_ite (fun _ => .append (nests_bare rfl) ?_) fun _ => ?_
      · refine nests_ite (fun _ => ?_) fun _ => Discipline.nests_nil
        exact nests_loop hordered "root" fun under => appendersLog_unordered hordered under root
      · exact appendersLog_unordered hordered under own

end

variable (hloud : ordered → loud = false)

include hloud

theorem nests_flush (x : Option LogRun) :
    (discipline ordered checked).Nests 8 under (flush loud x) := by
  by_cases hordered : ordered
  · rw [hloud hordered]
    exact nests_silent x
  · exact flush_unordered hordered under x

theorem nests_log (name : String) (x : LogRun) :
    (discipline ordered checked).Nests 5 under (log loud name x) := by
  by_cases hordered : ordered
  · rw [hloud hordered]
    exact log_silent name x
  · exact (log_unordered hordered under name x).mono (by decide) (List.Subset.refl _)

theorem nests_logIf (name : String) (x : Option LogRun) :
    (discipline ordered checked).Nests 5 under (logIf loud name x) := by
  cases x with
  | none => exact Discipline.nests_nil
  | some x => exact nests_log hloud name x

theorem nests_removeAppenders (name : String) (closed : List (Option LogRun)) :
    (discipline ordered checked).Nests 5 under (removeAppenders loud name closed) := by
  refine nests_logger (.append (nests_write rfl List.mem_cons_self) ?_)
  refine Discipline.nests_flatMap fun x _ => ?_
  exact (nests_flush hloud x).mono (by decide) (List.Subset.refl _)

omit hloud

theorem nests_getOwnFormatter (a : Nat) :
    (discipline ordered checked).Nests 7 under (getOwnFormatter a) :=
  nests_guarded le_rfl rfl

theorem nests_setOwnFormatter (a : Nat) :
    (discipline ordered checked).Nests 7 under (setOwnFormatter a) :=
  nests_guarded le_rfl rfl

theorem nests_appenderToYamlString (a : Nat) :
    (discipline ordered checked).Nests 7 under (appenderToYamlString a) :=
  nests_alone le_rfl (.append (nests_bare rfl) (nests_read rfl List.mem_cons_self))

theorem nests_addAppender (name : String) (a : Nat) (bare : Bool) :
    (discipline ordered checked).Nests 5 under (addAppender name a bare) := by
  refine nests_logger (.append (.append ?_ ?_) (nests_write rfl List.mem_cons_self))
  · exact nests_getOwnFormatter a
  · refine nests_ite (fun _ => nests_alone le_rfl (.append ?_ ?_)) fun _ => Discipline.nests_nil
    · exact nests_read rfl (List.mem_cons_of_mem _ List.mem_cons_self)
    · exact nests_write rfl List.mem_cons_self

theorem nests_setFormatter (name : String) (attached : List (Nat × Bool)) :
    (discipline ordered checked).Nests 5 under (setFormatter name attached) := by
  refine nests_logger (.append (.append ?_ ?_) ?_)
  · exact nests_write rfl List.mem_cons_self
  · exact nests_read rfl List.mem_cons_self
  · exact Discipline.nests_flatMap fun a _ => nests_guarded le_rfl rfl

theorem nests_getFormatter (name : String) :
    (discipline ordered checked).Nests 5 under (getFormatter name) :=
  nests_logger (nests_read rfl List.mem_cons_self)

theorem nests_toYamlString (name : String) (attached : List Nat) :
    (discipline ordered checked).Nests 5 under (toYamlString name attached) := by
  refine nests_logger (.append (.append (.append (nests_bare rfl) ?_) ?_) ?_)
  · exact nests_read rfl List.mem_cons_self
  · exact nests_read rfl List.mem_cons_self
  · exact Discipline.nests_flatMap fun a _ => nests_appenderToYamlString a

theorem nests_getLogger (new : Bool) :
    (discipline ordered checked).Nests 4 under (getLogger new) :=
  nests_guarded le_rfl rfl

theorem nests_managerToYamlString (loggers : List (String × List Nat)) :
    (discipline ordered checked).Nests 4 under (managerToYamlString loggers) := by
  refine nests_alone le_rfl (.append (nests_read rfl List.mem_cons_self) ?_)
  exact Discipline.nests_flatMap fun l _ => nests_toYamlString l.1 l.2

end Logging

/-! ### Config variables -/

section Config

variable {ordered : Prop} {checked : Datum → Prop} {under : List (Lock × Mode)} {loud : Bool}
variable (hloud : ordered → loud = false)

include hloud

/-- Nothing that logs takes a lock that comes before the locks of the loggers. -/
theorem nests_log_under {k : ℕ} (hk : k ≤ 5) (name : String) (x : LogRun) :
    (discipline ordered checked).Nests k under (log loud name x) :=
  (nests_log hloud name x).mono hk (List.Subset.refl _)

theorem nests_logIf_under {k : ℕ} (hk : k ≤ 5) (name : String) (x : Option LogRun) :
    (discipline ordered checked).Nests k under (logIf loud name x) :=
  (nests_logIf hloud name x).mono hk (List.Subset.refl _)

omit hloud in
theorem LogsChange.nests_attach (name : String) (a : Nat × Bool × Bool) :
    (discipline ordered checked).Nests 5 under (LogsChange.attach name a) := by
  refine .append (.append (.append ?_ (nests_bare rfl)) ?_) (nests_addAppender name a.1 _)
  · refine nests_ite (fun _ => ?_) fun _ => Discipline.nests_nil
    exact nests_reopen (by decide) a.1 fun _ => Discipline.nests_nil
  · refine nests_ite (fun _ => ?_) fun _ => Discipline.nests_nil
    exact (nests_setOwnFormatter a.1).mono (by decide) (List.Subset.refl _)

theorem LogsChange.nests (c : LogsChange) :
    (discipline ordered checked).Nests 4 under (c.program loud) := by
  refine .append (.append (.append (.append (nests_getLogger c.new) (nests_bare rfl)) ?_) ?_) ?_
  · split
    · exact Discipline.nests_nil
    · exact (nests_setFormatter c.name _).mono (by decide) (List.Subset.refl _)
  · exact (nests_removeAppenders hloud c.name c.closed).mono (by decide) (List.Subset.refl _)
  · refine Discipline.nests_flatMap fun a _ => ?_
    exact (LogsChange.nests_attach c.name a).mono (by decide) (List.Subset.refl _)

theorem Listener.nests (f : Listener) :
    (discipline ordered checked).Nests 4 under (f.program loud) := by
  cases f with
  | connectTimeout x => exact .append (nests_log_under hloud (by decide) _ x) (nests_bare rfl)
  | logs x changes removed =>
      refine .append (.append (nests_log_under hloud (by decide) _ x) ?_) ?_
      · exact Discipline.nests_flatMap fun c _ => c.nests hloud
      · refine Discipline.nests_flatMap fun l _ => ?_
        refine .append (.append (nests_getLogger false) (nests_bare rfl)) ?_
        exact (nests_removeAppenders hloud l.1 l.2).mono (by decide) (List.Subset.refl _)

theorem SetRun.nests (v : Var) (x : SetRun) :
    (discipline ordered checked).Nests 1 under (x.program loud v) := by
  refine .append (nests_readers le_rfl (.append (nests_read rfl List.mem_cons_self) ?_)) ?_
  · refine nests_ite (fun _ => Discipline.nests_nil) fun _ => ?_
    refine .append (nests_read rfl List.mem_cons_self) (Discipline.nests_flatMap fun f _ => ?_)
    exact (f.nests hloud).mono (show 2 ≤ 4 by decide) (List.Subset.refl _)
  · refine nests_ite (fun _ => Discipline.nests_nil) fun _ => ?_
    exact nests_guarded le_rfl rfl

theorem nests_toString (v : Var) (caught : Option LogRun) :
    (discipline ordered checked).Nests 1 under (toString loud v caught) :=
  .append (nests_shared le_rfl rfl)
    (nests_logIf_under hloud (by decide) _ caught)

theorem nests_fromString (v : Var) (converted : Option SetRun) (caught : Option LogRun) :
    (discipline ordered checked).Nests 1 under (fromString loud v converted caught) := by
  refine .append ?_ (nests_logIf_under hloud (by decide) _ caught)
  split
  · exact Discipline.nests_nil
  · exact SetRun.nests hloud v _

theorem nests_lookup (c : LookupCase) :
    (discipline ordered checked).Nests 0 under (lookup loud c) := by
  refine nests_alone le_rfl (.append (nests_read rfl List.mem_cons_self) ?_)
  cases c with
  | «exists» x => exact nests_log_under hloud (by decide) _ x
  | otherType v caught x =>
      refine .append ?_ (nests_log_under hloud (by decide) _ x)
      exact nests_ite (fun _ => nests_toString hloud v caught) fun _ => Discipline.nests_nil
  | invalid x => exact nests_log_under hloud (by decide) _ x
  | new => exact nests_write rfl List.mem_cons_self

omit hloud in
theorem nests_lookupBase : (discipline ordered checked).Nests 0 under lookupBase :=
  nests_shared le_rfl rfl

theorem nests_visit (vars : List (Var × Option LogRun × LogRun)) :
    (discipline ordered checked).Nests 0 under (visit loud vars) := by
  refine nests_readers le_rfl (.append (nests_read rfl List.mem_cons_self) ?_)
  refine Discipline.nests_flatMap fun x _ => .append ?_ (nests_log_under hloud (by decide) _ x.2.2)
  exact nests_ite (fun _ => nests_toString hloud x.1 x.2.1) fun _ => Discipline.nests_nil

theorem nests_loadFromYaml (refused : List LogRun)
    (entries : List (Option (Var × Option SetRun × Option LogRun))) :
    (discipline ordered checked).Nests 0 under (loadFromYaml loud refused entries) := by
  refine .append ?_ (Discipline.nests_flatMap fun e _ => .append nests_lookupBase ?_)
  · exact Discipline.nests_flatMap fun x _ => nests_log_under hloud (by decide) _ x
  · split
    · exact Discipline.nests_nil
    · exact (nests_fromString hloud _ _ _).mono (by decide) (List.Subset.refl _)

omit hloud in
theorem nests_addListener (v : Var) :
    (discipline ordered checked).Nests 1 under (addListener v) :=
  nests_alone le_rfl (.append (nests_bare rfl) (nests_write rfl List.mem_cons_self))

end Config

/-! ### Scheduling, events and timers -/

section Scheduling

variable {ordered : Prop} {checked : Datum → Prop} {under : List (Lock × Mode)} {loud : Bool}
variable (hloud : ordered → loud = false)

include hloud

theorem TickleRun.nests (x : TickleRun) :
    (discipline ordered checked).Nests 4 under (x.program loud) := by
  cases x with
  | base x => exact nests_log_under hloud (by decide) _ x
  | asleep => exact Discipline.nests_nil
  | write hooked =>
      cases hooked with
      | none => exact Discipline.nests_nil
      | some x =>
          refine .append (nests_log_under hloud (by decide) _ x) ?_
          exact (nests_fdGet false).mono (by decide) (List.Subset.refl _)

theorem ScheduleRun.nests (x : ScheduleRun) :
    (discipline ordered checked).Nests 3 under (x.program loud) := by
  refine .append (nests_alone le_rfl (nests_write rfl List.mem_cons_self)) ?_
  split
  · exact Discipline.nests_nil
  · exact (TickleRun.nests hloud _).mono (by decide) (List.Subset.refl _)

theorem nests_start (s : Nat) (runs : Bool) (failed : Option LogRun) :
    (discipline ordered checked).Nests 3 under (start loud s runs failed) := by
  refine nests_alone le_rfl (.append (nests_read rfl List.mem_cons_self) ?_)
  refine nests_ite (fun _ => Discipline.nests_nil) fun _ => .append (.append ?_ ?_) ?_
  · exact nests_write rfl List.mem_cons_self
  · exact nests_write rfl List.mem_cons_self
  · exact nests_logIf_under hloud (show 4 ≤ 5 by decide) _ failed

omit hloud in
theorem nests_stopping (s : Nat) (flagged : Bool) :
    (discipline ordered checked).Nests 3 under (stopping s flagged) := by
  refine nests_alone le_rfl (.append (nests_read rfl List.mem_cons_self) ?_)
  exact nests_ite (fun _ => nests_read rfl List.mem_cons_self) fun _ => Discipline.nests_nil

theorem nests_newFiber (stackSize : Option Var) (x : LogRun) :
    (discipline ordered checked).Nests 1 under (newFiber loud stackSize x) := by
  refine .append ?_ (nests_log_under hloud (by decide) _ x)
  split
  · exact Discipline.nests_nil
  · exact nests_shared le_rfl rfl

omit hloud in
theorem nests_tryWait (f : Nat) : (discipline ordered checked).Nests 2 under (tryWait f) :=
  nests_guarded le_rfl rfl

theorem nests_wait (f : Nat) (created : Option LogRun) :
    (discipline ordered checked).Nests 2 under (wait loud f created) := by
  refine nests_alone le_rfl (.append (.append ?_ ?_) (nests_write rfl List.mem_cons_self))
  · exact nests_read rfl List.mem_cons_self
  · exact nests_logIf_under hloud (show 3 ≤ 5 by decide) _ created

theorem nests_notify (f : Nat) (next : Option (ScheduleRun × Option LogRun)) :
    (discipline ordered checked).Nests 2 under (notify loud f next) := by
  refine nests_alone le_rfl (.append (nests_write rfl List.mem_cons_self) ?_)
  split
  · exact Discipline.nests_nil
  · exact .append (ScheduleRun.nests hloud _) (nests_logIf_under hloud (show 3 ≤ 5 by decide) _ _)

theorem nests_dispatch (i fd : Nat) (x : EventRun) :
    (discipline ordered checked).Nests 2 under (dispatch loud i fd x) := by
  refine nests_alone le_rfl ?_
  cases x with
  | nothing => exact nests_read rfl List.mem_cons_self
  | refused x =>
      exact .append (nests_read rfl List.mem_cons_self)
        (nests_log_under hloud (show 3 ≤ 5 by decide) _ x)
  | stored logged =>
      exact .append (nests_write rfl List.mem_cons_self)
        (nests_logIf_under hloud (show 3 ≤ 5 by decide) _ logged)
  | fired calls =>
      exact .append (nests_write rfl List.mem_cons_self)
        (Discipline.nests_flatMap fun c _ => c.nests hloud)

omit hloud in
theorem nests_fdContexts (i : Nat) :
    (discipline ordered checked).Nests 2 under (readers (.ioManager i) (read (.fdContexts i))) :=
  nests_readers (show 2 ≤ 3 by decide) (nests_read rfl List.mem_cons_self)

theorem nests_addEvent (i fd : Nat) (grows : Bool) (x : EventRun) :
    (discipline ordered checked).Nests 2 under (addEvent loud i fd grows x) := by
  refine .append (.append (nests_fdContexts i) ?_) (nests_dispatch hloud i fd x)
  refine nests_ite (fun _ => ?_) fun _ => Discipline.nests_nil
  exact nests_alone (show 2 ≤ 3 by decide) (nests_write rfl List.mem_cons_self)

theorem nests_endEvents (i fd : Nat) (x : Option EventRun) :
    (discipline ordered checked).Nests 2 under (endEvents loud i fd x) := by
  refine .append (nests_fdContexts i) ?_
  split
  · exact Discipline.nests_nil
  · exact nests_dispatch hloud i fd _

theorem nests_addTimer (i : Nat) (front : Option (LogRun × TickleRun)) :
    (discipline ordered checked).Nests 3 under (addTimer loud i front) := by
  refine .append (nests_alone le_rfl (.append ?_ ?_)) ?_
  · exact nests_write rfl List.mem_cons_self
  · exact nests_access rfl List.mem_cons_self
  · split
    · exact Discipline.nests_nil
    · refine .append (nests_log_under hloud (by decide) _ _) ?_
      exact (TickleRun.nests hloud _).mono (by decide) (List.Subset.refl _)

theorem nests_reset (i : Nat) (x : ResetRun) (htimers : ¬ checked (.timers i)) :
    (discipline ordered checked).Nests 3 under (reset loud i x) := by
  refine .append (nests_unchecked htimers) ?_
  cases x with
  | same => exact Discipline.nests_nil
  | gone => exact nests_guarded le_rfl rfl
  | moved front => exact nests_addTimer hloud i front

omit hloud

theorem nests_changeTimer (i : Nat) :
    (discipline ordered checked).Nests 3 under (changeTimer i) :=
  nests_guarded le_rfl rfl

theorem nests_hasTimer (i : Nat) : (discipline ordered checked).Nests 3 under (hasTimer i) :=
  nests_shared le_rfl rfl

theorem nests_getNextTimer (i : Nat) (htickled : ¬ checked (.tickled i)) :
    (discipline ordered checked).Nests 3 under (getNextTimer i) :=
  nests_readers le_rfl (.append (nests_unchecked htickled) (nests_read rfl List.mem_cons_self))

theorem nests_listExpiredCb (i : Nat) (empty : Bool) :
    (discipline ordered checked).Nests 3 under (listExpiredCb i empty) := by
  refine .append (nests_hasTimer i) ?_
  refine nests_ite (fun _ => Discipline.nests_nil) fun _ => ?_
  exact nests_guarded le_rfl rfl

end Scheduling

/-! ## Calls in any order -/

/-- The calls that touch what a lock guards without it, or write it under a lock that readers
share. -/
def Call.Exposes : Call → Datum → Prop
  | .clearListener v, d => d = .cbs v
  | .getNextTimer i, d => d = .tickled i
  | .reset i _, d => d = .timers i
  | .setStopping s, d => d = .stopping s
  | .getConcurrency f, d => d = .permits f
  | .resetConcurrency f, d => d = .permits f
  | _, _ => False

theorem Call.disciplined {ordered : Prop} {checked : Datum → Prop} {loud : Bool}
    (hloud : ordered → loud = false) (c : Call) (hc : ∀ d, c.Exposes d → ¬ checked d) :
    (discipline ordered checked).Disciplined (c.program loud) := by
  cases c with
  | reopen a closing =>
      exact (nests_reopen le_rfl a fun _ => nests_flush hloud closing).disciplined
  | log name x => exact (nests_log hloud name x).disciplined
  | setLevel name => exact (nests_bare (k := 0) rfl).disciplined
  | setAppenderLevel a => exact (nests_bare (k := 0) rfl).disciplined
  | addAppender name a bare => exact (nests_addAppender name a bare).disciplined
  | removeAppenders name closed => exact (nests_removeAppenders hloud name closed).disciplined
  | setFormatter name attached => exact (nests_setFormatter name attached).disciplined
  | getFormatter name => exact (nests_getFormatter name).disciplined
  | getOwnFormatter a => exact (nests_getOwnFormatter a).disciplined
  | setOwnFormatter a => exact (nests_setOwnFormatter a).disciplined
  | appenderToYamlString a => exact (nests_appenderToYamlString a).disciplined
  | toYamlString name attached => exact (nests_toYamlString name attached).disciplined
  | getLogger new => exact (nests_getLogger new).disciplined
  | managerToYamlString loggers => exact (nests_managerToYamlString loggers).disciplined
  | getValue v => exact Discipline.Nests.disciplined (nests_shared (Nat.zero_le _) rfl)
  | setValue v x => exact (x.nests hloud v).disciplined
  | toString v caught => exact (nests_toString hloud v caught).disciplined
  | fromString v converted caught => exact (nests_fromString hloud v converted caught).disciplined
  | addListener v => exact (nests_addListener v).disciplined
  | delListener v => exact Discipline.Nests.disciplined (nests_guarded (Nat.zero_le _) rfl)
  | getListener v => exact Discipline.Nests.disciplined (nests_shared (Nat.zero_le _) rfl)
  | clearListener v =>
      exact (nests_readers (Nat.zero_le 1) (nests_unchecked (hc _ rfl))).disciplined
  | lookup c => exact (nests_lookup hloud c).disciplined
  | lookupBase => exact nests_lookupBase.disciplined
  | visit vars => exact (nests_visit hloud vars).disciplined
  | loadFromYaml refused entries => exact (nests_loadFromYaml hloud refused entries).disciplined
  | connect => exact (nests_bare (k := 0) rfl).disciplined
  | fdGet creates => exact (nests_fdGet creates).disciplined
  | fdDel => exact nests_fdDel.disciplined
  | tickle x => exact (x.nests hloud).disciplined
  | schedule x => exact (x.nests hloud).disciplined
  | scan s => exact Discipline.Nests.disciplined (nests_guarded (Nat.zero_le _) rfl)
  | stopping s flagged => exact (nests_stopping s flagged).disciplined
  | start s runs failed => exact (nests_start hloud s runs failed).disciplined
  | setStopping s => exact (nests_unchecked (k := 0) (hc _ rfl)).disciplined
  | stop s => exact Discipline.Nests.disciplined (nests_guarded (Nat.zero_le _) rfl)
  | newFiber stackSize x => exact (nests_newFiber hloud stackSize x).disciplined
  | tryWait f => exact (nests_tryWait f).disciplined
  | wait f created => exact (nests_wait hloud f created).disciplined
  | notify f next => exact (nests_notify hloud f next).disciplined
  | getConcurrency f => exact (nests_unchecked (k := 0) (hc _ rfl)).disciplined
  | resetConcurrency f => exact (nests_unchecked (k := 0) (hc _ rfl)).disciplined
  | dispatch i fd x => exact (nests_dispatch hloud i fd x).disciplined
  | addEvent i fd grows x => exact (nests_addEvent hloud i fd grows x).disciplined
  | endEvents i fd x => exact (nests_endEvents hloud i fd x).disciplined
  | changeTimer i => exact (nests_changeTimer i).disciplined
  | addTimer i front => exact (nests_addTimer hloud i front).disciplined
  | reset i x => exact (nests_reset hloud i x (hc _ rfl)).disciplined
  | hasTimer i => exact (nests_hasTimer i).disciplined
  | getNextTimer i => exact (nests_getNextTimer i (hc _ rfl)).disciplined
  | listExpiredCb i empty => exact (nests_listExpiredCb i empty).disciplined

section System

variable {ι : Type*}

inductive Action (ι : Type*) where
  /-- a thread that executes none of the functions calls one -/
  | call (i : ι) (loud : Bool) (c : Call)
  /-- a thread executes its next operation -/
  | next (i : ι)

def Action.op : Action ι → Sync.Action ι Lock Datum
  | .call i loud c => .call i (c.program loud)
  | .next i => .next i

def Silent (_ : State ι Lock Datum) : Action ι → Prop
  | .call _ loud _ => loud = false
  | .next _ => True

instance (s : State ι Lock Datum) : (a : Action ι) → Decidable (Silent s a)
  | .call _ loud _ => inferInstanceAs (Decidable (loud = false))
  | .next _ => isTrue trivial

def Regular (checked : Datum → Prop) (_ : State ι Lock Datum) : Action ι → Prop
  | .call _ _ c => ∀ d, c.Exposes d → ¬ checked d
  | .next _ => True

variable [Fintype ι] [DecidableEq ι]

/-- `preferWriters` says how the kernel's read-write locks order their waiters. -/
def step (preferWriters : Bool) (s : State ι Lock Datum) (a : Action ι) :
    Option (State ι Lock Datum) := Sync.step preferWriters s a.op

variable {preferWriters : Bool} {checked : Datum → Prop} {s t : State ι Lock Datum}

theorem silent_preserves :
    Preserves (step preferWriters) Silent
      ((discipline True fun _ => False).Orderly : State ι Lock Datum → Prop) := by
  intro s a t h hg ht
  refine Discipline.preserves s a.op t h ?_ ht
  cases a with
  | call i loud c => exact c.disciplined (fun _ => hg) fun _ _ => id
  | next i => trivial

theorem regular_preserves :
    Preserves (step preferWriters) (Regular checked)
      ((discipline False checked).Orderly : State ι Lock Datum → Prop) := by
  intro s a t h hg ht
  refine Discipline.preserves s a.op t h ?_ ht
  cases a with
  | call i loud c => exact c.disciplined False.elim hg
  | next i => trivial

theorem run_next (is : List ι) (s : State ι Lock Datum) :
    run (step preferWriters) s (is.map .next) =
      run (Sync.step preferWriters) s (is.map .next) := by
  induction is generalizing s with
  | nil => rfl
  | cons i is ih =>
      simp only [List.map_cons, run_cons, ih]
      rfl

/-- Where no thread begins a call the run is silent. -/
theorem reaches_next {is : List ι} (h : run (step preferWriters) s (is.map .next) = some t) :
    Reaches (step preferWriters) Silent s t := by
  induction is generalizing s with
  | nil =>
      cases h
      exact .refl
  | cons i is ih =>
      rw [List.map_cons, run_cons] at h
      obtain ⟨u, hu, hut⟩ := Option.bind_eq_some_iff.mp h
      exact .head (a := .next i) trivial hu (ih hut)

end System

/-! ## Flushes that log -/

def AppenderRun.flushes (a : AppenderRun) : Bool :=
  a.passes && a.file && (a.reopens && a.closing.any LogRun.passes || a.writing.any LogRun.passes)

/-- A flush logs while a message to `system` is written. -/
def LogRun.reenters (x : LogRun) : Bool :=
  x.passes && if x.own.isEmpty then x.rootPasses && x.root.any AppenderRun.flushes
    else x.own.any AppenderRun.flushes

def entering : Op Lock Datum := .acquire (.logger "system") .exclusive

abbrev onSystem : Op Lock Datum → Bool := Op.on (.logger "system")

theorem find_flush (x : Option LogRun) :
    (flush true x).find? onSystem = if x.any LogRun.passes then some entering else none := by
  obtain _ | ⟨passes, own, rootPasses, root⟩ := x
  · rfl
  · cases passes <;> rfl

theorem find_append {p q : Program} {b c : Bool}
    (hp : p.find? onSystem = if b then some entering else none)
    (hq : q.find? onSystem = if c then some entering else none) :
    (p ++ q).find? onSystem = if b || c then some entering else none := by
  rw [List.find?_append, hp, hq]
  cases b <;> rfl

theorem find_alone {l : Lock} (hl : l ≠ .logger "system") (body : Program) :
    (alone l body).find? onSystem = body.find? onSystem := by
  have hacquire : onSystem (.acquire l .exclusive) = false := decide_eq_false hl
  have hrelease : onSystem (.release l) = false := decide_eq_false hl
  rw [alone, locked, List.find?_cons, hacquire, List.find?_append, List.find?_singleton, hrelease]
  exact Option.or_none

theorem find_appenderLog (a : AppenderRun) :
    (appenderLog true a).find? onSystem = if a.flushes then some entering else none := by
  obtain ⟨n, passes, file, reopens, closing, writing⟩ := a
  cases passes
  · rfl
  cases file
  · rfl
  have hn : Lock.appender n ≠ .logger "system" := by simp
  have hclosing : (reopen n (flush true closing) ++ write (.lastTime n)).find? onSystem =
      if closing.any LogRun.passes || false then some entering else none := by
    refine find_append (c := false) ?_ rfl
    rw [reopen, find_alone hn]
    exact find_flush closing
  have hwriting : (alone (.appender n) (read (.appenderFormatter n) ++ write (.filestream n) ++
      flush true writing)).find? onSystem =
        if writing.any LogRun.passes then some entering else none := by
    rw [find_alone hn]
    exact find_flush writing
  cases reopens
  · exact hwriting
  · rw [Bool.or_false] at hclosing
    exact (find_append hclosing hwriting : (reopen n (flush true closing) ++ write (.lastTime n) ++
      alone (.appender n) (read (.appenderFormatter n) ++ write (.filestream n) ++
        flush true writing)).find? onSystem = _)

theorem find_appendersLog (as : List AppenderRun) :
    (appendersLog true as).find? onSystem =
      if as.any AppenderRun.flushes then some entering else none := by
  induction as with
  | nil => rfl
  | cons a as ih => exact find_append (find_appenderLog a) ih

/-- Whoever logs to `system` takes its lock again where a flush logs. -/
theorem relocks_log {x : LogRun} (hx : x.reenters = true) : Relocks [] (log true "system" x) := by
  obtain ⟨passes, own, rootPasses, root⟩ := x
  cases passes
  · cases hx
  have hlock : ∀ {body : Program}, body.find? onSystem = some entering →
      Relocks [] (read (.level "system") ++ loop "system" body) := by
    intro body hbody
    refine .inr (relocks_of_find? (l := .logger "system") (m := .exclusive) ?_ List.mem_cons_self)
    change (body ++ [Op.release (Lock.logger "system")]).find? onSystem = _
    rw [List.find?_append, hbody]
    rfl
  cases own with
  | nil =>
      cases rootPasses
      · cases hx
      · refine hlock ?_
        have hroot : root.any AppenderRun.flushes = true := hx
        change (loop "root" (appendersLog true root)).find? onSystem = _
        rw [loop, find_alone (by simp)]
        refine (find_appendersLog root).trans ?_
        rw [hroot]
        rfl
  | cons a as =>
      refine hlock ?_
      have hown : (a :: as).any AppenderRun.flushes = true := hx
      refine (find_appendersLog (a :: as)).trans ?_
      rw [hown]
      rfl

theorem flush_eq {x : Option LogRun} (hx : x.any LogRun.passes = false) :
    flush true x = flush false x := by
  obtain _ | ⟨passes, own, rootPasses, root⟩ := x
  · rfl
  · cases passes
    · rfl
    · cases hx

theorem appenderLog_eq {a : AppenderRun} (ha : a.flushes = false) :
    appenderLog true a = appenderLog false a := by
  obtain ⟨n, passes, file, reopens, closing, writing⟩ := a
  cases passes
  · rfl
  cases file
  · rfl
  obtain ⟨hclosing, hwriting⟩ : (reopens && closing.any LogRun.passes) = false ∧
      writing.any LogRun.passes = false := Bool.or_eq_false_iff.mp ha
  have hsame : fileLog n reopens (flush true closing) (flush true writing) =
      fileLog n reopens (flush false closing) (flush false writing) := by
    rw [flush_eq hwriting]
    cases reopens
    · rfl
    · rw [flush_eq hclosing]
  exact congrArg (read (.appenderLevel n) ++ ·) hsame

theorem appendersLog_eq {as : List AppenderRun} (has : as.any AppenderRun.flushes = false) :
    appendersLog true as = appendersLog false as := by
  induction as with
  | nil => rfl
  | cons a as ih =>
      obtain ⟨ha, has⟩ := Bool.or_eq_false_iff.mp (List.any_cons ▸ has)
      rw [appendersLog, appendersLog, appenderLog_eq ha, ih has]

/-- Otherwise it does what it does without a flush that logs. -/
theorem log_eq {x : LogRun} (hx : x.reenters = false) :
    log true "system" x = log false "system" x := by
  obtain ⟨passes, own, rootPasses, root⟩ := x
  cases passes
  · rfl
  cases own with
  | nil =>
      cases rootPasses
      · rfl
      · have hroot : root.any AppenderRun.flushes = false := hx
        simp only [log, appendersLog_eq hroot]
        rfl
  | cons a as =>
      have hown : (a :: as).any AppenderRun.flushes = false := hx
      simp only [log, appendersLog_eq hown]
      rfl

/-! ## Every call ends -/

section System

variable {ι : Type*} [Fintype ι] [DecidableEq ι] {preferWriters : Bool}

theorem relocks_stays {s t : State ι Lock Datum} (h : Reaches (step preferWriters) Free s t) {i : ι}
    (hs : Relocks (s i).held (s i).rest) : Relocks (t i).held (t i).rest := by
  refine h.invariant (P := fun s => Relocks (s i).held (s i).rest) ?_ hs
  exact fun s a t hs _ ht => relocks_preserved i s a.op t hs trivial ht

/-- Where no flush logs every unfinished call of a reached state can be finished: threads that
begin no new call execute at most what is left, they stop only where every call has ended, and they
can all end. A message to `system` during which a flush logs is never finished; without one it is
as if no flush logged. -/
theorem calls_complete :
    (∀ s : State ι Lock Datum, Reaches (step preferWriters) Silent .init s →
      (∀ (is : List ι) t, run (step preferWriters) s (is.map .next) = some t →
        is.length ≤ remaining s ∧ ((∀ i, step preferWriters t (.next i) = none) → t = .init)) ∧
      ∃ is : List ι, run (step preferWriters) s (is.map .next) = some .init) ∧
    ∀ x : LogRun,
      (x.reenters = true → ∀ (s t u : State ι Lock Datum) (i : ι),
        Reaches (step preferWriters) Free .init s →
          step preferWriters s (.call i true (.log "system" x)) = some t →
            Reaches (step preferWriters) Free t u → (u i).rest ≠ []) ∧
      (x.reenters = false →
        (Call.log "system" x).program true = (Call.log "system" x).program false) := by
  refine ⟨fun s h => ?_, fun x => ⟨fun hx s t u i hs ht hu => ?_, log_eq⟩⟩
  · have horderly : (discipline True fun _ => False).Orderly s :=
      h.invariant silent_preserves Discipline.orderly_init
    constructor
    · intro is t ht
      have hleft := run_remaining (run_next is s ▸ ht)
      refine ⟨by omega, fun hstuck => ?_⟩
      have horderly' : (discipline True fun _ => False).Orderly t :=
        (reaches_next ht).invariant silent_preserves horderly
      exact horderly'.ended trivial hstuck
    · obtain ⟨is, hrun⟩ : ∃ is : List ι, run (Sync.step preferWriters) s (is.map .next) =
          some .init := horderly.completes trivial
      exact ⟨is, run_next is s ▸ hrun⟩
  · refine (relocks_stays hu ?_ : Relocks (u i).held (u i).rest).ne_nil
    have horderly : (discipline False fun _ => False).Orderly s :=
      (hs.mono fun _ a _ => (by cases a with
        | call i loud c => exact fun _ _ => id
        | next i => trivial)).invariant regular_preserves Discipline.orderly_init
    simp only [step, Action.op, Sync.step] at ht
    split at ht <;> cases ht
    rename_i hidle
    have hnone : (s i).held = [] := by
      have hfits := horderly.fits i
      rwa [hidle] at hfits
    rw [Function.update_self, hnone]
    exact relocks_log hx

/-- A visitor of the variables and a writer of one of them, both with a lock. -/
theorem calls_complete_visit : ∃ s : State Bool Lock Datum,
    ((s false).held = [(.config, .shared)] ∧ (s true).held = [(.configVar ⟨0, 3⟩, .shared)]) ∧
      ∃ is : List Bool, run (step true) s (is.map .next) = some .init := by
  have hrun : (checkedRun (step true) (fun s a => decide (Silent s a))
      (.init : State Bool Lock Datum)
      [.call false false (.visit [(⟨0, 3⟩, none, ⟨true, [], true, []⟩)]), .next false, .next false,
        .call true false (.setValue ⟨0, 3⟩
          ⟨false, [.connectTimeout ⟨true, [], true, []⟩], false⟩),
        .next true]).any (fun s => decide ((s false).held = [(.config, .shared)] ∧
          (s true).held = [(.configVar ⟨0, 3⟩, .shared)])) = true := by decide
  obtain ⟨s, hs, hheld⟩ := exists_some_of_any hrun
  exact ⟨s, hheld, (calls_complete.1 s (.of_decidedRun hs)).2⟩

end System

end Sylar.Hierarchy
