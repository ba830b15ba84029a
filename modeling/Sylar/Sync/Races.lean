import Sylar.Sync.Hierarchy

/-! # Races

A member is raced for only where some call touches it outside of its lock, or where it has none;
and for every such member there are two calls that do race.
-/

namespace Sylar.Hierarchy

open Sync Transition

/-- The call touches the datum without the lock that it needs. -/
def Call.Exceptional (loud : Bool) (c : Call) (d : Datum) : Prop :=
  c.Exposes d ∨ d.guard = none ∧ ∃ w, .access d w ∈ c.program loud

section Guarded

variable {ι : Type*}

def Ordinary (d : Datum) (_ : State ι Lock Datum) : Action ι → Prop
  | .call _ loud c => ¬ c.Exceptional loud d
  | .next _ => True

variable [Fintype ι] [DecidableEq ι] {preferWriters : Bool} {s : State ι Lock Datum} {d : Datum}

theorem no_race_of_guard {l : Lock} (hl : d.guard = some l)
    (h : Reaches (step preferWriters) (Ordinary d) .init s) : ¬ Race s d := by
  have hregular : Reaches (step preferWriters) (Regular (· = d)) .init s := by
    refine h.mono fun _ a ha => ?_
    cases a with
    | call i loud c => exact fun d' hd heq => ha (.inl (heq ▸ hd))
    | next i => trivial
  have horderly := hregular.invariant regular_preserves Discipline.orderly_init
  exact horderly.no_race (x := discipline False (· = d)) rfl hl

theorem no_race_of_bare (hd : d.guard = none)
    (h : Reaches (step preferWriters) (Ordinary d) .init s) : ¬ Race s d := by
  have huntouched : ∀ i w, Op.access d w ∉ (s i).rest := by
    refine h.invariant (P := fun s => ∀ i w, Op.access d w ∉ (s i).rest) ?_ ?_
    case refine_2 => exact fun i w hw => by cases hw
    intro s a t hs ha ht
    refine untouched_preserved d s a.op t hs (fun i p heq => ?_) ht
    cases a with
    | call j loud c =>
        cases heq
        exact fun w hw => ha (.inr ⟨hd, w, hw⟩)
    | next j => cases heq
  rintro ⟨i, -, -, hi, -⟩
  obtain ⟨p, hp⟩ := List.head?_eq_some_iff.mp hi
  exact huntouched i true (hp ▸ List.mem_cons_self)

end Guarded

/-! ## Two threads -/

section Races

variable {ι : Type*} [DecidableEq ι]

def both (i j : ι) (x y : Thread Lock Datum) : State ι Lock Datum :=
  Function.update (Function.update State.init i x) j y

theorem both_left {i j : ι} (hij : i ≠ j) (x y : Thread Lock Datum) : both i j x y i = x := by
  rw [both, Function.update_of_ne hij, Function.update_self]

theorem both_right (i j : ι) (x y : Thread Lock Datum) : both i j x y j = y :=
  Function.update_self ..

theorem both_comm {i j : ι} (hij : i ≠ j) (x y : Thread Lock Datum) :
    both i j x y = both j i y x := Function.update_comm hij ..

theorem both_other {i j k : ι} (hi : k ≠ i) (hj : k ≠ j) (x y : Thread Lock Datum) :
    both i j x y k = ⟨[], []⟩ := by
  rw [both, Function.update_of_ne hj, Function.update_of_ne hi]
  rfl

theorem update_right (i j : ι) (x y z : Thread Lock Datum) :
    Function.update (both i j x y) j z = both i j x z := Function.update_idem ..

/-- A thread goes from `y` to `z` beside one that stays at `x`. -/
inductive Advances (x : Thread Lock Datum) : Thread Lock Datum → Thread Lock Datum → Prop where
  | stay {z : Thread Lock Datum} : Advances x z z
  | access {held : List (Lock × Mode)} {d : Datum} {w : Bool} {p : Program}
      {z : Thread Lock Datum} : Advances x ⟨held, p⟩ z → Advances x ⟨held, .access d w :: p⟩ z
  | release {held : List (Lock × Mode)} {l : Lock} {p : Program} {z : Thread Lock Datum} :
      Advances x ⟨without l held, p⟩ z → Advances x ⟨held, .release l :: p⟩ z
  | acquire {held : List (Lock × Mode)} {l : Lock} {m : Mode} {p : Program}
      {z : Thread Lock Datum} :
      (∀ h ∈ held ++ x.held, h.1 = l → m = .shared ∧ h.2 = .shared) →
      (m = .shared → x.rest.head? ≠ some (.acquire l .exclusive)) →
        Advances x ⟨(l, m) :: held, p⟩ z → Advances x ⟨held, .acquire l m :: p⟩ z

theorem admitted_both {preferWriters : Bool} {i j : ι} {x : Thread Lock Datum}
    {held : List (Lock × Mode)} {l : Lock} {m : Mode} {p : Program} (hij : i ≠ j)
    (hfree : ∀ h ∈ held ++ x.held, h.1 = l → m = .shared ∧ h.2 = .shared)
    (hwriter : m = .shared → x.rest.head? ≠ some (.acquire l .exclusive)) :
    admitted preferWriters (both i j x ⟨held, .acquire l m :: p⟩) l m := by
  refine ⟨fun k h hh heq => ?_, fun _ hm k hk => ?_⟩
  · by_cases hj : k = j
    · rw [hj, both_right] at hh
      exact hfree h (List.mem_append_left _ hh) heq
    · by_cases hi : k = i
      · rw [hi, both_left hij] at hh
        exact hfree h (List.mem_append_right _ hh) heq
      · rw [both_other hi hj] at hh
        cases hh
  · by_cases hj : k = j
    · rw [hj, both_right, List.head?_cons, Option.some.injEq, Op.acquire.injEq] at hk
      cases hm.symm.trans hk.2
    · by_cases hi : k = i
      · rw [hi, both_left hij] at hk
        exact hwriter hm hk
      · rw [both_other hi hj] at hk
        cases hk

variable [Fintype ι] {preferWriters : Bool}

theorem reaches_right {i j : ι} (hij : i ≠ j) {x y z : Thread Lock Datum} (h : Advances x y z) :
    Reaches (step preferWriters) Free (both i j x y) (both i j x z) := by
  induction h with
  | stay => exact .refl
  | access _ ih =>
      refine .head (a := .next j) trivial ?_ ih
      simp only [step, Action.op, Sync.step, Sync.next, both_right, update_right]
  | release _ ih =>
      refine .head (a := .next j) trivial ?_ ih
      simp only [step, Action.op, Sync.step, Sync.next, both_right, update_right]
  | acquire hfree hwriter _ ih =>
      refine .head (a := .next j) trivial ?_ ih
      simp only [step, Action.op, Sync.step, Sync.next, both_right, update_right,
        if_pos (admitted_both hij hfree hwriter)]

theorem reaches_left {i j : ι} (hij : i ≠ j) {x y z : Thread Lock Datum} (h : Advances y x z) :
    Reaches (step preferWriters) Free (both i j x y) (both i j z y) := by
  rw [both_comm hij, both_comm hij]
  exact reaches_right hij.symm h

theorem reaches_both {i j : ι} (hij : i ≠ j) (c c' : Call) :
    Reaches (step preferWriters) Free .init
      (both i j ⟨[], c.program false⟩ ⟨[], c'.program false⟩) := by
  have hi : step preferWriters (State.init : State ι Lock Datum) (.call i false c) =
      some (Function.update State.init i ⟨[], c.program false⟩) := by
    simp only [step, Action.op, Sync.step]
    exact if_pos rfl
  refine (Reaches.refl.tail trivial hi).tail (a := .call j false c') trivial ?_
  simp only [step, Action.op, Sync.step, Function.update_of_ne hij.symm]
  exact if_pos rfl

/-- Two calls that come to the datum, one of them to write it. -/
theorem race_of {i j : ι} (hij : i ≠ j) {c c' : Call} {d : Datum} {w : Bool}
    {held held' : List (Lock × Mode)} {p q : Program}
    (hleft : Advances ⟨[], c'.program false⟩ ⟨[], c.program false⟩ ⟨held, .access d true :: p⟩)
    (hright : Advances ⟨held, .access d true :: p⟩ ⟨[], c'.program false⟩
      ⟨held', .access d w :: q⟩) :
    ∃ s : State ι Lock Datum, Reaches (step preferWriters) Free .init s ∧ Race s d := by
  refine ⟨_, ((reaches_both hij c c').trans (reaches_left hij hleft)).trans
    (reaches_right hij hright), i, j, hij, ?_, w, ?_⟩
  · rw [both_left hij]
    rfl
  · rw [both_right]
    rfl

/-- The same call by both, which writes at once. -/
theorem race_of_write {i j : ι} (hij : i ≠ j) {c : Call} {d : Datum} {q : Program}
    (hc : c.program false = .access d true :: q) :
    ∃ s : State ι Lock Datum, Reaches (step preferWriters) Free .init s ∧ Race s d := by
  have hstay : ∀ x, Advances x ⟨[], c.program false⟩ ⟨[], .access d true :: q⟩ :=
    fun x => hc ▸ .stay
  exact race_of hij (hstay _) (hstay _)

theorem race_of_shared {i j : ι} (hij : i ≠ j) {c : Call} {l : Lock} {d : Datum} {q : Program}
    (hc : c.program false = .acquire l .shared :: .access d true :: q) :
    ∃ s : State ι Lock Datum, Reaches (step preferWriters) Free .init s ∧ Race s d := by
  have hleft : Advances ⟨[], c.program false⟩ ⟨[], c.program false⟩
      ⟨[(l, .shared)], .access d true :: q⟩ := by
    rw [hc]
    exact .acquire (by simp) (by simp) .stay
  have hright : Advances ⟨[(l, .shared)], .access d true :: q⟩ ⟨[], c.program false⟩
      ⟨[(l, .shared)], .access d true :: q⟩ := by
    rw [hc]
    exact .acquire (by simp) (by simp) .stay
  exact race_of hij hleft hright

/-! ### The members that are raced for -/

theorem race_timers {i j : ι} (hij : i ≠ j) (n : Nat) :
    ∃ s : State ι Lock Datum, Reaches (step preferWriters) Free .init s ∧ Race s (.timers n) := by
  have hprogram : (Call.reset n (.moved none)).program false = .access (.timers n) false ::
      .acquire (.timerManager n) .exclusive :: .access (.timers n) true ::
        [.access (.tickled n) false, .release (.timerManager n)] := rfl
  have hleft : Advances ⟨[], (Call.reset n (.moved none)).program false⟩
      ⟨[], (Call.reset n (.moved none)).program false⟩
      ⟨[(.timerManager n, .exclusive)], .access (.timers n) true ::
        [.access (.tickled n) false, .release (.timerManager n)]⟩ := by
    rw [hprogram]
    exact .access (.acquire (by simp) (by simp) .stay)
  exact race_of hij hleft .stay

theorem race_funId {i j : ι} (hij : i ≠ j) (type : Nat) :
    ∃ s : State ι Lock Datum, Reaches (step preferWriters) Free .init s ∧ Race s (.funId type) := by
  have hprogram : ∀ n, (Call.addListener ⟨type, n⟩).program false =
      .acquire (.configVar ⟨type, n⟩) .exclusive :: .access (.funId type) true ::
        [.access (.cbs ⟨type, n⟩) true, .release (.configVar ⟨type, n⟩)] := fun _ => rfl
  have hstep : ∀ m n (x : Thread Lock Datum),
      x.held = [] ∨ x.held = [(.configVar ⟨type, m⟩, .exclusive)] → m ≠ n →
      Advances x ⟨[], (Call.addListener ⟨type, n⟩).program false⟩
        ⟨[(.configVar ⟨type, n⟩, .exclusive)], .access (.funId type) true ::
          [.access (.cbs ⟨type, n⟩) true, .release (.configVar ⟨type, n⟩)]⟩ := by
    intro m n x hx hmn
    rw [hprogram]
    refine .acquire (fun h hh heq => ?_) (by simp) .stay
    rcases hx with hx | hx
    · rw [hx] at hh
      cases hh
    · rw [hx] at hh
      cases List.mem_singleton.mp hh
      cases heq
      exact (hmn rfl).elim
  exact race_of hij (hstep 1 0 _ (.inl rfl) (by decide)) (hstep 0 1 _ (.inr rfl) (by decide))

theorem race_connectTimeout {i j : ι} (hij : i ≠ j) :
    ∃ s : State ι Lock Datum, Reaches (step preferWriters) Free .init s ∧
      Race s .connectTimeout := by
  have hleft : Advances ⟨[], Call.connect.program false⟩
      ⟨[], (Call.setValue ⟨0, 0⟩
        ⟨false, [.connectTimeout ⟨false, [], false, []⟩], true⟩).program false⟩
      ⟨[(.configVar ⟨0, 0⟩, .shared)], .access .connectTimeout true ::
        [.release (.configVar ⟨0, 0⟩)]⟩ := by
    have hprogram : (Call.setValue ⟨0, 0⟩
        ⟨false, [.connectTimeout ⟨false, [], false, []⟩], true⟩).program false =
        .acquire (.configVar ⟨0, 0⟩) .shared :: .access (.val ⟨0, 0⟩) false ::
          .access (.cbs ⟨0, 0⟩) false :: .access (.level "system") false ::
            .access .connectTimeout true :: [.release (.configVar ⟨0, 0⟩)] := rfl
    rw [hprogram]
    exact .acquire (by simp) (fun _ => by decide) (.access (.access (.access .stay)))
  have hright : Advances ⟨[(.configVar ⟨0, 0⟩, .shared)], .access .connectTimeout true ::
      [.release (.configVar ⟨0, 0⟩)]⟩ ⟨[], Call.connect.program false⟩
      ⟨[], .access .connectTimeout false :: []⟩ := .stay
  exact race_of hij hleft hright

/-- A message that `FileLogAppender::log` writes to a stream that it opens again. -/
def reopening (a : Nat) : LogRun := ⟨true, [⟨a, true, true, true, none, none⟩], false, []⟩

theorem race_lastTime {i j : ι} (hij : i ≠ j) (a : Nat) :
    ∃ s : State ι Lock Datum, Reaches (step preferWriters) Free .init s ∧ Race s (.lastTime a) := by
  have hprogram : ∀ name, (Call.log name (reopening a)).program false =
      .access (.level name) false :: .acquire (.logger name) .exclusive ::
        .access (.appenders name) false :: .access (.appenderLevel a) false ::
          .access (.lastTime a) false :: .acquire (.appender a) .exclusive ::
            .access (.filestream a) true :: .release (.appender a) ::
              .access (.lastTime a) true :: .acquire (.appender a) .exclusive ::
                .access (.appenderFormatter a) false :: .access (.filestream a) true ::
                  [.release (.appender a), .release (.logger name)] := fun _ => rfl
  have hleft : Advances ⟨[], (Call.log "system" (reopening a)).program false⟩
      ⟨[], (Call.log "root" (reopening a)).program false⟩
      ⟨[(.logger "root", .exclusive)], .access (.lastTime a) true ::
        .acquire (.appender a) .exclusive :: .access (.appenderFormatter a) false ::
          .access (.filestream a) true :: [.release (.appender a), .release (.logger "root")]⟩ := by
    have hreleased :
        without (.appender a) [(.appender a, .exclusive), (.logger "root", .exclusive)] =
        [((.logger "root", .exclusive) : Lock × Mode)] := by simp [without]
    rw [hprogram, hprogram]
    refine .access (.acquire (by simp) (by simp) (.access (.access (.access
      (.acquire (by simp) (by simp) (.access (.release ?_)))))))
    rw [hreleased]
    exact .stay
  have hright : ∀ p, Advances ⟨[(.logger "root", .exclusive)], .access (.lastTime a) true :: p⟩
      ⟨[], (Call.log "system" (reopening a)).program false⟩
      ⟨[(.logger "system", .exclusive)], .access (.lastTime a) false ::
        .acquire (.appender a) .exclusive :: .access (.filestream a) true ::
          .release (.appender a) :: .access (.lastTime a) true ::
            .acquire (.appender a) .exclusive :: .access (.appenderFormatter a) false ::
              .access (.filestream a) true ::
                [.release (.appender a), .release (.logger "system")]⟩ := by
    intro p
    rw [hprogram]
    exact .access (.acquire (by simp) (by simp) (.access (.access .stay)))
  exact race_of hij hleft (hright _)

/-- What a call touches outside of its lock can be raced for, -/
theorem Call.race_of_exposes {i j : ι} (hij : i ≠ j) {d : Datum} (c : Call) (hc : c.Exposes d) :
    ∃ s : State ι Lock Datum, Reaches (step preferWriters) Free .init s ∧ Race s d := by
  cases c with
  | clearListener v =>
      cases (hc : d = .cbs v)
      exact race_of_shared hij (c := .clearListener v) rfl
  | getNextTimer n =>
      cases (hc : d = .tickled n)
      exact race_of_shared hij (c := .getNextTimer n) rfl
  | reset n x =>
      cases (hc : d = .timers n)
      exact race_timers hij n
  | setStopping n =>
      cases (hc : d = .stopping n)
      exact race_of_write hij (c := .setStopping n) rfl
  | getConcurrency f =>
      cases (hc : d = .permits f)
      exact race_of_write hij (c := .resetConcurrency f) rfl
  | resetConcurrency f =>
      cases (hc : d = .permits f)
      exact race_of_write hij (c := .resetConcurrency f) rfl
  | _ => exact hc.elim

/-- and so can what has no lock. -/
theorem race_of_bare {i j : ι} (hij : i ≠ j) {d : Datum} (hd : d.guard = none) :
    ∃ s : State ι Lock Datum, Reaches (step preferWriters) Free .init s ∧ Race s d := by
  cases d with
  | funId type => exact race_funId hij type
  | connectTimeout => exact race_connectTimeout hij
  | level name => exact race_of_write hij (c := .setLevel name) rfl
  | appenderLevel a => exact race_of_write hij (c := .setAppenderLevel a) rfl
  | lastTime a => exact race_lastTime hij a
  | _ => cases hd

end Races

end Sylar.Hierarchy
