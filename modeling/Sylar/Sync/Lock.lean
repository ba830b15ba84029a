import Sylar.Collection.Sum
import Sylar.Transition.Run

/-! # Threads that take locks

Any number of threads, each executing a program of lock operations and of accesses to shared
data. A program that takes its locks in the order of a rank, releases them, and touches each
datum under the lock that guards it is disciplined. Where every program is, no two threads race
for a guarded datum, some thread can always go on, and every program comes to its end. A program
that comes to a lock that it holds itself does not.
-/

namespace Sylar.Sync

open Transition Collection

variable {ι L D R : Type*}

/-! ## Programs -/

/-- How a lock is taken: together with other readers, or alone. -/
inductive Mode where
  | shared | exclusive
  deriving DecidableEq, Repr

inductive Op (L D : Type*) where
  | acquire (l : L) (m : Mode)
  | release (l : L)
  | access (d : D) (write : Bool)
  deriving DecidableEq, Repr

def locked (l : L) (m : Mode) (body : List (Op L D)) : List (Op L D) :=
  .acquire l m :: (body ++ [.release l])

/-! ## Threads -/

/-- The locks a thread holds, the last one first, and what it has still to execute. -/
structure Thread (L D : Type*) where
  held : List (L × Mode)
  rest : List (Op L D)
  deriving DecidableEq, Repr

abbrev State (ι L D : Type*) := ι → Thread L D

def State.init : State ι L D := fun _ => ⟨[], []⟩

section Discipline

variable [DecidableEq L]

/-- The locks that are left after `l` is released. -/
def without (l : L) (held : List (L × Mode)) : List (L × Mode) :=
  held.filter fun h => h.1 ≠ l

/-- The order of the locks, whether it is kept, the lock of each datum that has one, and which data
are checked. -/
structure Discipline (L D R : Type*) where
  rank : L → R
  ordered : Prop
  guard : D → Option L
  checked : D → Prop

variable [LinearOrder R]

/-- What is to be executed fits what is held: a lock comes behind every lock that is held, only
a held lock is released, a checked datum is read under its lock and written under it alone, and
nothing is held in the end. Where the order is not kept, a lock need only not be held, and a thread
that is to hold alone what it holds goes no further. -/
def Discipline.Fits (x : Discipline L D R) : List (L × Mode) → List (Op L D) → Prop
  | held, [] => held = []
  | held, .acquire l m :: p =>
      (¬ x.ordered ∧ m = .exclusive ∧ ∃ h ∈ held, h.1 = l) ∨
        (∀ h ∈ held, h.1 ≠ l ∧ (x.ordered → x.rank h.1 < x.rank l)) ∧ x.Fits ((l, m) :: held) p
  | held, .release l :: p => (∃ h ∈ held, h.1 = l) ∧ x.Fits (without l held) p
  | held, .access d write :: p =>
      (x.checked d → ∀ l ∈ x.guard d, ∃ h ∈ held, h.1 = l ∧ (write = true → h.2 = .exclusive)) ∧
        x.Fits held p

/-- A program for a thread that holds nothing. -/
def Discipline.Disciplined (x : Discipline L D R) (p : List (Op L D)) : Prop := x.Fits [] p

/-! ## Composing programs -/

/-- A part of a program that fits wherever the locks `under` are held and every lock that is held
comes before `k`. -/
def Discipline.Nests (x : Discipline L D R) (k : R) (under : List (L × Mode))
    (p : List (Op L D)) : Prop :=
  ∀ held q, under ⊆ held → (∀ h ∈ held, x.rank h.1 < k) → x.Fits held q → x.Fits held (p ++ q)

variable {x : Discipline L D R} {k k' : R} {under : List (L × Mode)} {p q : List (Op L D)}

theorem Discipline.nests_nil : x.Nests k under [] := fun _ _ _ _ h => h

theorem Discipline.Nests.append (hp : x.Nests k under p) (hq : x.Nests k under q) :
    x.Nests k under (p ++ q) := by
  intro held r hunder hbelow hr
  rw [List.append_assoc]
  exact hp held _ hunder hbelow (hq held r hunder hbelow hr)

theorem Discipline.Nests.mono {under' : List (L × Mode)} (hp : x.Nests k under p) (hk : k' ≤ k)
    (hunder : under ⊆ under') : x.Nests k' under' p := by
  intro held r hheld hbelow hr
  exact hp held r (List.Subset.trans hunder hheld) (fun h hh => (hbelow h hh).trans_le hk) hr

theorem Discipline.nests_flatMap {α : Type*} {l : List α} {f : α → List (Op L D)}
    (hf : ∀ a ∈ l, x.Nests k under (f a)) : x.Nests k under (l.flatMap f) := by
  induction l with
  | nil => exact nests_nil
  | cons a l ih =>
      rw [List.flatMap_cons]
      exact (hf a List.mem_cons_self).append (ih fun b hb => hf b (List.mem_cons_of_mem a hb))

theorem Discipline.nests_access {d : D} {write : Bool}
    (hd : x.checked d → ∀ l ∈ x.guard d, ∃ h ∈ under, h.1 = l ∧ (write = true → h.2 = .exclusive)) :
    x.Nests k under [.access d write] := by
  intro held r hunder _ hr
  refine ⟨fun hchecked l hl => ?_, hr⟩
  obtain ⟨h, hh, hguard⟩ := hd hchecked l hl
  exact ⟨h, hunder hh, hguard⟩

theorem Discipline.Fits.release {held : List (L × Mode)} (h : x.Fits held p) {l : L}
    (hnew : ∀ h ∈ held, h.1 ≠ l) (m : Mode) : x.Fits ((l, m) :: held) (.release l :: p) := by
  have hleft : without l ((l, m) :: held) = held := by
    rw [without, List.filter_cons_of_neg (by simp), List.filter_eq_self]
    exact fun h hh => decide_eq_true (hnew h hh)
  exact ⟨⟨(l, m), List.mem_cons_self, rfl⟩, by rwa [hleft]⟩

/-- A section, if its body takes locks that come later only. -/
theorem Discipline.Nests.locked {l : L} {m : Mode} (hk : k ≤ x.rank l) (hl : x.rank l < k')
    (hbody : x.Nests k' ((l, m) :: under) p) : x.Nests k under (locked l m p) := by
  intro held r hunder hbelow hr
  have hbefore : ∀ h ∈ held, x.rank h.1 < x.rank l := fun h hh => (hbelow h hh).trans_le hk
  have hnew : ∀ h ∈ held, h.1 ≠ l := fun h hh heq => (hbefore h hh).ne (congrArg x.rank heq)
  have hinside := hbody ((l, m) :: held) _ (List.cons_subset_cons _ hunder)
    (List.forall_mem_cons.mpr ⟨hl, fun h hh => (hbefore h hh).trans hl⟩) (hr.release hnew m)
  rw [Sync.locked, List.cons_append, List.append_assoc]
  exact .inr ⟨fun h hh => ⟨hnew h hh, fun _ => hbefore h hh⟩, hinside⟩

/-- A section that need not come behind the locks that are held. -/
theorem Discipline.Nests.relocked {l : L} (hx : ¬ x.ordered) (hl : x.rank l < k)
    (hbody : x.Nests k ((l, .exclusive) :: under) p) :
    x.Nests k under (Sync.locked l .exclusive p) := by
  intro held r hunder hbelow hr
  rw [Sync.locked, List.cons_append, List.append_assoc]
  by_cases hheld : ∃ h ∈ held, h.1 = l
  · exact .inl ⟨hx, rfl, hheld⟩
  · have hnew : ∀ h ∈ held, h.1 ≠ l := fun h hh heq => hheld ⟨h, hh, heq⟩
    have hinside := hbody ((l, .exclusive) :: held) _ (List.cons_subset_cons _ hunder)
      (List.forall_mem_cons.mpr ⟨hl, hbelow⟩) (hr.release hnew .exclusive)
    exact .inr ⟨fun h hh => ⟨hnew h hh, fun hordered => (hx hordered).elim⟩, hinside⟩

theorem Discipline.Nests.disciplined (hp : x.Nests k [] p) : x.Disciplined p := by
  have hfits := hp [] [] (List.Subset.refl []) (fun h hh => by cases hh) rfl
  rwa [List.append_nil] at hfits

end Discipline

/-! ## Orderly threads -/

section Orderly

variable [DecidableEq L] [LinearOrder R] {x : Discipline L D R} {s : State ι L D}

/-- Every thread is disciplined, and who holds a lock alone is its only holder. -/
structure Discipline.Orderly (x : Discipline L D R) (s : State ι L D) : Prop where
  fits : ∀ i, x.Fits (s i).held (s i).rest
  alone : ∀ i j, ∀ h ∈ (s i).held, ∀ k ∈ (s j).held, h.1 = k.1 → h.2 = .exclusive → i = j

theorem Discipline.orderly_init : x.Orderly (.init : State ι L D) where
  fits := fun _ => rfl
  alone := by
    intro i j h hh
    cases hh

/-- Two threads are about to access `d`, one of them to write it. -/
def Race (s : State ι L D) (d : D) : Prop :=
  ∃ i j, i ≠ j ∧ (s i).rest.head? = some (.access d true) ∧
    ∃ write, (s j).rest.head? = some (.access d write)

/-- A thread that is about to access a checked datum holds its lock. -/
theorem Discipline.Orderly.guarded (h : x.Orderly s) {d : D} {l : L} (hd : x.checked d)
    (hl : x.guard d = some l) {i : ι} {write : Bool}
    (hi : (s i).rest.head? = some (.access d write)) :
    ∃ k ∈ (s i).held, k.1 = l ∧ (write = true → k.2 = .exclusive) := by
  have hfits := h.fits i
  obtain ⟨p, hp⟩ := List.head?_eq_some_iff.mp hi
  rw [hp] at hfits
  exact hfits.1 hd l hl

theorem Discipline.Orderly.no_race (h : x.Orderly s) {d : D} {l : L} (hd : x.checked d)
    (hl : x.guard d = some l) : ¬ Race s d := by
  rintro ⟨i, j, hne, hi, write, hj⟩
  obtain ⟨k, hk, hguard, halone⟩ := h.guarded hd hl hi
  obtain ⟨k', hk', hguard', -⟩ := h.guarded hd hl hj
  exact hne (h.alone i j k hk k' hk' (hguard.trans hguard'.symm) (halone rfl))

/-- A thread proceeds; a lock that it did not hold before is one it was admitted to. -/
theorem Discipline.Orderly.move [DecidableEq ι] (h : x.Orderly s) {i : ι} {y : Thread L D}
    (hfits : x.Fits y.held y.rest)
    (hheld : ∀ k ∈ y.held, k ∈ (s i).held ∨
      ∀ j, ∀ k' ∈ (s j).held, k'.1 = k.1 → k.2 = .shared ∧ k'.2 = .shared) :
    x.Orderly (Function.update s i y) where
  fits := by
    intro j
    by_cases hj : j = i
    · rw [hj, Function.update_self]
      exact hfits
    · rw [Function.update_of_ne hj]
      exact h.fits j
  alone := by
    intro j₁ j₂ k₁ h₁ k₂ h₂ hsame hexclusive
    by_cases hj₁ : j₁ = i
    · by_cases hj₂ : j₂ = i
      · rw [hj₁, hj₂]
      · rw [hj₁, Function.update_self] at h₁
        rw [Function.update_of_ne hj₂] at h₂
        rcases hheld k₁ h₁ with hold | hnew
        · rw [hj₁]
          exact h.alone i j₂ k₁ hold k₂ h₂ hsame hexclusive
        · have hshared := (hnew j₂ k₂ h₂ hsame.symm).1
          rw [hexclusive] at hshared
          cases hshared
    · rw [Function.update_of_ne hj₁] at h₁
      by_cases hj₂ : j₂ = i
      · rw [hj₂, Function.update_self] at h₂
        rcases hheld k₂ h₂ with hold | hnew
        · rw [hj₂]
          exact h.alone j₁ i k₁ h₁ k₂ hold hsame hexclusive
        · have hshared := (hnew j₁ k₁ h₁ hsame).2
          rw [hexclusive] at hshared
          cases hshared
      · rw [Function.update_of_ne hj₂] at h₂
        exact h.alone j₁ j₂ k₁ h₁ k₂ h₂ hsame hexclusive

end Orderly

/-! ## The system -/

section System

variable [DecidableEq L] [DecidableEq D] [Fintype ι] [DecidableEq ι]

/-- No holder of `l` excludes the mode `m`; a lock that prefers writers keeps readers out
while a writer waits. -/
def admitted (preferWriters : Bool) (s : State ι L D) (l : L) (m : Mode) : Prop :=
  (∀ j, ∀ h ∈ (s j).held, h.1 = l → m = .shared ∧ h.2 = .shared) ∧
    (preferWriters = true → m = .shared → ∀ j, (s j).rest.head? ≠ some (.acquire l .exclusive))

instance (preferWriters : Bool) (s : State ι L D) (l : L) (m : Mode) :
    Decidable (admitted preferWriters s l m) := inferInstanceAs (Decidable (_ ∧ _))

inductive Action (ι L D : Type*) where
  /-- an idle thread begins a program -/
  | call (i : ι) (p : List (Op L D))
  /-- a thread executes its next operation -/
  | next (i : ι)

/-- A lock is taken or given back, or a datum accessed. -/
def next (preferWriters : Bool) (s : State ι L D) (i : ι) : Option (State ι L D) :=
  match (s i).rest with
  | [] => none
  | .acquire l m :: p =>
      if admitted preferWriters s l m then
        some (Function.update s i ⟨(l, m) :: (s i).held, p⟩)
      else none
  | .release l :: p => some (Function.update s i ⟨without l (s i).held, p⟩)
  | .access _ _ :: p => some (Function.update s i ⟨(s i).held, p⟩)

def step (preferWriters : Bool) (s : State ι L D) : Action ι L D → Option (State ι L D)
  | .call i p =>
      if (s i).rest = [] then some (Function.update s i ⟨(s i).held, p⟩) else none
  | .next i => next preferWriters s i

variable [LinearOrder R] {x : Discipline L D R} {preferWriters : Bool} {s t : State ι L D}

theorem next_cases {i : ι} (ht : next preferWriters s i = some t) :
    (∃ l m p, (s i).rest = .acquire l m :: p ∧ admitted preferWriters s l m ∧
      t = Function.update s i ⟨(l, m) :: (s i).held, p⟩) ∨
    (∃ l p, (s i).rest = .release l :: p ∧
      t = Function.update s i ⟨without l (s i).held, p⟩) ∨
    ∃ d w p, (s i).rest = .access d w :: p ∧ t = Function.update s i ⟨(s i).held, p⟩ := by
  unfold next at ht
  split at ht
  · cases ht
  · rename_i l m p hrest
    split at ht <;> cases ht
    rename_i hadmitted
    exact .inl ⟨l, m, p, hrest, hadmitted, rfl⟩
  · rename_i l p hrest
    cases ht
    exact .inr (.inl ⟨l, p, hrest, rfl⟩)
  · rename_i d w p hrest
    cases ht
    exact .inr (.inr ⟨d, w, p, hrest, rfl⟩)

/-- One operation of the thread, and nothing of the others. -/
theorem next_update {i : ι} (ht : next preferWriters s i = some t) :
    ∃ held o p, (s i).rest = o :: p ∧ t = Function.update s i ⟨held, p⟩ := by
  obtain ⟨l, m, p, hrest, -, rfl⟩ | ⟨l, p, hrest, rfl⟩ | ⟨d, w, p, hrest, rfl⟩ := next_cases ht
  · exact ⟨_, _, p, hrest, rfl⟩
  · exact ⟨_, _, p, hrest, rfl⟩
  · exact ⟨_, _, p, hrest, rfl⟩

def Discipline.Begins (x : Discipline L D R) (_ : State ι L D) : Action ι L D → Prop
  | .call _ p => x.Disciplined p
  | .next _ => True

theorem Discipline.Orderly.next (h : x.Orderly s) {i : ι}
    (ht : Sync.next preferWriters s i = some t) : x.Orderly t := by
  have hfits := h.fits i
  obtain ⟨l, m, p, hrest, hadmitted, rfl⟩ | ⟨l, p, hrest, rfl⟩ | ⟨d, w, p, hrest, rfl⟩ :=
    next_cases ht
  · rw [hrest] at hfits
    obtain ⟨-, rfl, k, hk, rfl⟩ | ⟨-, hfits⟩ := hfits
    · -- nobody is admitted to a lock beside itself
      cases (hadmitted.1 i k hk rfl).1
    refine h.move hfits fun k hk => ?_
    rcases List.mem_cons.mp hk with rfl | hk
    · exact .inr hadmitted.1
    · exact .inl hk
  · rw [hrest] at hfits
    exact h.move hfits.2 fun k hk => .inl (List.mem_of_mem_filter hk)
  · rw [hrest] at hfits
    exact h.move hfits.2 fun k hk => .inl hk

/-- Disciplined programs keep the threads orderly. -/
theorem Discipline.preserves :
    Preserves (step preferWriters) x.Begins (x.Orderly : State ι L D → Prop) := by
  intro s a t h hg ht
  cases a with
  | call i p =>
      simp only [step] at ht
      split at ht <;> cases ht
      rename_i hidle
      have hnone : (s i).held = [] := by
        have hfits := h.fits i
        rwa [hidle] at hfits
      refine h.move ?_ fun k hk => .inl hk
      rw [hnone]
      exact hg
  | next i => exact h.next ht

/-! ## Progress -/

/-- A thread that cannot go on waits for a lock. -/
theorem awaits_of_next_none {i : ι} (hi : (s i).rest ≠ [])
    (hstuck : next preferWriters s i = none) :
    ∃ l m p, (s i).rest = .acquire l m :: p ∧ ¬ admitted preferWriters s l m := by
  unfold next at hstuck
  split at hstuck
  · rename_i hrest
    exact (hi hrest).elim
  · rename_i l m p hrest
    split at hstuck
    · cases hstuck
    · rename_i hadmitted
      exact ⟨l, m, p, hrest, hadmitted⟩
  · cases hstuck
  · cases hstuck

/-- As long as a program is unfinished some thread can go on. -/
theorem Discipline.Orderly.progress (h : x.Orderly s) (hx : x.ordered) {i : ι}
    (hi : (s i).rest ≠ []) :
    ∃ j t, Sync.next preferWriters s j = some t := by
  by_contra hstuck
  have hwaits : ∀ j : { j // (s j).rest ≠ [] }, ∃ l m p,
      (s j).rest = .acquire l m :: p ∧ ¬ admitted preferWriters s l m := by
    intro j
    apply awaits_of_next_none j.2
    apply Option.eq_none_iff_forall_ne_some.mpr
    intro t ht
    exact hstuck ⟨j, t, ht⟩
  choose l m p hrest hrefused using hwaits
  have hnonempty : Nonempty { j // (s j).rest ≠ [] } := ⟨⟨i, hi⟩⟩
  -- the last of the locks that are waited for has no holder
  obtain ⟨top, hmax⟩ := Finite.exists_max fun j => x.rank (l j)
  have hfree : ∀ j, ∀ k ∈ (s j).held, k.1 ≠ l top := by
    intro j k hk heq
    have hfits := h.fits j
    by_cases hj : (s j).rest = []
    · rw [hj] at hfits
      have hnone : (s j).held = [] := hfits
      rw [hnone] at hk
      cases hk
    · rw [hrest ⟨j, hj⟩] at hfits
      have hlt := (hfits.resolve_left fun hbad => hbad.1 hx).1 k hk |>.2 hx
      rw [heq] at hlt
      exact (hmax ⟨j, hj⟩).not_gt hlt
  have hadmitted : ∀ mode, (mode = .shared →
      ∀ j, (s j).rest.head? ≠ some (.acquire (l top) .exclusive)) →
      admitted preferWriters s (l top) mode :=
    fun mode hmode => ⟨fun j k hk heq => (hfree j k hk heq).elim, fun _ => hmode⟩
  by_cases hwriter : ∃ j, (s j).rest.head? = some (.acquire (l top) .exclusive)
  · obtain ⟨j, hj⟩ := hwriter
    have hne : (s j).rest ≠ [] := by
      intro hnil
      rw [hnil] at hj
      cases hj
    rw [hrest ⟨j, hne⟩, List.head?_cons, Option.some.injEq, Op.acquire.injEq] at hj
    apply hrefused ⟨j, hne⟩
    rw [hj.1, hj.2]
    exact hadmitted .exclusive fun hmode => by cases hmode
  · exact hrefused top (hadmitted _ fun _ j hj => hwriter ⟨j, hj⟩)

/-- The operations that are still to be executed. -/
def remaining (s : State ι L D) : ℕ := ∑ i, (s i).rest.length

theorem next_remaining {i : ι} (ht : next preferWriters s i = some t) :
    remaining t + 1 = remaining s := by
  obtain ⟨held, o, p, hrest, rfl⟩ := next_update ht
  have hsum := sum_update (fun y : Thread L D => y.rest.length) s i ⟨held, p⟩
  rw [hrest, List.length_cons] at hsum
  simp only at hsum
  unfold remaining
  omega

/-- Threads that begin nothing new execute at most what is left. -/
theorem run_remaining {is : List ι} (ht : run (step preferWriters) s (is.map .next) = some t) :
    remaining t + is.length = remaining s := by
  induction is generalizing s with
  | nil =>
      cases ht
      rfl
  | cons i is ih =>
      rw [List.map_cons, run_cons] at ht
      obtain ⟨u, hu, hut⟩ := Option.bind_eq_some_iff.mp ht
      have hone := next_remaining hu
      have hrest := ih hut
      rw [List.length_cons]
      omega

/-- Where no thread can go on every program has ended and no lock is held. -/
theorem Discipline.Orderly.ended (h : x.Orderly s) (hx : x.ordered)
    (hstuck : ∀ i, Sync.next preferWriters s i = none) : s = .init := by
  have hdone : ∀ i, (s i).rest = [] := by
    intro i
    by_contra hi
    obtain ⟨j, t, ht⟩ : ∃ j t, Sync.next preferWriters s j = some t := h.progress hx hi
    rw [hstuck j] at ht
    cases ht
  funext i
  have hfits := h.fits i
  rw [hdone i] at hfits
  have hheld : (s i).held = [] := hfits
  calc s i = ⟨(s i).held, (s i).rest⟩ := rfl
    _ = ⟨[], []⟩ := by rw [hheld, hdone i]

/-- Threads that begin nothing new can all come to their end. -/
theorem Discipline.Orderly.completes (h : x.Orderly s) (hx : x.ordered) :
    ∃ is : List ι, run (step preferWriters) s (is.map .next) = some .init := by
  induction hleft : remaining s generalizing s with
  | zero =>
      have hstuck : ∀ i, Sync.next preferWriters s i = none := by
        intro i
        apply Option.eq_none_iff_forall_ne_some.mpr
        intro t ht
        have hone := next_remaining ht
        omega
      exact ⟨[], by rw [h.ended hx hstuck]; rfl⟩
  | succ left ih =>
      obtain ⟨i, hi⟩ : ∃ i, (s i).rest ≠ [] := by
        by_contra hdone
        have hnone : remaining s = 0 := by
          apply Finset.sum_eq_zero
          intro i _
          rw [not_not.mp (not_exists.mp hdone i)]
          rfl
        omega
      obtain ⟨j, t, ht⟩ : ∃ j t, Sync.next preferWriters s j = some t := h.progress hx hi
      have hone := next_remaining ht
      obtain ⟨is, hrun⟩ := ih (h.next ht) (by omega)
      refine ⟨j :: is, ?_⟩
      rw [List.map_cons, run_cons]
      exact Option.bind_eq_some_iff.mpr ⟨t, ht, hrun⟩

/-! ## Threads that block themselves -/

/-- A program that comes to a lock that its thread holds, not both times as a reader. -/
def Relocks : List (L × Mode) → List (Op L D) → Prop
  | _, [] => False
  | held, .acquire l m :: p =>
      (∃ h ∈ held, h.1 = l ∧ ¬ (m = .shared ∧ h.2 = .shared)) ∨ Relocks ((l, m) :: held) p
  | held, .release l :: p => Relocks (without l held) p
  | held, .access _ _ :: p => Relocks held p

/-- An operation on the lock `l`. -/
def Op.on (l : L) : Op L D → Bool
  | .acquire l' _ => l' = l
  | .release l' => l' = l
  | .access _ _ => false

omit [DecidableEq D] in
/-- Who holds a lock alone and takes it again, before it is released, comes to it. -/
theorem relocks_of_find? {l : L} {m : Mode} {p : List (Op L D)}
    (hp : p.find? (Op.on l) = some (.acquire l m)) {held : List (L × Mode)}
    (hheld : (l, .exclusive) ∈ held) : Relocks held p := by
  induction p generalizing held with
  | nil => cases hp
  | cons o p ih =>
      rw [List.find?_cons] at hp
      cases o with
      | acquire l' m' =>
          by_cases hl : l' = l
          · refine .inl ⟨_, hheld, hl.symm, ?_⟩
            exact fun hshared => by cases hshared.2
          · rw [show (Op.acquire l' m' : Op L D).on l = false from decide_eq_false hl] at hp
            exact .inr (ih hp (List.mem_cons_of_mem _ hheld))
      | release l' =>
          by_cases hl : l' = l
          · rw [show (Op.release l' : Op L D).on l = true from decide_eq_true hl] at hp
            cases hp
          · rw [show (Op.release l' : Op L D).on l = false from decide_eq_false hl] at hp
            refine ih hp (List.mem_filter.mpr ⟨hheld, ?_⟩)
            exact decide_eq_true (Ne.symm hl)
      | access d w => exact ih hp hheld

/-- A thread whose program relocks never ends it, whatever the others do. -/
theorem relocks_preserved (i : ι) :
    Preserves (step preferWriters) Free fun s : State ι L D => Relocks (s i).held (s i).rest := by
  intro s a t h _ ht
  cases a with
  | call j p =>
      simp only [step] at ht
      split at ht <;> cases ht
      rename_i hidle
      by_cases hij : i = j
      · subst hij
        rw [hidle] at h
        exact h.elim
      · rwa [Function.update_of_ne hij]
  | next j =>
      have ht : next preferWriters s j = some t := ht
      by_cases hij : i = j
      · subst hij
        obtain ⟨l, m, p, hrest, hadmitted, rfl⟩ | ⟨l, p, hrest, rfl⟩ | ⟨d, w, p, hrest, rfl⟩ :=
          next_cases ht
        · rw [hrest] at h
          rw [Function.update_self]
          refine h.resolve_left ?_
          rintro ⟨k, hk, hsame, hexcluded⟩
          exact hexcluded (hadmitted.1 i k hk hsame)
        · rw [hrest] at h
          rwa [Function.update_self]
        · rw [hrest] at h
          rwa [Function.update_self]
      · obtain ⟨held, o, p, -, rfl⟩ := next_update ht
        rwa [Function.update_of_ne hij]

omit [DecidableEq D] in
theorem Relocks.ne_nil {held : List (L × Mode)} {p : List (Op L D)} (h : Relocks held p) :
    p ≠ [] := by
  rintro rfl
  exact h

/-! ## Data that no program touches -/

/-- Without a program that accesses `d` nothing races for it. -/
theorem untouched_preserved (d : D) :
    Preserves (step preferWriters)
      (fun (_ : State ι L D) a => ∀ i p, a = .call i p → ∀ w, .access d w ∉ p)
      fun s => ∀ i w, .access d w ∉ (s i).rest := by
  intro s a t h hg ht j w
  have hupdate : ∀ i (held : List (L × Mode)) (p : List (Op L D)), (∀ w, .access d w ∉ p) →
      .access d w ∉ (Function.update s i ⟨held, p⟩ j).rest := by
    intro i held p hp
    by_cases hj : j = i
    · rw [hj, Function.update_self]
      exact hp w
    · rw [Function.update_of_ne hj]
      exact h j w
  cases a with
  | call i p =>
      simp only [step] at ht
      split at ht <;> cases ht
      exact hupdate i _ p (hg i p rfl)
  | next i =>
      obtain ⟨held, o, p, hrest, rfl⟩ := next_update ht
      exact hupdate i held p fun w hw => h i w (hrest ▸ List.mem_cons_of_mem o hw)

end System

end Sylar.Sync
