import Sylar.Timer.Expiry

/-! # Deadlines under concurrent calls

The order of the set and the age of its timers, without the tie between membership and
callback: a timer may be added with an empty callback, and clock readings taken before a
lock may be old when the section runs. Every section but an insertion at the front leaves
the earliest deadline where it is or moves it to later.
-/

namespace Sylar.Timers

open Collection

/-! ## Armed timers -/

/-- A delay below `2 ^ 31` ms that started at or before `clock`. -/
structure Armed (clock : Nat) (t : Timer) : Prop where
  short : t.ms < 2 ^ 31
  delayed : t.ms ≤ t.next
  started : t.next ≤ clock + t.ms

theorem Armed.mono {clock clock' : Nat} {t : Timer} (h : Armed clock t) (hle : clock ≤ clock') :
    Armed clock' t :=
  ⟨h.short, h.delayed, h.started.trans (Nat.add_le_add_right hle _)⟩

/-- A delay that is measured from a reading no later than `clock`. -/
theorem armed_from {clock start ms : Nat} (hbound : clock + 2 ^ 31 ≤ 2 ^ 64)
    (hstart : start ≤ clock) (hms : ms < 2 ^ 31) (recurring : Bool) (cb : Option Cb) :
    Armed clock ⟨recurring, ms, u64 (start + ms), cb⟩ := by
  have hnext : u64 (start + ms) = start + ms := Nat.mod_eq_of_lt (by omega)
  refine ⟨hms, ?_, ?_⟩ <;> simp only [hnext] <;> omega

/-- The set is ordered by the current keys and holds armed timers that exist. -/
structure Arranged (clock : Nat) (m : TimerManager) : Prop where
  ordered : Ordered (key m.heap) m.timers
  issued : ∀ a ∈ m.timers, m.issued a = true
  armed : ∀ a ∈ m.timers, Armed clock (m.heap a)

theorem arranged_init (now : Nat) : Arranged now (.init now) :=
  ⟨List.Pairwise.nil, nofun, nofun⟩

theorem Arranged.mono {clock clock' : Nat} {m : TimerManager} (h : Arranged clock m)
    (hle : clock ≤ clock') : Arranged clock' m :=
  ⟨h.ordered, h.issued, fun a ha => (h.armed a ha).mono hle⟩

/-- Every deadline of `m'` comes at or after some deadline of `m`. -/
def Later (m m' : TimerManager) : Prop :=
  ∀ b ∈ m'.timers, ∃ a ∈ m.timers, (m.heap a).next ≤ (m'.heap b).next

theorem Later.refl (m : TimerManager) : Later m m := fun b hb => ⟨b, hb, le_rfl⟩

/-- A section asks for a notification, or it leaves the flag as it was and either found it
set or made no deadline earlier. -/
def Heeds (m : TimerManager) (atFront : Bool) (m' : TimerManager) : Prop :=
  atFront = true ∨ m'.tickled = m.tickled ∧ (m.tickled = true ∨ Later m m')

variable {clock : Nat} {m : TimerManager} {a : Addr}

/-! ## Insertion -/

theorem Arranged.insert (h : Arranged clock m) (ha : a ∉ m.timers) (hissued : m.issued a = true)
    {t : Timer} (ht : Armed clock t) : Arranged clock ((m.store a t).insert a) := by
  obtain ⟨hord, hmem⟩ := insert_store h.ordered ha t
  refine ⟨hord, fun b hb => ?_, fun b hb => ?_⟩
  · rcases (hmem b).mp hb with rfl | hb
    · exact hissued
    · exact h.issued b hb
  · change Armed clock (Function.update m.heap a t b)
    rcases (hmem b).mp hb with rfl | hin
    · rw [Function.update_self]
      exact ht
    · have hba : b ≠ a := by
        rintro rfl
        exact ha hin
      rw [Function.update_of_ne hba]
      exact h.armed b hin

/-- A timer that is inserted behind another is not the earliest. -/
theorem Later.insert {m₁ : TimerManager} {t : Timer} (hlater : Later m m₁)
    (hord : Ordered (key m₁.heap) m₁.timers) (ha : a ∉ m₁.timers)
    (hhead : ((m₁.store a t).insert a).timers.head? ≠ some a) :
    Later m ((m₁.store a t).insert a) := by
  obtain ⟨hord', hmem⟩ := insert_store hord ha t
  have hold : ∀ b ∈ m₁.timers, ((m₁.store a t).insert a).heap b = m₁.heap b := by
    intro b hb
    refine Function.update_of_ne ?_ _ _
    rintro rfl
    exact ha hb
  have hrest : ∀ b ∈ m₁.timers, ∃ c ∈ m.timers,
      (m.heap c).next ≤ (((m₁.store a t).insert a).heap b).next := by
    intro b hb
    rw [hold b hb]
    exact hlater b hb
  intro b hb
  rcases (hmem b).mp hb with rfl | hb
  · -- the head of the set is an element from before, with an earlier key
    cases hset : ((m₁.store b t).insert b).timers with
    | nil =>
        rw [hset] at hb
        cases hb
    | cons c cs =>
        rw [hset] at hhead hb hord' hmem
        have hcb : c ≠ b := fun hcb => hhead (by rw [hcb]; rfl)
        have hc := ((hmem c).mp List.mem_cons_self).resolve_left hcb
        have hbs := (List.mem_cons.mp hb).resolve_left (Ne.symm hcb)
        have hlt := (List.pairwise_cons.mp hord').1 b hbs
        obtain ⟨d, hd, hle⟩ := hrest c hc
        exact ⟨d, hd, hle.trans (next_le_of_key_lt hlt)⟩
  · exact hrest b hb

theorem addTimerLocked_heeds {m₁ : TimerManager} {t : Timer} (hlater : Later m m₁)
    (hord : Ordered (key m₁.heap) m₁.timers) (ha : a ∉ m₁.timers)
    (htickled : m₁.tickled = m.tickled) :
    Heeds m ((m₁.store a t).addTimerLocked a).1 ((m₁.store a t).addTimerLocked a).2 := by
  by_cases hfront : ((m₁.store a t).insert a).timers.head? = some a ∧ ¬ m.tickled
  · refine .inl (decide_eq_true ?_)
    rw [← htickled] at hfront
    exact hfront
  · refine .inr ⟨?_, ?_⟩
    · rw [← htickled] at hfront ⊢
      exact if_neg hfront
    · by_cases hset : m.tickled = true
      · exact .inl hset
      · exact .inr (hlater.insert hord ha fun hhead => hfront ⟨hhead, hset⟩)

theorem Arranged.addTimer (h : Arranged clock m) (hbound : clock + 2 ^ 31 ≤ 2 ^ 64)
    (ha : m.issued a = false) {created ms : Nat} (hcreated : created ≤ clock)
    (hms : ms < 2 ^ 31) (cb : Option Cb) (recurring : Bool) :
    Arranged clock (m.addTimer created a ms cb recurring).2 ∧
      Heeds m (m.addTimer created a ms cb recurring).1
        (m.addTimer created a ms cb recurring).2 := by
  have hout := unissued_not_mem h.issued ha
  have hgrown : Arranged clock { m with issued := Function.update m.issued a true } := by
    refine ⟨h.ordered, fun b hb => ?_, h.armed⟩
    have hba : b ≠ a := by
      rintro rfl
      exact hout hb
    exact (Function.update_of_ne hba _ _).trans (h.issued b hb)
  have hins := hgrown.insert (a := a) hout (Function.update_self _ _ _)
    (armed_from hbound hcreated hms recurring cb)
  have hlater : Later m { m with issued := Function.update m.issued a true } := Later.refl m
  exact ⟨⟨hins.ordered, hins.issued, hins.armed⟩,
    addTimerLocked_heeds hlater h.ordered hout rfl⟩

/-! ## Operations on a handle -/

theorem find_eq_some {it : Addr} (h : m.find a = some it) : it = a ∧ a ∈ m.timers := by
  by_cases ha : a ∈ m.timers
  · exact ⟨Option.some.inj (h.symm.trans (find_pending ha)), ha⟩
  · have hnone : m.find a = none :=
      setFind_of_not_mem (before_compares m.heap) (key_injective m.heap) ha
    rw [hnone] at h
    cases h

theorem Arranged.erase (h : Arranged clock m) (a : Addr) :
    Arranged clock (m.erase a) ∧ a ∉ (m.erase a).timers ∧ Later m (m.erase a) := by
  have hsub : ∀ b ∈ (m.erase a).timers, b ∈ m.timers := fun b hb => List.mem_of_mem_erase hb
  refine ⟨⟨h.ordered.sublist List.erase_sublist, fun b hb => h.issued b (hsub b hb),
    fun b hb => h.armed b (hsub b hb)⟩, ?_, fun b hb => ⟨b, hsub b hb, le_rfl⟩⟩
  exact fun hin => (h.ordered.nodup.mem_erase_iff.mp hin).1 rfl

theorem Arranged.cancel (h : Arranged clock m) {r : Bool × TimerManager}
    (hr : m.cancel a = .ok r) :
    Arranged clock r.2 ∧ Later m r.2 ∧ r.2.tickled = m.tickled := by
  unfold TimerManager.cancel at hr
  split at hr
  · cases hr
    exact ⟨h, Later.refl m, rfl⟩
  · dsimp only at hr
    split at hr <;> cases hr
    rename_i it hit
    -- an empty callback changes no key
    have hnext : ∀ b, ((m.store a { m.heap a with cb := none }).heap b).next = (m.heap b).next := by
      intro b
      by_cases hb : b = a
      · subst hb
        simp [TimerManager.store]
      · simp [TimerManager.store, Function.update_of_ne hb]
    have hms : ∀ b, ((m.store a { m.heap a with cb := none }).heap b).ms = (m.heap b).ms := by
      intro b
      by_cases hb : b = a
      · subst hb
        simp [TimerManager.store]
      · simp [TimerManager.store, Function.update_of_ne hb]
    have hstore : Arranged clock (m.store a { m.heap a with cb := none }) := by
      have hkey : ∀ b, key (m.store a { m.heap a with cb := none }).heap b = key m.heap b :=
        key_update_same_next (a := a) rfl
      refine ⟨h.ordered.congr fun b _ => hkey b, h.issued, fun b hb => ?_⟩
      obtain ⟨hshort, hdelayed, hstarted⟩ := h.armed b hb
      exact ⟨(hms b).symm ▸ hshort, by rw [hms, hnext]; exact hdelayed,
        by rw [hms, hnext]; exact hstarted⟩
    obtain ⟨harranged, _, hlater⟩ := hstore.erase it
    refine ⟨harranged, fun b hb => ?_, rfl⟩
    obtain ⟨c, hc, hle⟩ := hlater b hb
    exact ⟨c, hc, (hnext c).symm.le.trans hle⟩

/-- `refresh` measures the same delay from a later start. -/
theorem Arranged.refresh (h : Arranged clock m) (hbound : clock + 2 ^ 31 ≤ 2 ^ 64) (a : Addr) :
    Arranged clock (m.refresh clock a).2 ∧ Later m (m.refresh clock a).2 ∧
      (m.refresh clock a).2.tickled = m.tickled := by
  unfold TimerManager.refresh
  split
  · exact ⟨h, Later.refl m, rfl⟩
  · split
    · exact ⟨h, Later.refl m, rfl⟩
    · rename_i it hit
      obtain ⟨rfl, ha⟩ := find_eq_some hit
      obtain ⟨herase, hout, hlater⟩ := h.erase it
      have harmed := h.armed it ha
      refine ⟨herase.insert hout (h.issued it ha)
        (armed_from hbound le_rfl harmed.short _ _), fun b hb => ?_, rfl⟩
      obtain ⟨_, hmem⟩ := insert_store herase.ordered hout
        { m.heap it with next := u64 (clock + (m.heap it).ms) }
      rcases (hmem b).mp hb with rfl | hb
      · refine ⟨b, ha, ?_⟩
        have hnext : u64 (clock + (m.heap b).ms) = clock + (m.heap b).ms :=
          Nat.mod_eq_of_lt (by have hshort := harmed.short; omega)
        change (m.heap b).next ≤ (Function.update m.heap b _ b).next
        rw [Function.update_self]
        exact harmed.started.trans hnext.ge
      · have hne : b ≠ it := by
          rintro rfl
          exact hout hb
        obtain ⟨c, hc, hle⟩ := hlater b hb
        refine ⟨c, hc, hle.trans ?_⟩
        change (m.heap b).next ≤ (Function.update m.heap it _ b).next
        rw [Function.update_of_ne hne]

theorem Arranged.resetLocked (h : Arranged clock m) (hbound : clock + 2 ^ 31 ≤ 2 ^ 64) (a : Addr)
    {ms : Nat} (hms : ms < 2 ^ 31) (fromNow : Bool) :
    Arranged clock (m.resetLocked clock a ms fromNow).2.2 ∧
      Heeds m (m.resetLocked clock a ms fromNow).2.1 (m.resetLocked clock a ms fromNow).2.2 := by
  have hsame : Heeds m false m := .inr ⟨rfl, .inr (Later.refl m)⟩
  unfold TimerManager.resetLocked
  split
  · exact ⟨h, hsame⟩
  · split
    · exact ⟨h, hsame⟩
    · rename_i it hit
      obtain ⟨rfl, ha⟩ := find_eq_some hit
      obtain ⟨herase, hout, hlater⟩ := h.erase it
      obtain ⟨hshort, hdelayed, hstarted⟩ := h.armed it ha
      have hstart : (if fromNow = true then clock
          else u64Sub (m.heap it).next (m.heap it).ms) ≤ clock := by
        split
        · exact le_rfl
        · simp only [u64Sub]
          omega
      have hins := herase.insert (a := it) hout (h.issued it ha)
        (armed_from hbound hstart hms (m.heap it).recurring (m.heap it).cb)
      exact ⟨⟨hins.ordered, hins.issued, hins.armed⟩,
        addTimerLocked_heeds hlater herase.ordered hout rfl⟩

/-! ## Polling and expiry -/

/-- The timeout of a poll: none without timers, zero if one is due, otherwise no
longer than the earliest deadline is away. -/
theorem Arranged.getNextTimer (h : Arranged clock m) :
    m.timers = [] ∧ (m.getNextTimer clock).1 = 2 ^ 64 - 1 ∨ (m.getNextTimer clock).1 = 0 ∨
      0 < (m.getNextTimer clock).1 ∧ (m.getNextTimer clock).1 < 2 ^ 31 ∧
        ∀ a ∈ m.timers, clock + (m.getNextTimer clock).1 ≤ (m.heap a).next := by
  unfold TimerManager.getNextTimer
  cases htimers : m.timers with
  | nil => exact .inl ⟨rfl, rfl⟩
  | cons b bs =>
      have hb : b ∈ m.timers := by
        rw [htimers]
        exact List.mem_cons_self
      obtain ⟨hshort, hdelayed, hstarted⟩ := h.armed b hb
      simp only [List.head?_cons]
      by_cases hdue : (m.heap b).next ≤ clock
      · exact .inr (.inl (by rw [if_pos hdue]))
      · refine .inr (.inr ?_)
        rw [if_neg hdue]
        refine ⟨by omega, by omega, fun a ha => ?_⟩
        have hle : (m.heap b).next ≤ (m.heap a).next := by
          have hord := h.ordered
          rw [htimers] at hord
          rcases List.mem_cons.mp ha with rfl | ha
          · exact le_rfl
          · exact next_le_of_key_lt ((List.pairwise_cons.mp hord).1 a ha)
        simp only
        omega

theorem Arranged.handedOut {m' : TimerManager} {now : Nat} {expired : List Addr}
    (h : Arranged clock m) (hbound : clock + 2 ^ 31 ≤ 2 ^ 64) (hnow : now ≤ clock)
    (hexpired : ∀ a ∈ expired, m.issued a = true ∧ Armed clock (m.heap a))
    (hloop : HandedOut m m' now expired) : Arranged clock m' := by
  refine ⟨hloop.ordered, fun a ha => ?_, fun a ha => ?_⟩
  · rw [hloop.issued]
    rcases (hloop.mem a).mp ha with ha | ⟨ha, _⟩
    · exact h.issued a ha
    · exact (hexpired a ha).1
  · rw [hloop.heap]
    by_cases hin : a ∈ expired
    · rw [if_pos hin]
      have harmed := (hexpired a hin).2
      unfold firedTimer
      split
      · exact armed_from hbound hnow harmed.short _ _
      · exact ⟨harmed.short, harmed.delayed, harmed.started⟩
    · rw [if_neg hin]
      rcases (hloop.mem a).mp ha with ha | ⟨ha, _⟩
      · exact h.armed a ha
      · exact (hin ha).elim

theorem Arranged.takeExpired (h : Arranged clock m) (hbound : clock + 2 ^ 31 ≤ 2 ^ 64)
    {now : Nat} (hnow : now ≤ clock) {probe : Addr}
    {r : List Addr × List (Option Cb) × TimerManager} (hr : m.takeExpired now probe = .ok r) :
    Arranged clock r.2.2 := by
  rcases takeExpired_ok h.ordered hr with rfl | ⟨rest, hsplit, _, hloop⟩
  · exact ⟨h.ordered, h.issued, h.armed⟩
  · have hmem : ∀ a, a ∈ r.1 ∨ a ∈ rest → a ∈ m.timers := fun a ha => by
      rw [← hsplit]
      exact List.mem_append.mpr ha
    have hord := h.ordered
    rw [← hsplit] at hord
    have hrest : Arranged clock { m with previouseTime := now, timers := rest } :=
      ⟨hord.sublist (List.sublist_append_right _ _), fun a ha => h.issued a (hmem a (.inr ha)),
        fun a ha => h.armed a (hmem a (.inr ha))⟩
    exact hrest.handedOut hbound hnow
      (fun a ha => ⟨h.issued a (hmem a (.inl ha)), h.armed a (hmem a (.inl ha))⟩) hloop

/-- Unless the clock is taken to have rolled over, a recurring timer that is put back had
its deadline before. -/
theorem Arranged.takeExpired_later (h : Arranged clock m) (hbound : clock + 2 ^ 31 ≤ 2 ^ 64)
    {now : Nat} (hnow : now ≤ clock) {probe : Addr} (hprobe : m.issued probe = false)
    (hrollover : (m.detectClockRollover now).1 = false)
    {r : List Addr × List (Option Cb) × TimerManager} (hr : m.takeExpired now probe = .ok r) :
    Later m r.2.2 := by
  have hout := unissued_not_mem h.issued hprobe
  have htime : m.detectClockRollover now = (false, { m with previouseTime := now }) :=
    Prod.ext hrollover rfl
  simp only [TimerManager.takeExpired, htime, Bool.false_eq_true, if_false] at hr
  split at hr <;> cases hr
  · exact Later.refl m
  · have hsplit := splitExpired_due (m := { m with previouseTime := now }) h.ordered now hout
    have hdue : ∀ a, a ∈ m.due now ↔ a ∈ m.timers ∧ (m.heap a).next ≤ now := by
      intro a
      unfold TimerManager.due
      rw [h.ordered.mem_takeWhile (due_downward m.heap now), decide_eq_true_iff]
    have hrest : ∀ a, a ∈ (m.withoutDue now).timers → a ∈ m.timers ∧ a ∉ m.due now := by
      intro a ha
      unfold TimerManager.withoutDue at ha
      have hin := (h.ordered.mem_dropWhile (due_downward m.heap now)).mp ha
      refine ⟨hin.1, fun hd => ?_⟩
      exact of_decide_eq_false hin.2 ((hdue a).mp hd).2
    obtain ⟨hloop, _⟩ := handOut_spec (m.withoutDue now) now (m.due now)
      (h.ordered.nodup.sublist (List.takeWhile_sublist _))
      (h.ordered.sublist (List.dropWhile_sublist _))
      fun a ha hin => (hrest a hin).2 ha
    rw [hsplit]
    intro b hb
    change ∃ a ∈ m.timers, (m.heap a).next ≤
      (((m.withoutDue now).handOut now (m.due now)).1.heap b).next
    rw [hloop.heap, withoutDue_heap]
    rcases (hloop.mem b).mp hb with hb | ⟨hb, hrec⟩
    · rw [if_neg (hrest b hb).2]
      exact ⟨b, (hrest b hb).1, le_rfl⟩
    · obtain ⟨hin, hle⟩ := (hdue b).mp hb
      have hnext : u64 (now + (m.heap b).ms) = now + (m.heap b).ms :=
        Nat.mod_eq_of_lt (by have hshort := (h.armed b hin).short; omega)
      rw [withoutDue_heap] at hrec
      refine ⟨b, hin, ?_⟩
      rw [if_pos hb, firedTimer, if_pos hrec]
      exact (hle.trans (Nat.le_add_right _ _)).trans hnext.ge

end Sylar.Timers
