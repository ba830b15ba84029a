import Sylar.Timer.Manager

/-! # The representation of the timer set

The set is ordered by the current fields of its timers, and a timer is in it
exactly while its callback is set. Each operation has one lemma that says what it
returns and does to the heap and to the set.
-/

namespace Sylar.Timers

open Collection

/-! ## The order -/

/-- What `Timer::Comparator` compares: the deadline, then the address. -/
def key (heap : Addr → Timer) (a : Addr) : ℕ ×ₗ ℕ := toLex ((heap a).next, a)

theorem key_injective (heap : Addr → Timer) : Function.Injective (key heap) := by
  intro a b h
  exact congrArg Prod.snd (toLex.injective h)

theorem key_lt (heap : Addr → Timer) (a b : Addr) :
    key heap a < key heap b ↔
      (heap a).next < (heap b).next ∨ (heap a).next = (heap b).next ∧ a < b :=
  Prod.Lex.toLex_lt_toLex

theorem before_compares (heap : Addr → Timer) : Compares (before heap) (key heap) := by
  intro a b
  rw [key_lt]
  unfold before comparator
  by_cases h : (heap a).next < (heap b).next
  · simp [h]
  · by_cases h' : (heap b).next < (heap a).next
    · simp [h, h', Nat.ne_of_gt h']
    · have heq : (heap a).next = (heap b).next := by omega
      simp [heq]

theorem key_update_of_ne {heap : Addr → Timer} {a b : Addr} (h : b ≠ a) (t : Timer) :
    key (Function.update heap a t) b = key heap b := by
  simp [key, Function.update_of_ne h]

theorem key_update_same_next {heap : Addr → Timer} {a : Addr} {t : Timer}
    (ht : t.next = (heap a).next) (b : Addr) :
    key (Function.update heap a t) b = key heap b := by
  by_cases h : b = a
  · subst h
    simp [key, ht]
  · exact key_update_of_ne h t

/-- An earlier element of an ordered set has no later deadline. -/
theorem next_le_of_key_lt {heap : Addr → Timer} {a b : Addr} (h : key heap a < key heap b) :
    (heap a).next ≤ (heap b).next := by
  rcases (key_lt heap a b).mp h with h | ⟨h, _⟩ <;> omega

/-! ## The invariant -/

/-- The set is strictly ordered by the current keys and holds exactly the timers
with a callback. -/
structure Represents (m : TimerManager) : Prop where
  ordered : Ordered (key m.heap) m.timers
  pending : ∀ a, a ∈ m.timers ↔ m.issued a = true ∧ (m.heap a).cb ≠ none

theorem represents_init (now : Nat) : Represents (.init now) :=
  ⟨List.Pairwise.nil, fun a => by simp [TimerManager.init]⟩

theorem Represents.issued {m : TimerManager} (h : Represents m) :
    ∀ a ∈ m.timers, m.issued a = true := fun a ha => ((h.pending a).mp ha).1

/-- An address that is not in use is not in a set of addresses in use. -/
theorem unissued_not_mem {m : TimerManager} (h : ∀ a ∈ m.timers, m.issued a = true) {a : Addr}
    (ha : m.issued a = false) : a ∉ m.timers := by
  intro hin
  cases ha.symm.trans (h a hin)

theorem find_pending {m : TimerManager} {a : Addr} (ha : a ∈ m.timers) : m.find a = some a :=
  setFind_of_mem (before_compares m.heap) (key_injective m.heap) ha

theorem Represents.mem_erase {m : TimerManager} (h : Represents m) {a b : Addr} :
    b ∈ m.timers.erase a ↔ b ∈ m.timers ∧ b ≠ a := by
  rw [h.ordered.nodup.mem_erase_iff]
  exact and_comm

theorem insert_store {m : TimerManager} {a : Addr} (hm : Ordered (key m.heap) m.timers)
    (ha : a ∉ m.timers) (t : Timer) :
    Ordered (key ((m.store a t).insert a).heap) ((m.store a t).insert a).timers ∧
      ∀ b, b ∈ ((m.store a t).insert a).timers ↔ b = a ∨ b ∈ m.timers := by
  have hstore : Ordered (key (Function.update m.heap a t)) m.timers :=
    hm.congr fun b hb => key_update_of_ne (by rintro rfl; exact ha hb) t
  exact ⟨hstore.setInsert (before_compares _),
    fun b => mem_setInsert (before_compares _) (key_injective _)⟩

/-- Taking a timer out, overwriting it and putting it back. -/
theorem rearm_ordered {m : TimerManager} (hm : Ordered (key m.heap) m.timers) {a : Addr}
    (ha : a ∈ m.timers) (t : Timer) :
    Ordered (key (((m.erase a).store a t).insert a).heap)
        (((m.erase a).store a t).insert a).timers ∧
      ∀ b, b ∈ (((m.erase a).store a t).insert a).timers ↔ b ∈ m.timers := by
  have herase : Ordered (key (m.erase a).heap) (m.erase a).timers :=
    hm.sublist List.erase_sublist
  have hmem : ∀ b, b ∈ (m.erase a).timers ↔ b ≠ a ∧ b ∈ m.timers := fun b =>
    hm.nodup.mem_erase_iff
  have hout : a ∉ (m.erase a).timers := fun hin => ((hmem a).mp hin).1 rfl
  obtain ⟨hord, hins⟩ := insert_store herase hout t
  refine ⟨hord, fun b => ?_⟩
  rw [hins, hmem]
  by_cases hb : b = a
  · subst hb
    simp [ha]
  · simp [hb]

/-- `refresh` and `reset` change the fields of a timer, but not its callback. -/
theorem Represents.rearm {m : TimerManager} (h : Represents m) {a : Addr} (ha : a ∈ m.timers)
    {t : Timer} (ht : t.cb = (m.heap a).cb) :
    Represents (((m.erase a).store a t).insert a) ∧
      ∀ b, b ∈ (((m.erase a).store a t).insert a).timers ↔ b ∈ m.timers := by
  obtain ⟨hord, hsame⟩ := rearm_ordered h.ordered ha t
  refine ⟨⟨hord, fun b => ?_⟩, hsame⟩
  rw [hsame, h.pending b]
  simp only [TimerManager.insert, TimerManager.store, TimerManager.erase]
  by_cases hb : b = a
  · subst hb
    rw [Function.update_self, ht]
  · rw [Function.update_of_ne hb]

/-! ## Operations on a handle -/

theorem Represents.addTimer {m : TimerManager} (h : Represents m) {a : Addr}
    (ha : m.issued a = false) (now ms : Nat) (cb : Cb) (recurring : Bool) :
    Represents (m.addTimer now a ms (some cb) recurring).2 ∧
      (m.addTimer now a ms (some cb) recurring).2.heap =
        Function.update m.heap a (.new now ms (some cb) recurring) ∧
      ∀ b, b ∈ (m.addTimer now a ms (some cb) recurring).2.timers ↔ b = a ∨ b ∈ m.timers := by
  have hout := unissued_not_mem h.issued ha
  obtain ⟨hord, hmem⟩ := insert_store h.ordered hout (.new now ms (some cb) recurring)
  refine ⟨⟨hord, fun b => ?_⟩, rfl, hmem⟩
  rw [show (b ∈ (m.addTimer now a ms (some cb) recurring).2.timers ↔ _) from hmem b]
  simp only [TimerManager.addTimer, TimerManager.addTimerLocked, TimerManager.allocate,
    TimerManager.insert, TimerManager.store]
  by_cases hb : b = a
  · subst hb
    simp [Timer.new]
  · simp only [hb, false_or, Function.update_of_ne hb]
    exact h.pending b

/-- `cancel` of an armed timer in the set finds and removes it; the key is not changed. -/
theorem cancel_armed {m : TimerManager} (h : Ordered (key m.heap) m.timers) {a : Addr}
    (hin : a ∈ m.timers) (hcb : (m.heap a).cb ≠ none) :
    m.cancel a = .ok (true, (m.store a { m.heap a with cb := none }).erase a) ∧
      Ordered (key (Function.update m.heap a { m.heap a with cb := none })) (m.timers.erase a) := by
  obtain ⟨cb, hcb⟩ := Option.ne_none_iff_exists'.mp hcb
  have hkey : ∀ b, key (Function.update m.heap a { m.heap a with cb := none }) b =
      key m.heap b := key_update_same_next rfl
  have hord : Ordered (key (Function.update m.heap a { m.heap a with cb := none })) m.timers :=
    h.congr fun b _ => hkey b
  have hfind : (m.store a { m.heap a with cb := none }).find a = some a :=
    setFind_of_mem (before_compares _) (key_injective _) hin
  refine ⟨?_, hord.sublist List.erase_sublist⟩
  unfold TimerManager.cancel
  simp only [hcb, hfind]

theorem Represents.cb_none {m : TimerManager} (h : Represents m) {a : Addr}
    (ha : m.issued a = true) (hout : a ∉ m.timers) : (m.heap a).cb = none := by
  by_contra hne
  exact hout ((h.pending a).mpr ⟨ha, hne⟩)

/-- `cancel` of a pending timer finds and removes it; any other timer is left alone. -/
theorem Represents.cancel {m : TimerManager} (h : Represents m) {a : Addr}
    (ha : m.issued a = true) :
    (a ∉ m.timers → m.cancel a = .ok (false, m)) ∧
    (a ∈ m.timers → ∃ m', m.cancel a = .ok (true, m') ∧ Represents m' ∧
      m'.heap = Function.update m.heap a { m.heap a with cb := none } ∧
      m'.timers = m.timers.erase a ∧ m'.issued = m.issued ∧
      m'.previouseTime = m.previouseTime ∧ m'.tickled = m.tickled) := by
  constructor
  · intro hout
    unfold TimerManager.cancel
    simp only [h.cb_none ha hout]
  · intro hin
    obtain ⟨hcancel, hord⟩ := cancel_armed h.ordered hin ((h.pending a).mp hin).2
    refine ⟨_, hcancel, ⟨hord, fun b => ?_⟩, rfl, rfl, rfl, rfl, rfl⟩
    simp only [TimerManager.erase, TimerManager.store, h.mem_erase, h.pending b]
    by_cases hb : b = a
    · subst hb
      simp
    · rw [Function.update_of_ne hb]
      simp [hb]

/-- The fields of a timer after `refresh`. -/
def refreshTimer (t : Timer) (now : Nat) : Timer := { t with next := u64 (now + t.ms) }

theorem Represents.refresh {m : TimerManager} (h : Represents m) (now : Nat) {a : Addr}
    (ha : m.issued a = true) :
    (a ∉ m.timers → m.refresh now a = (false, m)) ∧
    (a ∈ m.timers → ∃ m', m.refresh now a = (true, m') ∧ Represents m' ∧
      m'.heap = Function.update m.heap a (refreshTimer (m.heap a) now) ∧
      (∀ b, b ∈ m'.timers ↔ b ∈ m.timers) ∧ m'.issued = m.issued ∧
      m'.previouseTime = m.previouseTime ∧ m'.tickled = m.tickled) := by
  unfold TimerManager.refresh
  constructor
  · intro hout
    simp only [h.cb_none ha hout]
  · intro hin
    obtain ⟨cb, hcb⟩ := Option.ne_none_iff_exists'.mp ((h.pending a).mp hin).2
    obtain ⟨hrep, hmem⟩ := h.rearm hin (t := refreshTimer (m.heap a) now) rfl
    simp only [hcb, find_pending hin]
    exact ⟨_, rfl, hrep, rfl, hmem, rfl, rfl, rfl⟩

/-- The fields of a timer after `reset`. -/
def resetTimer (t : Timer) (now ms : Nat) (fromNow : Bool) : Timer :=
  { t with
    ms := ms
    next := u64 ((if fromNow then now else u64Sub t.next t.ms) + ms) }

/-- `reset` re-arms a pending timer unless the same period is asked for again
without `from_now`, and arms no other. -/
theorem Represents.reset {m : TimerManager} (h : Represents m) (now : Nat) {a : Addr}
    (ha : m.issued a = true) (ms : Nat) (fromNow : Bool) :
    ((ms = (m.heap a).ms ∧ ¬ fromNow) → m.reset now a ms fromNow = (true, false, m)) ∧
    (¬ (ms = (m.heap a).ms ∧ ¬ fromNow) → a ∉ m.timers →
      m.reset now a ms fromNow = (false, false, m)) ∧
    (¬ (ms = (m.heap a).ms ∧ ¬ fromNow) → a ∈ m.timers →
      ∃ atFront m', m.reset now a ms fromNow = (true, atFront, m') ∧ Represents m' ∧
        m'.heap = Function.update m.heap a (resetTimer (m.heap a) now ms fromNow) ∧
        (∀ b, b ∈ m'.timers ↔ b ∈ m.timers) ∧ m'.issued = m.issued ∧
        m'.previouseTime = m.previouseTime) := by
  unfold TimerManager.reset
  refine ⟨fun hsame => if_pos hsame, fun hne hout => ?_, fun hne hin => ?_⟩
  · simp only [if_neg hne, TimerManager.resetLocked, h.cb_none ha hout]
  · obtain ⟨cb, hcb⟩ := Option.ne_none_iff_exists'.mp ((h.pending a).mp hin).2
    obtain ⟨hrep, hmem⟩ := h.rearm hin (t := resetTimer (m.heap a) now ms fromNow) rfl
    simp only [if_neg hne, TimerManager.resetLocked, hcb, find_pending hin]
    exact ⟨_, _, rfl, ⟨hrep.ordered, hrep.pending⟩, rfl, hmem, rfl, rfl⟩

end Sylar.Timers
