import Sylar.Timer.Invariant

/-! # Expiry

While the clock does not run backwards the locked section of `listExpiredCb` takes
exactly the due timers out of the set, hands out their callbacks in set order, and puts
back the recurring ones.
-/

namespace Sylar.Timers

open Collection

/-- The initial segment of the set whose deadline has been reached. -/
def TimerManager.due (m : TimerManager) (now : Nat) : List Addr :=
  m.timers.takeWhile fun a => decide ((m.heap a).next ≤ now)

def TimerManager.withoutDue (m : TimerManager) (now : Nat) : TimerManager :=
  { m with
    previouseTime := now
    timers := m.timers.dropWhile fun a => decide ((m.heap a).next ≤ now) }

@[simp] theorem withoutDue_heap (m : TimerManager) (now : Nat) :
    (m.withoutDue now).heap = m.heap := rfl

@[simp] theorem withoutDue_issued (m : TimerManager) (now : Nat) :
    (m.withoutDue now).issued = m.issued := rfl

/-- The fields of a timer after its callback was handed out. -/
def firedTimer (t : Timer) (now : Nat) : Timer :=
  if t.recurring then { t with next := u64 (now + t.ms) } else { t with cb := none }

theorem due_downward (heap : Addr → Timer) (now : Nat) (a b : Addr)
    (hab : key heap a < key heap b) (hb : decide ((heap b).next ≤ now) = true) :
    decide ((heap a).next ≤ now) = true := by
  have hb := of_decide_eq_true hb
  exact decide_eq_true ((next_le_of_key_lt hab).trans hb)

theorem Represents.mem_due {m : TimerManager} (h : Represents m) {now : Nat} {a : Addr} :
    a ∈ m.due now ↔ a ∈ m.timers ∧ (m.heap a).next ≤ now := by
  unfold TimerManager.due
  rw [h.ordered.mem_takeWhile (due_downward m.heap now), decide_eq_true_iff]

/-! ## The two scans -/

theorem Represents.mem_withoutDue {m : TimerManager} (h : Represents m) {now : Nat} {a : Addr} :
    a ∈ (m.withoutDue now).timers ↔ a ∈ m.timers ∧ ¬ (m.heap a).next ≤ now := by
  unfold TimerManager.withoutDue
  rw [h.ordered.mem_dropWhile (due_downward m.heap now), decide_eq_false_iff_not]

theorem drop_takeWhile_length {α : Type*} (p : α → Bool) (l : List α) :
    l.drop (l.takeWhile p).length = l.dropWhile p := by
  have hsplit : (l.takeWhile p ++ l.dropWhile p).drop (l.takeWhile p).length = l.dropWhile p :=
    List.drop_left
  rwa [List.takeWhile_append_dropWhile] at hsplit

/-- Without a rollover the scan below the probe and the scan of its equals take
the due timers: neither depends on the address of the probe. -/
theorem splitExpired_due {m : TimerManager} (hm : Ordered (key m.heap) m.timers) (now : Nat)
    {probe : Addr} (hprobe : probe ∉ m.timers) :
    m.splitExpired now probe false =
      (m.due now, (m.withoutDue now).timers) := by
  have hother : ∀ a ∈ m.timers, a ≠ probe := by
    rintro a ha rfl
    exact hprobe ha
  have hord : Ordered (key (Function.update m.heap probe (.at now))) m.timers :=
    hm.congr fun a ha => key_update_of_ne (hother a ha) _
  have hcmp := before_compares (Function.update m.heap probe (.at now))
  -- below the probe: an earlier deadline, or the same one at a lower address
  have hbelow : ∀ a ∈ m.timers,
      before (Function.update m.heap probe (.at now)) a probe = true ↔
        (m.heap a).next < now ∨ (m.heap a).next = now ∧ a < probe := by
    intro a ha
    rw [hcmp, key_lt, Function.update_self, Function.update_of_ne (hother a ha)]
    rfl
  have hlower : ∀ a ∈ m.timers,
      before (Function.update m.heap probe (.at now)) a probe = true →
        decide ((m.heap a).next ≤ now) = true := by
    intro a ha hlt
    rw [decide_eq_true_iff]
    rcases (hbelow a ha).mp hlt with h | ⟨h, _⟩ <;> omega
  have hupper : ∀ a ∈ m.timers.dropWhile fun a =>
      before (Function.update m.heap probe (.at now)) a probe,
        decide ((m.heap a).next = now) = decide ((m.heap a).next ≤ now) := by
    intro a ha
    have hmem := (hord.mem_dropWhile fun b c hbc hc =>
      (hcmp b probe).mpr (hbc.trans ((hcmp c probe).mp hc))).mp ha
    have hnot : ¬ (m.heap a).next < now := by
      intro hlt
      have hbefore := (hbelow a hmem.1).mpr (.inl hlt)
      rw [hmem.2] at hbefore
      cases hbefore
    simp only [decide_eq_decide]
    omega
  have hscans := takeWhile_takeWhile hlower hupper
  simp only [TimerManager.splitExpired, setBelow, Bool.false_eq_true, if_false,
    drop_takeWhile_length]
  rw [hscans.1, hscans.2]
  rfl

/-! ## The loop over `expired` -/

/-- What the loop does to the manager: the expired timers get their new fields,
the recurring ones enter the set, and nothing else moves. -/
structure HandedOut (m m' : TimerManager) (now : Nat) (expired : List Addr) : Prop where
  ordered : Ordered (key m'.heap) m'.timers
  mem : ∀ a, a ∈ m'.timers ↔ a ∈ m.timers ∨ a ∈ expired ∧ (m.heap a).recurring = true
  heap : ∀ a, m'.heap a = if a ∈ expired then firedTimer (m.heap a) now else m.heap a
  issued : m'.issued = m.issued
  previouse : m'.previouseTime = m.previouseTime
  tickled : m'.tickled = m.tickled

theorem handOut_round {m : TimerManager} (hm : Ordered (key m.heap) m.timers) (now : Nat)
    {a : Addr} (ha : a ∉ m.timers) :
    HandedOut m
      (if (m.heap a).recurring then
        (m.store a { m.heap a with next := u64 (now + (m.heap a).ms) }).insert a
      else m.store a { m.heap a with cb := none }) now [a] := by
  have hheap : ∀ t, ∀ b, (m.store a t).heap b = if b ∈ [a] then t else m.heap b := by
    intro t b
    simp only [TimerManager.store, Function.update_apply, List.mem_singleton]
  by_cases hrec : (m.heap a).recurring = true
  · rw [if_pos hrec]
    obtain ⟨hord, hmem⟩ := insert_store hm ha { m.heap a with next := u64 (now + (m.heap a).ms) }
    refine ⟨hord, fun b => ?_, fun b => ?_, rfl, rfl, rfl⟩
    · rw [hmem, List.mem_singleton]
      constructor
      · rintro (rfl | hb)
        · exact .inr ⟨rfl, hrec⟩
        · exact .inl hb
      · rintro (hb | ⟨rfl, _⟩)
        · exact .inr hb
        · exact .inl rfl
    · refine (hheap _ b).trans ?_
      split
      · rename_i hb
        rw [List.mem_singleton.mp hb, firedTimer, if_pos hrec]
      · rfl
  · rw [if_neg hrec]
    refine ⟨?_, fun b => ?_, fun b => ?_, rfl, rfl, rfl⟩
    · exact hm.congr fun b hb => key_update_of_ne (by rintro rfl; exact ha hb) _
    · constructor
      · exact .inl
      · rintro (hb | ⟨hb, hbrec⟩)
        · exact hb
        · rw [List.mem_singleton.mp hb] at hbrec
          exact (hrec hbrec).elim
    · refine (hheap _ b).trans ?_
      split
      · rename_i hb
        rw [List.mem_singleton.mp hb, firedTimer, if_neg hrec]
      · rfl

theorem HandedOut.append {m m₁ m₂ : TimerManager} {now : Nat} {a : Addr} {as : List Addr}
    (ha : a ∉ as) (h₁ : HandedOut m m₁ now [a]) (h₂ : HandedOut m₁ m₂ now as) :
    HandedOut m m₂ now (a :: as) := by
  have hsame : ∀ b ∈ as, m₁.heap b = m.heap b := by
    intro b hb
    rw [h₁.heap, if_neg]
    rintro hba
    exact ha (List.mem_singleton.mp hba ▸ hb)
  refine ⟨h₂.ordered, fun b => ?_, fun b => ?_, h₂.issued.trans h₁.issued,
    h₂.previouse.trans h₁.previouse, h₂.tickled.trans h₁.tickled⟩
  · rw [h₂.mem, h₁.mem, List.mem_singleton, List.mem_cons]
    by_cases hb : b ∈ as
    · rw [hsame b hb]
      tauto
    · tauto
  · rw [h₂.heap]
    by_cases hb : b ∈ as
    · rw [if_pos hb, if_pos (List.mem_cons_of_mem _ hb), hsame b hb]
    · rw [if_neg hb, h₁.heap]
      simp only [List.mem_cons, hb, or_false, List.not_mem_nil]

/-- The whole loop, for distinct timers outside the set. -/
theorem handOut_spec (m : TimerManager) (now : Nat) (expired : List Addr) (hnodup : expired.Nodup)
    (hm : Ordered (key m.heap) m.timers)
    (hout : ∀ a ∈ expired, a ∉ m.timers) :
    HandedOut m (m.handOut now expired).1 now expired ∧
      (m.handOut now expired).2 = expired.map fun a => (m.heap a).cb := by
  induction expired generalizing m with
  | nil =>
      exact ⟨⟨hm, fun a => by simp [TimerManager.handOut], fun a => by simp [TimerManager.handOut],
        rfl, rfl, rfl⟩, rfl⟩
  | cons a as ih =>
      obtain ⟨ha, has⟩ := List.nodup_cons.mp hnodup
      have hround := handOut_round hm now (hout a List.mem_cons_self)
      have hrest : ∀ b ∈ as, b ∉ TimerManager.timers _ := fun b hb hin => by
        rcases (hround.mem b).mp hin with hin | ⟨hba, _⟩
        · exact hout b (List.mem_cons_of_mem _ hb) hin
        · exact ha (List.mem_singleton.mp hba ▸ hb)
      obtain ⟨hloop, hcbs⟩ := ih _ has hround.ordered hrest
      refine ⟨hround.append ha hloop, ?_⟩
      simp only [TimerManager.handOut, List.map_cons, List.cons.injEq, true_and]
      refine hcbs.trans (List.map_congr_left fun b hb => ?_)
      rw [hround.heap, if_neg]
      intro hba
      exact ha (List.mem_singleton.mp hba ▸ hb)

/-! ## The locked section -/

/-- The effect of the write-locked section at clock reading `now`. -/
structure Expires (m m' : TimerManager) (now : Nat) : Prop where
  represents : Represents m'
  mem : ∀ a, a ∈ m'.timers ↔ a ∈ m.timers ∧ (a ∈ m.due now → (m.heap a).recurring = true)
  heap : ∀ a, m'.heap a = if a ∈ m.due now then firedTimer (m.heap a) now else m.heap a
  issued : m'.issued = m.issued
  tickled : m'.tickled = m.tickled

theorem detectClockRollover_forward {m : TimerManager} {now : Nat}
    (hclock : m.previouseTime ≤ now) :
    m.detectClockRollover now = (false, { m with previouseTime := now }) := by
  simp only [TimerManager.detectClockRollover, Prod.mk.injEq, and_true, decide_eq_false_iff_not]
  omega

theorem Represents.expires {m m' : TimerManager} (h : Represents m) {now : Nat}
    (hloop : HandedOut (m.withoutDue now) m' now (m.due now)) : Expires m m' now := by
  have hmem : ∀ a, a ∈ m'.timers ↔
      a ∈ m.timers ∧ (a ∈ m.due now → (m.heap a).recurring = true) := by
    intro a
    rw [hloop.mem, h.mem_withoutDue, h.mem_due, withoutDue_heap]
    tauto
  refine ⟨⟨hloop.ordered, fun a => ?_⟩, hmem, hloop.heap, hloop.issued, hloop.tickled⟩
  rw [hmem, hloop.heap, hloop.issued, h.pending a]
  simp only [h.mem_due, h.pending a, withoutDue_heap, withoutDue_issued]
  by_cases hdue : (m.issued a = true ∧ (m.heap a).cb ≠ none) ∧ (m.heap a).next ≤ now
  · rw [if_pos hdue, firedTimer]
    by_cases hrec : (m.heap a).recurring = true
    · simp [hrec, hdue]
    · simp [hrec, hdue]
  · rw [if_neg hdue]
    simp [hdue]

/-- The section hands out the due timers, in set order, each with its callback. -/
theorem Represents.takeExpired {m : TimerManager} (h : Represents m) {now : Nat} {probe : Addr}
    (hclock : m.previouseTime ≤ now) (hprobe : m.issued probe = false) (hne : m.timers ≠ []) :
    ∃ m', m.takeExpired now probe =
        .ok (m.due now, (m.due now).map fun a => (m.heap a).cb, m') ∧
      Expires m m' now ∧ m'.previouseTime = now := by
  have hout := unissued_not_mem h.issued hprobe
  obtain ⟨hloop, hcbs⟩ := handOut_spec (m.withoutDue now) now (m.due now)
    (h.ordered.nodup.sublist (List.takeWhile_sublist _))
    (h.ordered.sublist (List.dropWhile_sublist _))
    (fun a ha hin => (h.mem_withoutDue.mp hin).2 (h.mem_due.mp ha).2)
  refine ⟨_, ?_, h.expires hloop, hloop.previouse⟩
  rw [show (m.due now).map (fun a => (m.heap a).cb) = _ from hcbs.symm]
  obtain ⟨a, as, htimers⟩ := List.exists_cons_of_ne_nil hne
  simp only [TimerManager.takeExpired, detectClockRollover_forward hclock, htimers,
    List.head?_cons, Option.map_some, Bool.false_eq_true, if_false]
  by_cases hdue : (m.heap a).next ≤ now
  · simp only [decide_eq_true hdue]
    have hsplit := splitExpired_due (m := { m with timers := a :: as, previouseTime := now })
      (htimers ▸ h.ordered) now (htimers ▸ hout)
    rw [hsplit]
    simp only [TimerManager.due, TimerManager.withoutDue, htimers]
  · -- the early return: nothing is due
    simp only [decide_eq_false hdue]
    have hnone : m.due now = [] := by
      simp only [TimerManager.due, htimers, List.takeWhile_cons_of_neg, hdue, decide_false,
        Bool.false_eq_true, not_false_iff]
    rw [hnone, TimerManager.withoutDue, htimers, List.dropWhile_cons_of_neg (by simpa using hdue)]
    rfl

/-- `listExpiredCb` never fails while the clock does not run backwards. -/
theorem Represents.listExpiredCb {m : TimerManager} (h : Represents m) {now : Nat} {probe : Addr}
    (hclock : m.previouseTime ≤ now) (hprobe : m.issued probe = false) :
    ∃ m', m.listExpiredCb now probe =
        .ok (m.due now, (m.due now).map fun a => (m.heap a).cb, m') ∧
      Expires m m' now ∧ m'.previouseTime ≤ now := by
  unfold TimerManager.listExpiredCb
  by_cases hne : m.timers = []
  · have hnone : m.due now = [] := by simp [TimerManager.due, hne]
    refine ⟨m, ?_, ⟨h, fun a => ?_, fun a => ?_, rfl, rfl⟩, hclock⟩
    · rw [if_pos hne, hnone]
      rfl
    · simp [hnone]
    · simp [hnone]
  · rw [if_neg hne]
    obtain ⟨m', hrun, hexp, htime⟩ := h.takeExpired hclock hprobe hne
    exact ⟨m', hrun, hexp, htime.le⟩

/-! ## Any clock reading -/

theorem takeWhile_append_drop {α : Type*} (p : α → Bool) (l : List α) :
    l.takeWhile p ++ l.drop (l.takeWhile p).length = l := by
  rw [drop_takeWhile_length, List.takeWhile_append_dropWhile]

/-- The expired timers are an initial segment of the set, whatever the clock did. -/
theorem splitExpired_append (m : TimerManager) (now : Nat) (probe : Addr) (rollover : Bool) :
    (m.splitExpired now probe rollover).1 ++ (m.splitExpired now probe rollover).2 =
      m.timers := by
  unfold TimerManager.splitExpired
  dsimp only
  rw [List.append_assoc, List.takeWhile_append_dropWhile]
  cases rollover with
  | true => simp
  | false => exact takeWhile_append_drop _ _

/-- The loop over an initial segment that was cut off the set. -/
theorem handOut_split {m : TimerManager} (hm : Ordered (key m.heap) m.timers) (now : Nat)
    {expired rest : List Addr} (hsplit : expired ++ rest = m.timers) :
    HandedOut { m with previouseTime := now, timers := rest }
        ({ m with previouseTime := now, timers := rest }.handOut now expired).1 now expired ∧
      ({ m with previouseTime := now, timers := rest }.handOut now expired).2 =
        expired.map fun a => (m.heap a).cb := by
  have hnodup : (expired ++ rest).Nodup := by
    rw [hsplit]
    exact hm.nodup
  have hrest : rest.Sublist m.timers := by
    rw [← hsplit]
    exact List.sublist_append_right expired rest
  exact handOut_spec { m with previouseTime := now, timers := rest } now expired
    (List.Nodup.of_append_left hnodup) (hm.sublist hrest)
    fun a ha hin => List.disjoint_of_nodup_append hnodup ha hin

/-- What the section did if it did not fail: it returned at once, or it handed out an initial
segment of the set. -/
theorem takeExpired_ok {m : TimerManager} (hm : Ordered (key m.heap) m.timers) {now : Nat}
    {probe : Addr} {r : List Addr × List (Option Cb) × TimerManager}
    (hr : m.takeExpired now probe = .ok r) :
    r = ([], [], { m with previouseTime := now }) ∨
    ∃ rest, r.1 ++ rest = m.timers ∧ r.2.1 = r.1.map (fun a => (m.heap a).cb) ∧
      HandedOut { m with previouseTime := now, timers := rest } r.2.2 now r.1 := by
  unfold TimerManager.takeExpired TimerManager.detectClockRollover at hr
  dsimp only at hr
  split at hr <;> cases hr
  · exact .inl rfl
  · right
    have hsplit := splitExpired_append { m with previouseTime := now } now probe
      (decide (now < m.previouseTime ∧ now < u64Sub m.previouseTime (60 * 60 * 1000)))
    obtain ⟨hloop, hcbs⟩ := handOut_split hm now hsplit
    exact ⟨_, hsplit, hcbs, hloop⟩

/-- The timers that a call takes get their new fields, and no other timer does. -/
theorem listExpiredCb_heap {m : TimerManager} (hm : Ordered (key m.heap) m.timers) {now : Nat}
    {probe : Addr} {r : List Addr × List (Option Cb) × TimerManager}
    (hr : m.listExpiredCb now probe = .ok r) (a : Addr) :
    r.2.2.heap a = if a ∈ r.1 then firedTimer (m.heap a) now else m.heap a := by
  unfold TimerManager.listExpiredCb at hr
  split at hr
  · cases hr
    rfl
  · rcases takeExpired_ok hm hr with rfl | ⟨rest, -, -, hloop⟩
    · rfl
    · exact hloop.heap a

/-- `listExpiredCb` hands out the callbacks of the timers it takes; each other pending timer
stays in the set, and no timer gets a callback. -/
structure Takes (m : TimerManager) (expired : List Addr) (cbs : List (Option Cb))
    (m' : TimerManager) : Prop where
  represents : Represents m'
  issued : m'.issued = m.issued
  cbs : cbs = expired.map fun a => (m.heap a).cb
  taken : ∀ a ∈ expired, a ∈ m.timers
  rest : ∀ a ∈ m.timers, a ∈ expired ∨ a ∈ m'.timers
  heap : ∀ a cb, (m'.heap a).cb = some cb → (m.heap a).cb = some cb

theorem Represents.takes_nothing {m m' : TimerManager} (h : Represents m)
    (hheap : m'.heap = m.heap) (hissued : m'.issued = m.issued) (htimers : m'.timers = m.timers) :
    Takes m [] [] m' where
  represents := ⟨by rw [hheap, htimers]; exact h.ordered,
    fun a => by rw [hheap, hissued, htimers]; exact h.pending a⟩
  issued := hissued
  cbs := rfl
  taken := fun a ha => absurd ha List.not_mem_nil
  rest := fun a ha => .inr (htimers ▸ ha)
  heap := fun a cb hcb => by rwa [hheap] at hcb

theorem Represents.takes {m m' : TimerManager} (h : Represents m) {now : Nat}
    {expired rest : List Addr} (hsplit : expired ++ rest = m.timers)
    (hloop : HandedOut { m with previouseTime := now, timers := rest } m' now expired) :
    Takes m expired (expired.map fun a => (m.heap a).cb) m' := by
  have hmem : ∀ a, a ∈ m.timers ↔ a ∈ expired ∨ a ∈ rest := fun a => by
    rw [← hsplit, List.mem_append]
  have hnodup : (expired ++ rest).Nodup := by
    rw [hsplit]
    exact h.ordered.nodup
  have hout : ∀ a ∈ expired, a ∉ rest := fun a ha hin =>
    List.disjoint_of_nodup_append hnodup ha hin
  have hcb : ∀ a, (firedTimer (m.heap a) now).cb =
      if (m.heap a).recurring then (m.heap a).cb else none := by
    intro a
    unfold firedTimer
    split <;> rfl
  refine ⟨⟨hloop.ordered, fun a => ?_⟩, hloop.issued, rfl,
    fun a ha => (hmem a).mpr (.inl ha), fun a ha => ?_, fun a cb ha => ?_⟩
  · rw [hloop.mem, hloop.issued, hloop.heap]
    by_cases ha : a ∈ expired
    · have hpending := (h.pending a).mp ((hmem a).mpr (.inl ha))
      rw [if_pos ha, hcb]
      by_cases hrec : (m.heap a).recurring = true <;> simp [ha, hout a ha, hrec, hpending]
    · have hiff : a ∈ rest ↔ a ∈ m.timers := by
        rw [hmem]
        exact ⟨.inr, fun hor => hor.resolve_left ha⟩
      rw [if_neg ha, ← h.pending a, hiff]
      simp [ha]
  · rcases (hmem a).mp ha with ha | ha
    · exact .inl ha
    · exact .inr ((hloop.mem a).mpr (.inl ha))
  · rw [hloop.heap] at ha
    split at ha
    · rw [hcb] at ha
      split at ha
      · exact ha
      · cases ha
    · exact ha

/-- `listExpiredCb` at any clock reading, also after a rollover. -/
theorem Represents.listExpiredCb_takes {m : TimerManager} (h : Represents m) {now : Nat}
    {probe : Addr} {r : List Addr × List (Option Cb) × TimerManager}
    (hr : m.listExpiredCb now probe = .ok r) : Takes m r.1 r.2.1 r.2.2 := by
  unfold TimerManager.listExpiredCb at hr
  split at hr
  · cases hr
    exact h.takes_nothing rfl rfl rfl
  · rcases takeExpired_ok h.ordered hr with rfl | ⟨rest, hsplit, hcbs, hloop⟩
    · exact h.takes_nothing rfl rfl rfl
    · rw [hcbs]
      exact h.takes hsplit hloop

end Sylar.Timers
