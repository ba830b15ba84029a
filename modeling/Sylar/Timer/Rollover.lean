import Sylar.Timer.Expiry

/-! # `listExpiredCb` at any clock reading

A clock that was set back more than an hour since the last call takes the whole set,
any other reading exactly the timers whose deadline it has reached. The caller's vector
keeps what it holds and receives the callbacks in set order.
-/

namespace Sylar.Timers

open Collection

/-! ## The caller's vector -/

/-- The loop over `expired`, pushing onto `cbs`. -/
def TimerManager.pushExpired (m : TimerManager) (now : Nat) :
    List (Option Cb) → List Addr → List (Option Cb) × TimerManager
  | cbs, [] => (cbs, m)
  | cbs, a :: as =>
      let t := m.heap a
      let cbs := cbs ++ [t.cb]
      let m :=
        if t.recurring then (m.store a { t with next := u64 (now + t.ms) }).insert a
        else m.store a { t with cb := none }
      m.pushExpired now cbs as

/-- `TimerManager::listExpiredCb(cbs)`, as one step. -/
def TimerManager.listExpiredCbInto (m : TimerManager) (now : Nat) (probe : Addr)
    (cbs : List (Option Cb)) : Except Fault (List (Option Cb) × TimerManager) :=
  if m.timers = [] then .ok (cbs, m)
  else
    let (rollover, m) := m.detectClockRollover now
    match if rollover then some true else m.timers.head?.map fun a => (m.heap a).next ≤ now with
    | none => .error .emptyBegin
    | some false => .ok (cbs, m)
    | some true =>
        let (expired, rest) := m.splitExpired now probe rollover
        .ok ({ m with timers := rest }.pushExpired now cbs expired)

theorem pushExpired_eq (m : TimerManager) (now : Nat) (cbs : List (Option Cb))
    (expired : List Addr) :
    m.pushExpired now cbs expired =
      (cbs ++ (m.handOut now expired).2, (m.handOut now expired).1) := by
  induction expired generalizing m cbs with
  | nil => simp [TimerManager.pushExpired, TimerManager.handOut]
  | cons a as ih =>
      unfold TimerManager.pushExpired TimerManager.handOut
      rw [ih, List.append_assoc]
      rfl

/-- The vector is an accumulator of the callbacks that the section hands out. -/
theorem listExpiredCbInto_eq (m : TimerManager) (now : Nat) (probe : Addr)
    (cbs : List (Option Cb)) :
    m.listExpiredCbInto now probe cbs =
      (m.listExpiredCb now probe).map fun r => (cbs ++ r.2.1, r.2.2) := by
  unfold TimerManager.listExpiredCbInto TimerManager.listExpiredCb TimerManager.takeExpired
  by_cases hempty : m.timers = []
  · simp only [if_pos hempty, Except.map, List.append_nil]
  · simp only [if_neg hempty]
    generalize (if (m.detectClockRollover now).1 = true then some true
      else (m.detectClockRollover now).2.timers.head?.map fun a =>
        decide (((m.detectClockRollover now).2.heap a).next ≤ now)) = due
    cases due with
    | none => rfl
    | some due =>
        cases due with
        | false => simp only [Except.map, List.append_nil]
        | true => simp only [Except.map, pushExpired_eq]

/-! ## The timers a call takes -/

/-- All pending timers after a rollback of more than an hour, else those that are due. -/
def TimerManager.taken (m : TimerManager) (now : Nat) : List Addr :=
  if now + 60 * 60 * 1000 < m.previouseTime then m.timers
  else m.timers.filter fun a => decide ((m.heap a).next ≤ now)

theorem due_eq_filter {m : TimerManager} (hm : Ordered (key m.heap) m.timers) (now : Nat) :
    m.due now = m.timers.filter fun a => decide ((m.heap a).next ≤ now) :=
  hm.takeWhile_eq_filter (due_downward m.heap now)

theorem detectClockRollover_hour {m : TimerManager} (hhour : 60 * 60 * 1000 ≤ m.previouseTime)
    (hword : m.previouseTime < 2 ^ 64) (now : Nat) :
    (m.detectClockRollover now).1 = decide (now + 60 * 60 * 1000 < m.previouseTime) := by
  have hback : u64Sub m.previouseTime (60 * 60 * 1000) = m.previouseTime - 60 * 60 * 1000 := by
    unfold u64Sub
    omega
  simp only [TimerManager.detectClockRollover, hback, decide_eq_decide]
  omega

theorem splitExpired_taken {m : TimerManager} (hm : Ordered (key m.heap) m.timers) (now : Nat)
    {probe : Addr} (hprobe : probe ∉ m.timers) :
    (m.splitExpired now probe (decide (now + 60 * 60 * 1000 < m.previouseTime))).1 =
      m.taken now := by
  unfold TimerManager.taken
  by_cases hback : now + 60 * 60 * 1000 < m.previouseTime
  · rw [if_pos hback, decide_eq_true hback]
    simp [TimerManager.splitExpired]
  · rw [if_neg hback, decide_eq_false hback, splitExpired_due hm now hprobe, due_eq_filter hm]

/-! ## The call -/

/-- What a call does to the vector and to the manager. -/
structure TakesDue (m : TimerManager) (now : Nat) (cbs cbs' : List (Option Cb))
    (m' : TimerManager) : Prop where
  appended : cbs' = cbs ++ (m.taken now).map fun a => (m.heap a).cb
  once : (m.taken now).Nodup
  ordered : Ordered (key m'.heap) m'.timers
  fired : ∀ a ∈ m.taken now, (m.heap a).recurring = false →
    a ∉ m'.timers ∧ m'.heap a = { m.heap a with cb := none }
  rearmed : ∀ a ∈ m.taken now, (m.heap a).recurring = true →
    m'.timers.count a = 1 ∧ m'.heap a = { m.heap a with next := now + (m.heap a).ms }
  others : ∀ a ∉ m.taken now,
    m'.heap a = m.heap a ∧ m'.timers.count a = m.timers.count a
  remembered : m.timers ≠ [] → m'.previouseTime = now
  resting : m.timers = [] → m' = m

theorem taken_nodup {m : TimerManager} (hm : Ordered (key m.heap) m.timers) (now : Nat) :
    (m.taken now).Nodup := by
  unfold TimerManager.taken
  split
  · exact hm.nodup
  · exact hm.nodup.filter _

/-- Nothing is taken: the set is empty, or its first deadline lies ahead. -/
theorem TakesDue.nothing {m m' : TimerManager} (hm : Ordered (key m.heap) m.timers) {now : Nat}
    (cbs : List (Option Cb)) (hnone : m.taken now = []) (hheap : m'.heap = m.heap)
    (htimers : m'.timers = m.timers) (htime : m.timers ≠ [] → m'.previouseTime = now)
    (hrest : m.timers = [] → m' = m) : TakesDue m now cbs cbs m' where
  appended := by rw [hnone, List.map_nil, List.append_nil]
  once := taken_nodup hm now
  ordered := by rwa [hheap, htimers]
  fired := by
    intro a ha
    rw [hnone] at ha
    cases ha
  rearmed := by
    intro a ha
    rw [hnone] at ha
    cases ha
  others := by
    intro a _
    rw [hheap, htimers]
    exact ⟨rfl, rfl⟩
  remembered := htime
  resting := hrest

/-- The loop over the timers that were cut off the set. -/
theorem TakesDue.handedOut {m m₁ m' : TimerManager} {now : Nat} {rest : List Addr}
    (hm : Ordered (key m.heap) m.timers) (cbs : List (Option Cb)) (hne : m.timers ≠ [])
    (hsplit : m.taken now ++ rest = m.timers)
    (hbound : ∀ a ∈ m.taken now, (m.heap a).recurring = true → now + (m.heap a).ms < 2 ^ 64)
    (hm₁ : m₁ = { m with previouseTime := now, timers := rest })
    (hloop : HandedOut m₁ m' now (m.taken now)) :
    TakesDue m now cbs (cbs ++ (m.taken now).map fun a => (m.heap a).cb) m' := by
  have hheap : m₁.heap = m.heap := by rw [hm₁]
  have htimers : m₁.timers = rest := by rw [hm₁]
  have hnodup := hm.nodup
  rw [← hsplit] at hnodup
  have hout : ∀ a ∈ m.taken now, a ∉ rest := fun a ha hin =>
    (List.nodup_append.mp hnodup).2.2 a ha a hin rfl
  have hmem : ∀ a, a ∈ m'.timers ↔ a ∈ rest ∨ a ∈ m.taken now ∧ (m.heap a).recurring = true := by
    intro a
    rw [hloop.mem, htimers, hheap]
  have hfield : ∀ a, m'.heap a = if a ∈ m.taken now then firedTimer (m.heap a) now
      else m.heap a := by
    intro a
    rw [hloop.heap, hheap]
  refine ⟨rfl, taken_nodup hm now, hloop.ordered, ?_, ?_, ?_, ?_, ?_⟩
  · intro a ha hrec
    have hgone : a ∉ m'.timers := by
      intro hin
      rcases (hmem a).mp hin with hin | ⟨_, hrec'⟩
      · exact hout a ha hin
      · rw [hrec] at hrec'
        cases hrec'
    rw [hfield, if_pos ha, firedTimer, if_neg (by simp [hrec])]
    exact ⟨hgone, rfl⟩
  · intro a ha hrec
    have hin : a ∈ m'.timers := (hmem a).mpr (.inr ⟨ha, hrec⟩)
    have hnext : u64 (now + (m.heap a).ms) = now + (m.heap a).ms :=
      Nat.mod_eq_of_lt (hbound a ha hrec)
    rw [hfield, if_pos ha, firedTimer, if_pos hrec, hnext]
    exact ⟨List.count_eq_one_of_mem hloop.ordered.nodup hin, rfl⟩
  · intro a ha
    rw [hfield, if_neg ha, hloop.ordered.nodup.count, hm.nodup.count]
    have hsame : a ∈ m'.timers ↔ a ∈ m.timers := by
      rw [hmem, ← hsplit, List.mem_append]
      tauto
    simp only [hsame, and_self]
  · intro _
    rw [hloop.previouse, hm₁]
  · intro hempty
    exact (hne hempty).elim

/-- The section on a set whose first timer is `a`: it expires `taken`, or it returns because
`a` is not due. -/
theorem takeExpired_taken {m : TimerManager} (hm : Ordered (key m.heap) m.timers) (now : Nat)
    {probe : Addr} (hprobe : probe ∉ m.timers) (hhour : 60 * 60 * 1000 ≤ m.previouseTime)
    (hword : m.previouseTime < 2 ^ 64) {a : Addr} {as : List Addr} (htimers : m.timers = a :: as) :
    (m.taken now = [] ∧ m.takeExpired now probe = .ok ([], [], { m with previouseTime := now })) ∨
    ∃ rest m', m.taken now ++ rest = m.timers ∧
      m.takeExpired now probe =
        .ok (m.taken now, (m.taken now).map fun b => (m.heap b).cb, m') ∧
      HandedOut { m with previouseTime := now, timers := rest } m' now (m.taken now) := by
  have htime : m.detectClockRollover now =
      (decide (now + 60 * 60 * 1000 < m.previouseTime), { m with previouseTime := now }) :=
    Prod.ext (detectClockRollover_hour hhour hword now) rfl
  obtain ⟨rest, hparts⟩ : ∃ rest, TimerManager.splitExpired { m with previouseTime := now } now
      probe (decide (now + 60 * 60 * 1000 < m.previouseTime)) = (m.taken now, rest) :=
    ⟨_, Prod.ext (splitExpired_taken hm now hprobe) rfl⟩
  have hsplit : m.taken now ++ rest = m.timers := by
    have hwhole := splitExpired_append { m with previouseTime := now } now probe
      (decide (now + 60 * 60 * 1000 < m.previouseTime))
    rwa [hparts] at hwhole
  have hhead : m.timers.head?.map (fun b => decide ((m.heap b).next ≤ now)) =
      some (decide ((m.heap a).next ≤ now)) := by
    rw [htimers]
    rfl
  have hgate : (if decide (now + 60 * 60 * 1000 < m.previouseTime) = true then some true
      else some (decide ((m.heap a).next ≤ now))) =
      some (decide (now + 60 * 60 * 1000 < m.previouseTime ∨ (m.heap a).next ≤ now)) := by
    by_cases hback : now + 60 * 60 * 1000 < m.previouseTime <;> simp [hback]
  unfold TimerManager.takeExpired
  simp only [htime, hhead, hgate]
  by_cases hgo : now + 60 * 60 * 1000 < m.previouseTime ∨ (m.heap a).next ≤ now
  · right
    obtain ⟨hloop, hcbs⟩ := handOut_split hm now hsplit
    rw [decide_eq_true hgo, hparts]
    refine ⟨rest, _, hsplit, ?_, hloop⟩
    rw [hcbs]
  · left
    rw [decide_eq_false hgo]
    refine ⟨?_, rfl⟩
    obtain ⟨hback, hahead⟩ := not_or.mp hgo
    rw [TimerManager.taken, if_neg hback, ← due_eq_filter hm, TimerManager.due, htimers]
    apply List.takeWhile_cons_of_neg
    simpa using hahead

/-- `listExpiredCb` takes exactly the due timers, whatever the clock did since the last call. -/
theorem listExpiredCb_takes_due (m : TimerManager) (hm : Ordered (key m.heap) m.timers)
    (now : Nat) (probe : Addr) (hprobe : probe ∉ m.timers) (cbs : List (Option Cb))
    (hhour : 60 * 60 * 1000 ≤ m.previouseTime) (hword : m.previouseTime < 2 ^ 64)
    (hbound : ∀ a ∈ m.taken now, (m.heap a).recurring = true → now + (m.heap a).ms < 2 ^ 64) :
    ∃ cbs' m', m.listExpiredCbInto now probe cbs = .ok (cbs', m') ∧
      TakesDue m now cbs cbs' m' := by
  rw [listExpiredCbInto_eq]
  unfold TimerManager.listExpiredCb
  by_cases hempty : m.timers = []
  · have hnone : m.taken now = [] := by simp [TimerManager.taken, hempty]
    rw [if_pos hempty]
    refine ⟨_, _, rfl, ?_⟩
    rw [List.append_nil]
    exact .nothing hm cbs hnone rfl rfl (fun hne => (hne hempty).elim) fun _ => rfl
  · rw [if_neg hempty]
    obtain ⟨a, as, htimers⟩ := List.exists_cons_of_ne_nil hempty
    rcases takeExpired_taken hm now hprobe hhour hword htimers with
      ⟨hnone, hrun⟩ | ⟨rest, m', hsplit, hrun, hloop⟩
    · rw [hrun]
      refine ⟨_, _, rfl, ?_⟩
      rw [List.append_nil]
      exact .nothing hm cbs hnone rfl rfl (fun _ => rfl) fun hnil => (hempty hnil).elim
    · rw [hrun]
      exact ⟨_, m', rfl, .handedOut hm cbs hempty hsplit hbound rfl hloop⟩

/-- Two timers due at 100, one of them recurring, and one due at 200; the last call was at
3600050. -/
def tiedTimers : TimerManager where
  heap := fun a =>
    if a = 1 then ⟨true, 50, 100, some 7⟩
    else if a = 2 then ⟨false, 60, 100, some 8⟩
    else ⟨false, 70, 200, some 9⟩
  issued := fun a => decide (a = 1 ∨ a = 2 ∨ a = 3)
  timers := [1, 2, 3]
  tickled := false
  previouseTime := 3600050

theorem tiedTimers_ordered : Ordered (key tiedTimers.heap) tiedTimers.timers := by
  simp [Ordered, key_lt, tiedTimers]

/-- The clock is a little less, then more than an hour behind the last call. -/
theorem listExpiredCb_takes_due_tied :
    (∃ cbs' m', tiedTimers.listExpiredCbInto 100 4 [some 6] = .ok (cbs', m') ∧
      TakesDue tiedTimers 100 [some 6] cbs' m' ∧ tiedTimers.taken 100 = [1, 2]) ∧
    ∃ cbs' m', tiedTimers.listExpiredCbInto 20 4 [some 6] = .ok (cbs', m') ∧
      TakesDue tiedTimers 20 [some 6] cbs' m' ∧ tiedTimers.taken 20 = [1, 2, 3] := by
  have hback : tiedTimers.taken 100 = [1, 2] := by simp [TimerManager.taken, tiedTimers]
  have hfar : tiedTimers.taken 20 = [1, 2, 3] := by simp [TimerManager.taken, tiedTimers]
  obtain ⟨cbs, m, hrun, hdue⟩ := listExpiredCb_takes_due tiedTimers tiedTimers_ordered 100 4
    (by simp [tiedTimers]) [some 6] (by simp [tiedTimers]) (by simp [tiedTimers])
    (by rw [hback]; simp [tiedTimers])
  obtain ⟨cbs', m', hrun', hdue'⟩ := listExpiredCb_takes_due tiedTimers tiedTimers_ordered 20 4
    (by simp [tiedTimers]) [some 6] (by simp [tiedTimers]) (by simp [tiedTimers])
    (by rw [hfar]; simp [tiedTimers])
  exact ⟨⟨cbs, m, hrun, hdue, hback⟩, cbs', m', hrun', hdue', hfar⟩

end Sylar.Timers
