import Sylar.Thread.Start

/-! # The calls of `start` and `stop` end

Every section of a call and every statement of `Thread::run` brings the calls that were made
nearer to their ends, and while one of them has not ended some thread can go on.
-/

namespace Sylar.Start

open Transition

variable {ι : Type*} {count made : Nat} {roots : List Int} {x : Setup ι} {s : Scheduler ι}

/-! ## What is left to do -/

def RunPc.left : RunPc → Nat
  | .setId => 4
  | .swapCb => 3
  | .notify => 2
  | .cb => 1
  | .ended => 0

/-- The sections that are left, with the statements of the threads still to create. -/
def Pc.left (count : Nat) : Pc → Nat
  | .outside => 0
  | .locking => 6 * count + 3
  | .entered => 6 * count + 2
  | .create i => 6 * (count - i) + 1
  | .await i _ => 6 * (count - (i + 1)) + 2
  | .flagged => count + 2
  | .joining _ left => left.length + 1

def Scheduler.remaining [Fintype ι] (count : Nat) (s : Scheduler ι) : Nat :=
  ∑ c, (s.pc c).left count + (s.objects.map fun t => t.pc.left).sum

/-- The calls that were made go on, and `pthread_create` succeeds. -/
def going : Action ι → Bool
  | .start _ | .stop _ _ => false
  | .next _ created => created.any fun tid => decide (0 < tid)
  | .run _ => true

theorem Thread.run_left {t t' : Thread} (h : t.run = some t') : t'.pc.left < t.pc.left := by
  unfold Thread.run at h
  split at h <;> cases h <;> rename_i hpc <;> rw [hpc] <;> exact Nat.lt_succ_self _

theorem Thread.run_isSome {t : Thread} (h : t.pc ≠ .ended) : ∃ t', t.run = some t' := by
  unfold Thread.run
  cases hpc : t.pc with
  | ended => exact (h hpc).elim
  | setId | swapCb | notify | cb => exact ⟨_, rfl⟩

theorem destroy_left (thrs : List (Option Nat)) (objects : List Thread) :
    (destroy thrs objects).map (fun t => t.pc.left) = objects.map fun t => t.pc.left := by
  refine List.ext_getElem? fun k => ?_
  rw [List.getElem?_map, getElem?_destroy, List.getElem?_map, Option.map_map]
  congr 1
  funext t
  simp only [Function.comp]
  split <;> rfl

theorem Sound.threads_le (h : Sound count roots made s) (hmutex : s.mutex = none) :
    s.threads.length ≤ count := by
  have hwhole := h.whole fun d i hi => by
    have hd := (h.mutex d).mpr hi.locked
    rw [hmutex] at hd
    cases hd
  rcases hwhole with hnil | hfilled
  · simp [hnil]
  · exact hfilled.size.le

variable [DecidableEq ι] [Fintype ι]

/-- A caller that goes on does so towards its end, with the threads that it creates. -/
theorem remaining_goto {u : Scheduler ι} (hpc : u.pc = s.pc) {c : ι} {q : Pc}
    (hless : q.left count + (u.objects.map fun t => t.pc.left).sum <
      (s.pc c).left count + (s.objects.map fun t => t.pc.left).sum) :
    (u.goto c q).remaining count < s.remaining count := by
  have hsum := Collection.sum_update (Pc.left count) s.pc c q
  simp only [Scheduler.remaining, Scheduler.goto, hpc]
  omega

/-- Every step of the calls that were made leaves less to do. -/
theorem Sound.remaining_lt (h : Sound x.threadCount roots made s) {a : Action ι}
    (ha : going a = true) {s' : Scheduler ι} (hr : s.act x a = some (.ok s')) :
    s'.remaining x.threadCount < s.remaining x.threadCount := by
  cases a with
  | start c => cases ha
  | stop c early => cases ha
  | run o =>
      obtain ⟨t, ht, hr⟩ := Option.bind_eq_some_iff.mp hr
      obtain ⟨t', ht', heq⟩ := Option.map_eq_some_iff.mp hr
      cases heq
      have hsum := Collection.sum_map_set (fun t : Thread => t.pc.left) ht t'
      have hleft := Thread.run_left ht'
      simp only [Scheduler.remaining]
      omega
  | next c created =>
      change s.next x.threadCount c created = some (.ok s') at hr
      unfold Scheduler.next at hr
      cases hc : s.pc c with
      | outside => simp [hc] at hr
      | locking =>
          simp only [hc] at hr
          split at hr <;> cases hr
          refine remaining_goto (s := s) (by rfl) ?_
          simp only [hc, Pc.left]
          omega
      | entered =>
          simp only [hc] at hr
          split at hr
          · cases hr
            refine remaining_goto (s := s) (by rfl) ?_
            simp only [hc, Pc.left]
            omega
          · split at hr <;> cases hr
            refine remaining_goto (s := s) (by rfl) ?_
            simp only [hc, Pc.left]
            omega
      | create i =>
          simp only [hc] at hr
          split at hr
          · obtain ⟨tid, rfl, -⟩ := (Option.any_eq_true _ _).mp ha
            cases hr
            refine remaining_goto (s := s) (by rfl) ?_
            simp only [hc, Pc.left, List.map_append, List.sum_append, List.map_singleton,
              List.sum_singleton, Thread.new, RunPc.left]
            omega
          · cases hr
            refine remaining_goto (s := s) (by rfl) ?_
            simp only [hc, Pc.left]
            omega
      | await i o =>
          simp only [hc] at hr
          obtain ⟨t, ht, hr⟩ := Option.bind_eq_some_iff.mp hr
          split at hr <;> cases hr
          refine remaining_goto (s := s) (by rfl) ?_
          have hsum := Collection.sum_map_set (fun t : Thread => t.pc.left) ht
            { t with semaphore := t.semaphore - 1 }
          dsimp only at hsum
          simp only [hc, Pc.left]
          omega
      | flagged =>
          simp only [hc] at hr
          split at hr <;> cases hr
          rename_i hmutex
          refine remaining_goto (s := s) (by rfl) ?_
          have hle := h.threads_le hmutex
          simp only [hc, Pc.left]
          omega
      | joining thrs left =>
          cases left with
          | nil =>
              simp only [hc] at hr
              cases hr
              refine remaining_goto (s := s) (by rfl) ?_
              simp only [hc, Pc.left, destroy_left, List.length_nil]
              omega
          | cons first left =>
              cases first with
              | none => simp [hc] at hr
              | some o =>
                  simp only [hc] at hr
                  obtain ⟨t, -, hr⟩ := Option.bind_eq_some_iff.mp hr
                  split at hr <;> cases hr
                  refine remaining_goto (s := s) (by rfl) ?_
                  simp only [hc, Pc.left, List.length_cons]
                  omega

/-! ## Somebody can go on -/

/-- No call is under way, and every thread has ended. -/
def Scheduler.Quiet (s : Scheduler ι) : Prop :=
  (∀ c, s.pc c = .outside) ∧ ∀ t ∈ s.objects, t.pc = .ended

omit [DecidableEq ι] [Fintype ι] in
theorem Sound.object (h : Sound count roots made s) {x : Option Nat}
    (hx : ∃ o < made, x = some o) : ∃ o t, x = some o ∧ s.objects[o]? = some t := by
  obtain ⟨o, ho, rfl⟩ := hx
  have hlt : o < s.objects.length := ho.trans_le h.size
  exact ⟨o, s.objects[o], rfl, List.getElem?_eq_getElem hlt⟩

omit [Fintype ι] in
/-- With every thread at its end, a caller in a section under `m_mutex` goes on. -/
theorem Sound.locked_goes (h : Sound count roots made s) {c : ι} (hc : (s.pc c).Locked)
    (hended : ∀ t ∈ s.objects, t.pc = .ended) : (s.next count c (some 1)).isSome = true := by
  unfold Scheduler.next
  cases hpc : s.pc c with
  | entered =>
      simp only
      split
      · rfl
      · split <;> rfl
  | create i =>
      simp only
      split <;> rfl
  | await i o =>
      obtain ⟨rfl, hlt, -⟩ := h.awaits c i o hpc
      have ht := List.getElem?_eq_getElem hlt
      have hsem := (h.constructing _ ht).semaphore
      rw [if_pos (.inr (hended _ (List.getElem_mem hlt)))] at hsem
      simp only [ht, Option.bind_some, hsem, Nat.one_ne_zero, if_false]
      rfl
  | outside | locking | flagged | joining thrs left =>
      rw [hpc] at hc
      exact hc.elim

omit [Fintype ι] in
theorem Sound.unlocked_goes (h : Sound count roots made s) {c : ι} (hc : s.pc c ≠ .outside)
    (hended : ∀ t ∈ s.objects, t.pc = .ended) (hmutex : s.mutex = none) :
    (s.next count c (some 1)).isSome = true := by
  have hfree : ¬ (s.pc c).Locked := by
    rw [← h.mutex, hmutex]
    exact fun heq => by cases heq
  unfold Scheduler.next
  cases hpc : s.pc c with
  | outside => exact (hc hpc).elim
  | locking | flagged =>
      simp only [hmutex, if_true]
      rfl
  | joining thrs left =>
      cases left with
      | nil => rfl
      | cons x left =>
          obtain ⟨hmade, joined, hsplit, -⟩ := h.joins c thrs (x :: left) hpc
          obtain ⟨o, t, rfl, ht⟩ :=
            h.object (hmade x (hsplit ▸ List.mem_append_right joined List.mem_cons_self))
          simp only [ht, Option.bind_some, hended t (List.mem_of_getElem? ht), if_true]
          rfl
  | entered | create i | await i o =>
      rw [hpc] at hfree
      exact (hfree trivial).elim

omit [Fintype ι] in
theorem Sound.goes (h : Sound x.threadCount roots made s) (hbusy : ¬ s.Quiet) :
    ∃ a, going a = true ∧ (s.act x a).isSome = true := by
  by_cases hended : ∀ t ∈ s.objects, t.pc = .ended
  · obtain ⟨c, hc⟩ : ∃ c, s.pc c ≠ .outside := by
      by_contra hnone
      exact hbusy ⟨fun c => by_contra fun hc => hnone ⟨c, hc⟩, hended⟩
    cases hmutex : s.mutex with
    | none => exact ⟨.next c (some 1), rfl, h.unlocked_goes hc hended hmutex⟩
    | some d => exact ⟨.next d (some 1), rfl, h.locked_goes ((h.mutex d).mp hmutex) hended⟩
  · push Not at hended
    obtain ⟨t, ht, hpc⟩ := hended
    obtain ⟨o, ho⟩ := List.mem_iff_getElem?.mp ht
    obtain ⟨t', ht'⟩ := Thread.run_isSome hpc
    refine ⟨.run o, rfl, ?_⟩
    simp [Scheduler.act, ho, ht']

/-! ## Runs -/

omit [DecidableEq ι] [Fintype ι] in
theorem heeding_of_going {a : Action ι} (ha : going a = true) : Heeding x s a := by
  cases a with
  | start c => cases ha
  | stop c early => cases ha
  | next c created => exact ha
  | run o => trivial

/-- A step of the calls that were made fails no assertion. -/
theorem Lasting.goes_on (h : Lasting x.threadCount x.rootThread.toList s) {a : Action ι}
    (ha : going a = true) {r : Except Fault (Scheduler ι)} (hr : s.act x a = some r) :
    ∃ s', r = .ok s' ∧ Lasting x.threadCount x.rootThread.toList s' ∧
      s'.remaining x.threadCount < s.remaining x.threadCount := by
  have hkept := lasting_preserved x (.ok s) a r h (heeding_of_going ha) hr
  cases r with
  | error e => exact hkept.elim
  | ok s' =>
      obtain ⟨⟨made, hs⟩, -⟩ := h
      exact ⟨s', rfl, hkept, hs.remaining_lt ha hr⟩

theorem Lasting.bounded (h : Lasting x.threadCount x.rootThread.toList s) {as : List (Action ι)}
    {t : Scheduler ι}
    (hrun : checkedRun (step x) (fun _ a => going a) (.ok s) as = some (.ok t)) :
    as.length ≤ s.remaining x.threadCount := by
  induction as generalizing s with
  | nil => exact Nat.zero_le _
  | cons a as ih =>
      unfold checkedRun at hrun
      split at hrun
      · rename_i ha
        obtain ⟨r, hr, hrest⟩ := Option.bind_eq_some_iff.mp hrun
        obtain ⟨s', rfl, hs', hless⟩ := h.goes_on ha hr
        have hle := ih hs' hrest
        rw [List.length_cons]
        omega
      · cases hrun

theorem Lasting.ends (h : Lasting x.threadCount x.rootThread.toList s) : ∃ as t,
    checkedRun (step x) (fun _ a => going a) (.ok s) as = some (.ok t) ∧ t.Quiet := by
  induction hn : s.remaining x.threadCount using Nat.strong_induction_on generalizing s with
  | _ n ih =>
      by_cases hquiet : s.Quiet
      · exact ⟨[], s, rfl, hquiet⟩
      · obtain ⟨⟨made, hs⟩, -⟩ := id h
        obtain ⟨a, ha, henabled⟩ := hs.goes hquiet
        obtain ⟨r, hr⟩ := Option.isSome_iff_exists.mp henabled
        obtain ⟨s', rfl, hs', hless⟩ := h.goes_on ha hr
        obtain ⟨as, t, hrun, ht⟩ := ih _ (hn ▸ hless) hs' rfl
        refine ⟨a :: as, t, ?_, ht⟩
        have hstep : step x (.ok s) a = some (.ok s') := hr
        rw [checkedRun, if_pos ha, hstep]
        exact hrun

/-- One thread, with `use_caller` on the thread of the caller `false`. -/
def restartSetup : Setup Bool := ⟨1, some 3, (· = false)⟩

/-- The thread is started, and it is stopped while a second caller tries to start. -/
def restartRun : List (Action Bool) :=
  [.start false, .next false (some 7), .next false (some 7), .next false (some 7), .run 0, .run 0,
    .run 0, .next false (some 7), .next false (some 7), .start true, .next true (some 7),
    .next true (some 7), .stop false none, .next false (some 7)]

/-- A `start` that looks at the flag before the swap of a `stop` fails its assertion. -/
example : checkedRun (step restartSetup) (fun _ _ => true) (.ok (.init restartSetup))
    [.start false, .next false (some 7), .next false (some 7), .next false (some 7), .run 0, .run 0,
      .run 0, .next false (some 7), .next false (some 7), .stop false none, .start true,
      .next true (some 7), .next true (some 7)] = some (.error .threads) := rfl

end Sylar.Start
