import Sylar.Scheduler.Conservation

/-! # Callbacks are served in order

A worker passes over an entry that is pinned to another thread, and over a fiber in `EXEC`. A
callback is never in `EXEC`: one that any worker may take is taken before everything that was
queued behind it, and a pinned one before what is pinned to the same thread behind it.
-/

namespace Sylar.Scheduler

open Transition

variable {n : Nat} {k : Kind}

/-- Whoever may take `y` may take the callback `x`. -/
def ServedFirst (x y : FiberAndThread) : Prop :=
  x.fiber = none ∧ (x.thread = -1 ∨ x.thread = y.thread)

def Precedes (taken : List Nat) (c t : Nat) : Prop := ∃ pre post, taken = pre ++ t :: post ∧ c ∈ pre

def InOrder (s : State n) : Prop :=
  ∀ c t x y, c < t → s.submitted[c]? = some x → s.submitted[t]? = some y → ServedFirst x y →
    t ∈ s.taken → Precedes s.taken c t

theorem Precedes.append {taken : List Nat} {c t : Nat} (h : Precedes taken c t) (l : List Nat) :
    Precedes (taken ++ l) c t := by
  obtain ⟨pre, post, rfl, hc⟩ := h
  exact ⟨pre, post ++ l, by rw [List.append_assoc, List.cons_append], hc⟩

theorem precedes_append_singleton {taken : List Nat} {c t : Nat} (hc : c ∈ taken) :
    Precedes (taken ++ [t]) c t := ⟨taken, [], rfl, hc⟩

/-! ## Steps -/

theorem takeable_of_servedFirst {states : FiberId → FiberState} {w : Fin n} {x e : Entry}
    (hx : ServedFirst x.task e.task) (he : takeable states w e) : takeable states w x := by
  obtain ⟨hcallback, hthread⟩ := hx
  refine ⟨fun hpinned => ?_, fun hexec => ?_⟩
  · rcases hthread with hany | hsame
    · exact hpinned.1 hany
    · apply he.1
      unfold pinnedElsewhere at hpinned ⊢
      rwa [hsame] at hpinned
  · obtain ⟨f, hf, -⟩ := hexec
    rw [hcallback] at hf
    cases hf

theorem Conserves.queued_or_taken {s : State n} (h : Conserves s) {t : Nat}
    (ht : t < s.submitted.length) : (∃ e ∈ s.queue, e.ticket = t) ∨ t ∈ s.taken := by
  have hmem := h.tickets.mem_iff.mpr (List.mem_range.mpr ht)
  exact (List.mem_append.mp hmem).imp_left List.mem_map.mp

theorem Conserves.taken_lt {s : State n} (h : Conserves s) {t : Nat} (ht : t ∈ s.taken) :
    t < s.submitted.length :=
  List.mem_range.mp (h.tickets.mem_iff.mp (List.mem_append_right _ ht))

theorem Conserves.ahead {s : State n} (h : Conserves s) {pre post : List Entry} {e x : Entry}
    (hqueue : s.queue = pre ++ e :: post) (hx : x ∈ s.queue) (hlt : x.ticket < e.ticket) :
    x ∈ pre := by
  have hordered := h.ordered
  rw [hqueue] at hx hordered
  rw [List.map_append, List.map_cons] at hordered
  have hbehind := (List.pairwise_cons.mp (List.pairwise_append.mp hordered).2.1).1
  rcases List.mem_append.mp hx with hpre | hrest
  · exact hpre
  · rcases List.mem_cons.mp hrest with rfl | hpost
    · exact absurd hlt (Nat.lt_irrefl _)
    · exact absurd hlt (hbehind _ (List.mem_map_of_mem hpost)).asymm

/-- A step that takes nothing and submits at the end. -/
theorem InOrder.submit {s s' : State n} (h : InOrder s) (hcons : Conserves s)
    (htaken : s'.taken = s.taken) (hsubmitted : s.submitted <+: s'.submitted) : InOrder s' := by
  obtain ⟨fts, hfts⟩ := hsubmitted
  intro c t x y hct hc ht hxy hmem
  rw [htaken] at hmem ⊢
  have hlt := hcons.taken_lt hmem
  rw [← hfts, List.getElem?_append_left (hct.trans hlt)] at hc
  rw [← hfts, List.getElem?_append_left hlt] at ht
  exact h c t x y hct hc ht hxy hmem

/-- What stands before the entry that a worker takes is nothing that it might have taken. -/
theorem InOrder.scans {s s' : State n} (h : InOrder s) (hcons : Conserves s) {w : Fin n}
    (hs : Scans s w s') : InOrder s' := by
  cases hs with
  | nothing tickle hnone htickle => exact h
  | took tickle pre post e pc hqueue hpre he hstart =>
      intro c t x y hct hc ht hxy hmem
      rcases List.mem_append.mp hmem with hold | hnew
      · exact (h c t x y hct hc ht hxy hold).append _
      · cases List.mem_singleton.mp hnew
        have hmemE : e ∈ s.queue := by
          rw [hqueue]
          exact List.mem_append_right pre List.mem_cons_self
        have htask : y = e.task := Option.some.inj (ht.symm.trans (hcons.content e hmemE))
        obtain ⟨hlt, -⟩ := List.getElem?_eq_some_iff.mp hc
        rcases hcons.queued_or_taken hlt with ⟨z, hz, rfl⟩ | htaken
        · -- the callback would have been taken instead
          have hzx : x = z.task := Option.some.inj (hc.symm.trans (hcons.content z hz))
          rw [hzx, htask] at hxy
          exact absurd (takeable_of_servedFirst hxy he) (hpre z (hcons.ahead hqueue hz hct))
        · exact precedes_append_singleton htaken

/-- Only a scan takes, and `run` queues at the end. -/
theorem accessAt_taken {s t : State n} {w : Fin n} {pc : Pc} (hscan : pc ≠ .scan)
    (hr : s.accessAt w pc = some (.ok t)) :
    t.taken = s.taken ∧ s.submitted <+: t.submitted := by
  cases pc
  case scan => exact absurd rfl hscan
  case running b f => cases hr
  case idleCheck => cases hr
  case blocked => cases hr
  case exited => cases hr
  case requeue b f =>
    cases hr
    rw [State.requeue, requeue_eq]
    exact ⟨rfl, List.prefix_append _ _⟩
  case prepare cb =>
    obtain ⟨-, rfl⟩ | ⟨f, -, -, rfl⟩ := accessAt_prepare hr <;> exact ⟨rfl, List.prefix_rfl⟩
  case swapAssert b f =>
    obtain ⟨-, rfl⟩ := accessAt_swapAssert hr
    exact ⟨rfl, List.prefix_rfl⟩
  case recycle f =>
    obtain ⟨-, rfl⟩ := accessAt_recycle hr
    exact ⟨rfl, List.prefix_rfl⟩
  case noTask =>
    obtain ⟨-, rfl⟩ | ⟨-, rfl⟩ := accessAt_noTask hr <;> exact ⟨rfl, List.prefix_rfl⟩
  case woken pipe => cases pipe <;> cases hr <;> exact ⟨rfl, List.prefix_rfl⟩
  all_goals
    cases hr
    exact ⟨rfl, List.prefix_rfl⟩

theorem op_takes {s t : State n} {a : Action n} (hcons : Conserves s)
    (hr : op k s a = some (.ok t)) :
    (∃ w, Scans s w t) ∨ t.taken = s.taken ∧ s.submitted <+: t.submitted := by
  cases op_acts hr with
  | call a c t ha hc ht =>
      obtain ⟨-, hsubmitted, htaken, -, -⟩ := settle_shared s c
      rw [call_eq] at ht
      refine .inr ⟨ht.taken.trans htaken, ?_⟩
      rw [ht.submitted, ← hsubmitted]
      exact List.prefix_append _ _
  | notify a t ht => exact .inr ⟨ht.taken, ht.submitted ▸ List.prefix_rfl⟩
  | access w r htickle hr =>
      by_cases hpc : (s.workers w).pc = .scan
      · rw [hpc] at hr
        obtain ⟨u, hu, hscan⟩ := scan_scans s w hcons.queue_nonEmpty
        cases hu.symm.trans (Option.some.inj hr)
        exact .inl ⟨w, hscan⟩
      · exact .inr (accessAt_taken hpc hr)
  | fiber w b f fop r hpc hr =>
      right
      unfold State.fiberOp at hr
      split at hr
      · cases hr
      · cases fop with
        | register | finish | throw =>
            cases hr
            exact ⟨rfl, List.prefix_rfl⟩
        | yieldToReady | yieldToHold =>
            simp only [State.runFiber, Option.some.injEq] at hr
            split at hr <;> cases hr
            exact ⟨rfl, List.prefix_rfl⟩
  | idleCheck k w quiet hpc =>
      right
      unfold State.idleCheck
      split
      · exact ⟨rfl, List.prefix_rfl⟩
      · cases k <;> exact ⟨rfl, List.prefix_rfl⟩
  | wake w pipe hpc => exact .inr ⟨rfl, List.prefix_rfl⟩

/-! ## Every run -/

structure Served (s : State n) : Prop where
  conserves : Conserves s
  inOrder : InOrder s

theorem op_served (s : State n) (a : Action n) (r : Except Fault (State n)) (h : Served s)
    (_ : Free s a) (hr : op k s a = some r) : Holds Served (fun _ => True) r := by
  have hsafe := op_conserves s a r h.conserves hr
  cases r with
  | error e => trivial
  | ok t =>
      refine ⟨hsafe, ?_⟩
      rcases op_takes h.conserves hr with ⟨w, hscan⟩ | ⟨htaken, hsubmitted⟩
      · exact h.inOrder.scans h.conserves hscan
      · exact h.inOrder.submit h.conserves htaken hsubmitted

theorem served_init (n : Nat) : Served (.init n) where
  conserves := conserves_init n
  inOrder := by
    intro c t x y hct hc
    cases hc

theorem Served.reaches {s : State n} {r : Except Fault (State n)} (h : Served s)
    (hr : Reaches (step k) (onOk Free) (.ok s) r) : Holds Served (fun _ => True) r :=
  hr.invariant (preserves_abortable op_served) h

theorem Served.extends {s s' : State n} (h : Served s)
    (hr : Reaches (step k) (onOk Free) (.ok s) (.ok s')) :
    s.taken <+: s'.taken ∧ s.submitted <+: s'.submitted := by
  have hinv : Holds (fun t : State n => Served t ∧ s.taken <+: t.taken ∧
      s.submitted <+: t.submitted) (fun _ => True) (.ok s' : Except Fault (State n)) := by
    apply hr.invariant
    · apply preserves_abortable
      rintro t a r ⟨ht, htaken, hsubmitted⟩ hfree hop
      have hserved := op_served t a r ht hfree hop
      cases r with
      | error e => trivial
      | ok u =>
          refine ⟨hserved, ?_⟩
          rcases op_takes ht.conserves hop with ⟨w, hscan⟩ | ⟨hsame, hmore⟩
          · cases hscan with
            | nothing tickle hnone htickle => exact ⟨htaken, hsubmitted⟩
            | took tickle pre post e pc hqueue hpre he hstart =>
                exact ⟨htaken.trans (List.prefix_append _ _), hsubmitted⟩
          · exact ⟨hsame ▸ htaken, hsubmitted.trans hmore⟩
    · exact ⟨h, List.prefix_rfl, List.prefix_rfl⟩
  exact hinv.2

/-- As long as a callback for any worker waits, only what stood before it is taken. -/
theorem Served.overtakes {s s' : State n} (h : Served s)
    (hr : Reaches (step k) (onOk Free) (.ok s) (.ok s')) {pre post : List Entry} {e : Entry}
    (hqueue : s.queue = pre ++ e :: post) (hcallback : e.task.fiber = none)
    (hany : e.task.thread = -1) (hwaits : e.ticket ∉ s'.taken) :
    s'.taken.length ≤ s.taken.length + pre.length := by
  have h' : Served s' := h.reaches hr
  obtain ⟨⟨later, hlater⟩, hsubmitted⟩ := h.extends hr
  have hmem : e ∈ s.queue := by
    rw [hqueue]
    exact List.mem_append_right pre List.mem_cons_self
  have hc : s'.submitted[e.ticket]? = some e.task := by
    obtain ⟨fts, hfts⟩ := hsubmitted
    have hold := h.conserves.content e hmem
    rw [← hfts, List.getElem?_append_left (List.getElem?_eq_some_iff.mp hold).1, hold]
  have hnodup : s'.taken.Nodup :=
    (List.nodup_append.mp (h'.conserves.tickets.nodup_iff.mpr List.nodup_range)).2.1
  rw [← hlater] at hnodup hwaits ⊢
  have hsub : later ⊆ pre.map Entry.ticket := by
    intro t ht
    have htaken : t ∈ s'.taken := hlater ▸ List.mem_append_right _ ht
    have hne : t ≠ e.ticket := by
      rintro rfl
      exact hwaits (List.mem_append_right _ ht)
    have hlt : t < e.ticket := by
      by_contra hge
      have hct : e.ticket < t := by omega
      have hty := List.getElem?_eq_getElem (h'.conserves.taken_lt htaken)
      obtain ⟨pre', post', heq, hin⟩ :=
        h'.inOrder _ _ _ _ hct hc hty ⟨hcallback, .inl hany⟩ htaken
      apply hwaits
      rw [hlater, heq]
      exact List.mem_append_left _ hin
    have hlength : e.ticket < s.submitted.length :=
      (List.getElem?_eq_some_iff.mp (h.conserves.content e hmem)).1
    rcases h.conserves.queued_or_taken (hlt.trans hlength) with ⟨x, hx, rfl⟩ | hbefore
    · exact List.mem_map_of_mem (h.conserves.ahead hqueue hx hlt)
    · exact absurd rfl ((List.nodup_append.mp hnodup).2.2 t hbefore t ht)
  have hle := ((List.nodup_append.mp hnodup).2.1.subperm hsub).length_le
  rw [List.length_map] at hle
  rw [List.length_append]
  omega

/-- In every run a callback is taken before what was queued behind it for the same workers, and one
that any worker may take waits for no more takes than there are entries before it. -/
theorem callbacks_in_order {s : State n}
    (h : Reaches (step k) (onOk Free) (.ok (.init n)) (.ok s)) :
    InOrder s ∧
      ∀ s', Reaches (step k) (onOk Free) (.ok s) (.ok s') →
        ∀ pre post e, s.queue = pre ++ e :: post → e.task.fiber = none → e.task.thread = -1 →
          e.ticket ∉ s'.taken → s'.taken.length ≤ s.taken.length + pre.length := by
  have hserved : Served s := (served_init n).reaches h
  exact ⟨hserved.inOrder, fun s' hs' pre post e hqueue hcallback hany hwaits =>
    hserved.overtakes hs' hqueue hcallback hany hwaits⟩

def waitingRun : List (Action 2) :=
  [.outside 0 (.newFiber (some 5)), .outside 0 (.schedule (.fiber (some 1)) (-1)),
    .outside 1 (.schedule (.callback (some 7)) (-1)),
    .outside 1 (.schedule (.callback (some 8)) (-1)), .worker 0, .worker 1]

theorem callbacks_in_order_sample :
    ∃ s, checkedRun (step .base) (fun s a => decide (onOk Free s a)) (.ok (.init 2))
        waitingRun = some (.ok s) ∧ s.taken = [0, 1] ∧ s.submitted.length = 3 ∧ InOrder s := by
  have hrun : (checkedRun (step .base) (fun s a => decide (onOk Free s a)) (.ok (.init 2))
      waitingRun).any (okAnd fun s => decide (s.taken = [0, 1] ∧ s.submitted.length = 3)) =
        true := by decide
  obtain ⟨s, hs, htaken, hlength⟩ := exists_ok_of_any hrun
  exact ⟨s, hs, htaken, hlength, (callbacks_in_order (.of_decidedRun hs)).1⟩

end Sylar.Scheduler
