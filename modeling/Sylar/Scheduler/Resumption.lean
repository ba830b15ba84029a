import Sylar.Scheduler.Handoff

/-! # Every wake-up resumes once

Under the discipline of one outstanding wake-up a taken entry is on its way to `swapIn` at one
worker, or has led to one switch into its fiber: the branch for ended fibers is never reached.
-/

namespace Sylar.Scheduler

open Transition

variable {n : Nat} {k : Kind}

/-! ## The invariant -/

/-- Between taking an entry and switching into a fiber for it. -/
def Pc.onWay : Pc → Bool
  | .checkTerm _ | .checkExcept _ | .swapAssert _ _ | .swapExec _ _ | .swapCtx _ _ | .prepare _
  | .prepareWrite _ _ => true
  | _ => false

/-- `ft.fiber` of the entry a branch runs. -/
def Branch.taskFiber : Branch → FiberId → Option FiberId
  | .fiber, f => some f
  | .cb, _ => none

/-- `ft.fiber` of the entry on its way. -/
def Pc.taskFiber : Pc → Option FiberId
  | .checkTerm f | .checkExcept f => some f
  | .swapAssert b f | .swapExec b f | .swapCtx b f => b.taskFiber f
  | _ => none

def Worker.carries (x : Worker) (t : Nat) : Prop := x.held = some t ∧ x.pc.onWay = true

def State.resumedTickets (s : State n) : List Nat := s.resumed.map Prod.fst

structure Accounted (s : State n) : Prop where
  taken : ∀ t, t ∈ s.taken ↔ t ∈ s.resumedTickets ∨ ∃ w, (s.workers w).carries t
  once : s.resumedTickets.Nodup
  ahead : ∀ w t, (s.workers w).carries t → t ∉ s.resumedTickets
  single : ∀ v w t, (s.workers v).held = some t → (s.workers w).held = some t → v = w
  held : ∀ w t, (s.workers w).held = some t → t ∈ s.taken
  task : ∀ w t, (s.workers w).carries t →
    ∃ ft, s.submitted[t]? = some ft ∧ ft.fiber = (s.workers w).pc.taskFiber
  resumed : ∀ t f, (t, f) ∈ s.resumed →
    ∃ ft, s.submitted[t]? = some ft ∧ (ft.fiber = none ∨ ft.fiber = some f)

theorem accounted_init (n : Nat) : Accounted (.init n) where
  taken := fun t => ⟨nofun, by rintro (h | ⟨w, h, _⟩) <;> cases h⟩
  once := List.nodup_nil
  ahead := fun w t h => by cases h.1
  single := fun v w t h => by cases h
  held := fun w t h => by cases h
  task := fun w t h => by cases h.1
  resumed := fun t f h => by cases h

/-- The worker carries the same entry, or pays for one it carries no more. -/
structure SameTask (x y : Worker) : Prop where
  held : y.held = x.held ∨ y.held = none ∧ x.pc.onWay = false
  onWay : y.pc.onWay = x.pc.onWay
  task : x.pc.onWay = true → y.pc.taskFiber = x.pc.taskFiber

theorem SameTask.refl (x : Worker) : SameTask x x := ⟨.inl rfl, rfl, fun _ => rfl⟩

theorem SameTask.carries {x y : Worker} (h : SameTask x y) (t : Nat) :
    y.carries t ↔ x.carries t := by
  unfold Worker.carries
  rw [h.onWay]
  rcases h.held with heq | ⟨hnone, hout⟩
  · rw [heq]
  · simp [hout]

theorem SameTask.held_old {x y : Worker} (h : SameTask x y) {t : Nat} (hy : y.held = some t) :
    x.held = some t := by
  rcases h.held with heq | ⟨hnone, _⟩
  · rwa [← heq]
  · rw [hnone] at hy
    cases hy

/-- A step that neither takes nor switches in. -/
theorem Accounted.frame {s s' : State n} (h : Accounted s)
    (hworkers : ∀ w, SameTask (s.workers w) (s'.workers w))
    (hsubmitted : ∀ (t : Nat) (ft : FiberAndThread),
      s.submitted[t]? = some ft → s'.submitted[t]? = some ft)
    (htaken : s'.taken = s.taken) (hresumed : s'.resumed = s.resumed) : Accounted s' := by
  have htickets : s'.resumedTickets = s.resumedTickets := by
    rw [State.resumedTickets, hresumed, State.resumedTickets]
  refine ⟨fun t => ?_, htickets ▸ h.once, fun w t hw => ?_, fun v w t hv hw => ?_,
    fun w t hw => ?_, fun w t hw => ?_, fun t f hf => ?_⟩
  · rw [htaken, htickets, h.taken t]
    exact or_congr_right (exists_congr fun w => ((hworkers w).carries t).symm)
  · rw [htickets]
    exact h.ahead w t (((hworkers w).carries t).mp hw)
  · exact h.single v w t ((hworkers v).held_old hv) ((hworkers w).held_old hw)
  · rw [htaken]
    exact h.held w t ((hworkers w).held_old hw)
  · have hold := ((hworkers w).carries t).mp hw
    obtain ⟨ft, hft, hfiber⟩ := h.task w t hold
    exact ⟨ft, hsubmitted t ft hft, hfiber.trans ((hworkers w).task hold.2).symm⟩
  · rw [hresumed] at hf
    obtain ⟨ft, hft, hfiber⟩ := h.resumed t f hf
    exact ⟨ft, hsubmitted t ft hft, hfiber⟩

theorem Accounted.move {s s' : State n} (h : Accounted s) {w : Fin n} {pc : Pc} {x : Worker}
    (hs' : s' = { s' with
      workers := Function.update s.workers w x
      submitted := s.submitted
      taken := s.taken
      resumed := s.resumed })
    (hpc : (s.workers w).pc = pc)
    (hheld : x.held = (s.workers w).held ∨ x.held = none ∧ pc.onWay = false)
    (hway : x.pc.onWay = pc.onWay) (htask : pc.onWay = true → x.pc.taskFiber = pc.taskFiber) :
    Accounted s' := by
  have hworkers : s'.workers = Function.update s.workers w x := by rw [hs']
  have hsubmitted : s'.submitted = s.submitted := by rw [hs']
  refine h.frame (fun v => ?_) (fun t ft hft => hsubmitted ▸ hft) (by rw [hs']) (by rw [hs'])
  by_cases hvw : v = w
  · rw [hvw, hworkers, Function.update_self]
    subst hpc
    exact ⟨hheld, hway, htask⟩
  · rw [hworkers, Function.update_of_ne hvw]
    exact .refl _

theorem push_submitted (s : State n) (fts : List FiberAndThread) (t : Nat) (ft : FiberAndThread)
    (hft : s.submitted[t]? = some ft) : (s.push fts).submitted[t]? = some ft := by
  obtain ⟨hlt, _⟩ := List.getElem?_eq_some_iff.mp hft
  simp only [State.push]
  rw [List.getElem?_append_left hlt, hft]

/-! ## Taking and switching in -/

theorem Accounted.scans {s s' : State n} (h : Accounted s) (hcons : Conserves s) {w : Fin n}
    (hpc : (s.workers w).pc = .scan) (hs : Scans s w s') : Accounted s' := by
  have hfree : (s.workers w).held = none := hcons.free (by rw [hpc]; rfl)
  cases hs with
  | nothing tickle hnone htickle => exact h.move rfl hpc (.inl hfree.symm) rfl nofun
  | took tickle pre post e pc hqueue hpre he hstart =>
      have hmem : e ∈ s.queue := by simp [hqueue]
      have hnew : e.ticket ∉ s.taken := by
        have hnodup := hcons.tickets.nodup_iff.mpr List.nodup_range
        exact fun hin => (List.nodup_append.mp hnodup).2.2 _ (List.mem_map_of_mem hmem) _ hin rfl
      have hway : pc.onWay = true := by cases hstart <;> rfl
      have hself : ((s.take w e (pre ++ post) pc tickle).workers w).held = some e.ticket := by
        simp [State.take]
      have hselfpc : ((s.take w e (pre ++ post) pc tickle).workers w).pc = pc := by
        simp [State.take]
      have hother : ∀ v, v ≠ w →
          (s.take w e (pre ++ post) pc tickle).workers v = s.workers v := fun v hv => by
        simp [State.take, Function.update_of_ne hv]
      have hcarries : ∀ v t, ((s.take w e (pre ++ post) pc tickle).workers v).carries t ↔
          v = w ∧ t = e.ticket ∨ (s.workers v).carries t := by
        intro v t
        by_cases hv : v = w
        · subst hv
          simp only [Worker.carries, hself, hselfpc, hway, hfree, Option.some.injEq, and_true,
            true_and, reduceCtorEq, false_and, or_false]
          exact eq_comm
        · rw [hother v hv]
          simp [hv]
      refine ⟨fun t => ?_, h.once, fun v t hv => ?_, fun u v t hu hv => ?_, fun v t hv => ?_,
        fun v t hv => ?_, h.resumed⟩
      · simp only [hcarries]
        change t ∈ s.taken ++ [e.ticket] ↔ t ∈ s.resumedTickets ∨ _
        rw [List.mem_append, h.taken t, List.mem_singleton]
        constructor
        · rintro ((ht | ⟨v, hv⟩) | rfl)
          · exact .inl ht
          · exact .inr ⟨v, .inr hv⟩
          · exact .inr ⟨w, .inl ⟨rfl, rfl⟩⟩
        · rintro (ht | ⟨v, ⟨_, ht⟩ | hv⟩)
          · exact .inl (.inl ht)
          · exact .inr ht
          · exact .inl (.inr ⟨v, hv⟩)
      · rcases (hcarries v t).mp hv with ⟨_, rfl⟩ | hv
        · exact fun hin => hnew ((h.taken _).mpr (.inl hin))
        · exact h.ahead v t hv
      · by_cases huw : u = w <;> by_cases hvw : v = w
        · rw [huw, hvw]
        · rw [huw, hself] at hu
          rw [hother v hvw] at hv
          cases hu
          exact (hnew (h.held v _ hv)).elim
        · rw [hvw, hself] at hv
          rw [hother u huw] at hu
          cases hv
          exact (hnew (h.held u _ hu)).elim
        · rw [hother u huw] at hu
          rw [hother v hvw] at hv
          exact h.single u v t hu hv
      · change t ∈ s.taken ++ [e.ticket]
        by_cases hvw : v = w
        · rw [hvw, hself] at hv
          cases hv
          simp
        · rw [hother v hvw] at hv
          exact List.mem_append_left _ (h.held v t hv)
      · by_cases hvw : v = w
        · subst hvw
          have ht := hv.1
          rw [hself] at ht
          cases ht
          refine ⟨e.task, hcons.content e hmem, ?_⟩
          rw [hselfpc]
          cases hstart with
          | fiber f hf => exact hf
          | callback cb hf => exact hf
        · rw [hother v hvw] at hv ⊢
          exact h.task v t hv

/-- The switch turns the entry a worker carries into a resumption. -/
theorem Accounted.swapCtx {s : State n} (h : Accounted s) (hcons : Conserves s) {w : Fin n}
    {b : Branch} {f : FiberId} (hpc : (s.workers w).pc = .swapCtx b f) :
    Accounted ({ s with
      resumed := s.resumed ++ (s.workers w).held.toList.map fun t => (t, f) }.goto w
        (.running b f)) := by
  obtain ⟨t, ht⟩ : ∃ t, (s.workers w).held = some t := by
    refine Option.isSome_iff_exists.mp ?_
    rw [hcons.held w, hpc]
    rfl
  have hcarry : (s.workers w).carries t := ⟨ht, by rw [hpc]; rfl⟩
  obtain ⟨ft, hft, hfiber⟩ := h.task w t hcarry
  rw [ht]
  have hcarries : ∀ v u, ((Function.update s.workers w
      { s.workers w with pc := .running b f }) v).carries u ↔ (s.workers v).carries u ∧ v ≠ w := by
    intro v u
    by_cases hv : v = w
    · subst hv
      simp [Worker.carries, Pc.onWay]
    · simp [hv]
  have hheld : ∀ v, ((Function.update s.workers w
      { s.workers w with pc := .running b f }) v).held = (s.workers v).held := by
    intro v
    by_cases hv : v = w
    · subst hv
      simp
    · simp [Function.update_of_ne hv]
  have htickets : (s.resumed ++ [(t, f)]).map Prod.fst = s.resumedTickets ++ [t] := by
    simp [State.resumedTickets]
  refine ⟨fun u => ?_, ?_, fun v u hv => ?_, fun u v x hu hv => ?_, fun v u hv => ?_,
    fun v u hv => ?_, fun u g hu => ?_⟩
  · change u ∈ s.taken ↔ u ∈ (s.resumed ++ [(t, f)]).map Prod.fst ∨ ∃ v, _
    simp only [State.goto, setWorker_workers, hcarries]
    rw [h.taken u, htickets, List.mem_append, List.mem_singleton]
    constructor
    · rintro (hu | ⟨v, hv⟩)
      · exact .inl (.inl hu)
      · by_cases hvw : v = w
        · subst hvw
          have heq := hv.1
          rw [ht] at heq
          cases heq
          exact .inl (.inr rfl)
        · exact .inr ⟨v, hv, hvw⟩
    · rintro ((hu | rfl) | ⟨v, hv, _⟩)
      · exact .inl hu
      · exact .inr ⟨w, hcarry⟩
      · exact .inr ⟨v, hv⟩
  · change ((s.resumed ++ [(t, f)]).map Prod.fst).Nodup
    rw [htickets]
    exact List.nodup_append.mpr ⟨h.once, List.nodup_singleton t, fun x hx y hy => by
      rw [List.mem_singleton.mp hy]
      rintro rfl
      exact h.ahead w x hcarry hx⟩
  · change u ∉ (s.resumed ++ [(t, f)]).map Prod.fst
    rw [htickets, List.mem_append, List.mem_singleton]
    obtain ⟨hold, hvw⟩ := (hcarries v u).mp hv
    rintro (hu | rfl)
    · exact h.ahead v u hold hu
    · exact hvw (h.single v w u hold.1 ht)
  · exact h.single u v x ((hheld u).symm.trans hu) ((hheld v).symm.trans hv)
  · exact h.held v u ((hheld v).symm.trans hv)
  · obtain ⟨hold, hvw⟩ := (hcarries v u).mp hv
    obtain ⟨gt, hgt, hg⟩ := h.task v u hold
    refine ⟨gt, hgt, ?_⟩
    simp only [State.goto, setWorker_workers, Function.update_of_ne hvw]
    exact hg
  · rcases List.mem_append.mp hu with hu | hu
    · exact h.resumed u g hu
    · cases List.mem_singleton.mp hu
      refine ⟨ft, hft, ?_⟩
      rw [hpc] at hfiber
      cases b
      · exact .inr hfiber
      · exact .inl hfiber

/-! ## Steps -/

theorem Accounted.push {s : State n} (h : Accounted s) (fts : List FiberAndThread) :
    Accounted (s.push fts) := h.frame (fun _ => .refl _) (push_submitted s fts) rfl rfl

theorem Accounted.accessAt {s s' : State n} (h : Accounted s) (hs : Sound s) (hh : HandedOff s)
    {w : Fin n} (hr : s.accessAt w (s.workers w).pc = some (.ok s')) : Accounted s' := by
  have hhandled : ∀ f, (s.workers w).pc.fiber = some f →
      (s.workers w).pc.Allows (s.states f) (s.pending f) :=
    fun f hf => ((hh f).handles w).handled hf
  cases hpc : (s.workers w).pc <;> rw [hpc] at hr hhandled
  case scan =>
    obtain ⟨t, ht, hscan⟩ := scan_scans s w hs.conserves.queue_nonEmpty
    cases ht.symm.trans (Option.some.inj hr)
    exact h.scans hs.conserves hpc hscan
  case running b f => cases hr
  case idleCheck => cases hr
  case blocked => cases hr
  case exited => cases hr
  case deadDec f => exact (hhandled f rfl).elim
  -- a taken fiber has not ended, so its entry is not dropped
  case checkTerm f =>
    have hne : s.states f ≠ .term := by
      rcases (hhandled f rfl).2 with hx | hx | hx <;> rw [hx] <;> decide
    cases hr
    rw [if_neg hne]
    exact h.move rfl hpc (.inl rfl) rfl fun _ => rfl
  case checkExcept f =>
    have hne : s.states f ≠ .except := by
      rcases (hhandled f rfl).2 with hx | hx | hx <;> rw [hx] <;> decide
    cases hr
    rw [if_neg hne]
    exact h.move rfl hpc (.inl rfl) rfl fun _ => rfl
  case swapCtx b f =>
    cases hr
    exact h.swapCtx hs.conserves hpc
  case requeue b f =>
    cases hr
    rw [State.requeue, requeue_eq]
    exact (h.push [⟨some f, none, -1⟩]).move rfl hpc (.inl rfl) rfl (fun htask => by cases htask)
  case prepare cb =>
    obtain ⟨_, rfl⟩ | ⟨f, _, _, rfl⟩ := accessAt_prepare hr <;>
      exact h.move rfl hpc (.inl rfl) rfl fun _ => rfl
  case swapAssert b f =>
    obtain ⟨_, rfl⟩ := accessAt_swapAssert hr
    exact h.move rfl hpc (.inl rfl) rfl fun _ => rfl
  case recycle f =>
    obtain ⟨_, rfl⟩ := accessAt_recycle hr
    exact h.move rfl hpc (.inl rfl) rfl (fun htask => by cases htask)
  case noTask =>
    obtain ⟨_, rfl⟩ | ⟨_, rfl⟩ := accessAt_noTask hr <;>
      exact h.move rfl hpc (.inl rfl) rfl (fun htask => by cases htask)
  case woken pipe =>
    cases pipe <;> cases hr <;> exact h.move rfl hpc (.inl rfl) rfl (fun htask => by cases htask)
  case postReady b f | post1 b f | post2 b f =>
    cases hr
    refine h.move rfl hpc (.inl rfl) ?_ (fun htask => by cases htask)
    dsimp only
    split
    · cases b <;> rfl
    · rfl
  case decActive b f =>
    cases hr
    exact h.move rfl hpc (.inr ⟨rfl, rfl⟩) rfl (fun htask => by cases htask)
  case swapExec b f | prepareWrite cb f =>
    cases hr
    exact h.move rfl hpc (.inl rfl) rfl fun _ => rfl
  case yieldReady b f | swapOut b f | writeHold b f =>
    cases hr
    exact h.move rfl hpc (.inl rfl) rfl (fun htask => by cases htask)
  case recycleWrite f =>
    cases hr
    exact h.move rfl hpc (.inl rfl) rfl (fun htask => by cases htask)
  case idleDec =>
    cases hr
    exact h.move rfl hpc (.inl rfl) rfl (fun htask => by cases htask)

theorem Accounted.fiberOp {s s' : State n} (h : Accounted s) {w : Fin n} {b : Branch} {f : FiberId}
    (hpc : (s.workers w).pc = .running b f) {fop : FiberOp}
    (hr : s.fiberOp w b f fop = some (.ok s')) : Accounted s' := by
  unfold State.fiberOp at hr
  split at hr
  · cases hr
  · cases fop with
    | register =>
        cases hr
        exact h.frame (fun w => .refl _) (fun t ft hft => hft) rfl rfl
    | yieldToReady | yieldToHold =>
        simp only [State.runFiber, Option.some.injEq] at hr
        split at hr <;> cases hr
        exact h.move rfl hpc (.inl rfl) rfl (fun htask => by cases htask)
    | finish | throw =>
        cases hr
        exact h.move rfl hpc (.inl rfl) rfl (fun htask => by cases htask)

theorem Accounted.notifies {s t : State n} (h : Accounted s) (ht : Notifies s t) : Accounted t :=
  h.frame (fun w => by rw [ht.workers w]; exact ⟨.inl rfl, rfl, fun _ => rfl⟩)
    (fun _ _ hft => ht.submitted ▸ hft) ht.taken ht.resumed

theorem Accounted.call {s : State n} (h : Accounted s) (c : Call) : Accounted (s.call c).2 := by
  rw [call_eq]
  have hsettle : Accounted (s.settle c) := by
    cases c <;> exact h.frame (fun w => .refl _) (fun t ft hft => hft) rfl rfl
  exact hsettle.push c.tasks

/-! ## Every run -/

/-- The invariant of disciplined runs with what it rests on. -/
structure WokenOnce (s : State n) : Prop where
  sound : Sound s
  handedOff : HandedOff s
  accounted : Accounted s

theorem op_wokenOnce (s : State n) (a : Action n) (r : Except Fault (State n)) (h : WokenOnce s)
    (hd : Disciplined s a) (hr : op k s a = some r) : Holds WokenOnce (fun _ => False) r := by
  have hsound := op_sound s a r h.sound hr
  have hhanded := op_handedOff s a r h.sound h.handedOff hd hr
  cases r with
  | error e => exact hhanded
  | ok s' =>
      refine ⟨hsound, hhanded, ?_⟩
      cases op_acts hr with
      | call a c t ha hc ht => exact (h.accounted.call c).notifies ht
      | notify a t ht => exact h.accounted.notifies ht
      | access w r htickle hr => exact h.accounted.accessAt h.sound h.handedOff hr
      | fiber w b f fop r hpc hr => exact h.accounted.fiberOp hpc hr
      | idleCheck k w quiet hpc =>
          unfold State.idleCheck
          split
          · exact h.accounted.move rfl hpc (.inl rfl) rfl nofun
          · cases k <;> exact h.accounted.move rfl hpc (.inl rfl) rfl nofun
      | wake w pipe hpc => exact h.accounted.move rfl hpc (.inl rfl) rfl nofun

/-- What became of the wake-up `t` of fiber `f`: it is queued, on its way to `swapIn` at
one worker, or has led to one resumption of `f`. -/
inductive Fate (s : State n) (t : Nat) (f : FiberId) : Prop
  | queued (hqueue : t ∈ s.queue.map Entry.ticket) (hresumed : t ∉ s.resumedTickets)
      (hcarried : ∀ w, ¬ (s.workers w).carries t)
  | carried (w : Fin n) (hw : (s.workers w).carries t) (hfiber : (s.workers w).pc.fiber = some f)
      (hsingle : ∀ v, (s.workers v).carries t → v = w) (hqueue : t ∉ s.queue.map Entry.ticket)
      (hresumed : t ∉ s.resumedTickets)
  | resumed (hresumed : (t, f) ∈ s.resumed) (honce : s.resumedTickets.count t = 1)
      (hqueue : t ∉ s.queue.map Entry.ticket) (hcarried : ∀ w, ¬ (s.workers w).carries t)

theorem WokenOnce.fate {s : State n} (h : WokenOnce s) {t : Nat} {ft : FiberAndThread}
    {f : FiberId} (ht : s.submitted[t]? = some ft) (hf : ft.fiber = some f) : Fate s t f := by
  obtain ⟨hsound, _, hacc⟩ := h
  have hperm := hsound.conserves.tickets
  have hnodup := hperm.nodup_iff.mpr List.nodup_range
  obtain ⟨hlt, _⟩ := List.getElem?_eq_some_iff.mp ht
  rcases List.mem_append.mp (hperm.mem_iff.mpr (List.mem_range.mpr hlt)) with hin | hin
  · have hout : t ∉ s.taken := fun htaken => (List.nodup_append.mp hnodup).2.2 t hin t htaken rfl
    have hno := mt (hacc.taken t).mpr hout
    exact .queued hin (fun hr => hno (.inl hr)) (fun w hw => hno (.inr ⟨w, hw⟩))
  · have hqueue : t ∉ s.queue.map Entry.ticket := fun hq =>
      (List.nodup_append.mp hnodup).2.2 t hq t hin rfl
    rcases (hacc.taken t).mp hin with hr | ⟨w, hw⟩
    · obtain ⟨⟨u, g⟩, hmem, rfl⟩ := List.mem_map.mp hr
      obtain ⟨gt, hgt, hg⟩ := hacc.resumed u g hmem
      rw [ht] at hgt
      cases hgt
      rw [hf] at hg
      have hgf : f = g := by
        rcases hg with hg | hg <;> cases hg
        rfl
      subst hgf
      exact .resumed hmem (List.count_eq_one_of_mem hacc.once hr) hqueue
        fun w hw => hacc.ahead w u hw hr
    · obtain ⟨gt, hgt, hg⟩ := hacc.task w t hw
      rw [ht] at hgt
      cases hgt
      rw [hf] at hg
      refine .carried w hw ?_ (fun v hv => hacc.single v w t hv.1 hw.1) hqueue (hacc.ahead w t hw)
      have hway := hw.2
      revert hg hway
      cases hpc : (s.workers w).pc with
      | checkTerm g | checkExcept g => exact fun hg _ => hg.symm
      | swapAssert b g | swapExec b g | swapCtx b g =>
          cases b
          · exact fun hg _ => hg.symm
          · exact fun hg _ => by cases hg
      | _ => exact fun hg _ => by cases hg

/-- Suspend and resume: with one outstanding wake-up per fiber no assertion fails, a
fiber is owned by one worker from its take until it was moved out of `EXEC`, it is
taken only when it is owned by none, and every wake-up has one of three fates. -/
theorem wakeups_resume_once {r : Except Fault (State n)}
    (h : Reaches (step k) (onOk Disciplined) (.ok (.init n)) r) : ∃ s, r = .ok s ∧
      (∀ v w f, (s.workers v).owns f → (s.workers w).owns f → v = w) ∧
      (∀ w b f, (s.workers w).pc = .swapAssert b f → s.states f ≠ .exec) ∧
      (∀ w b f, (s.workers w).pc = .swapCtx b f →
        ∀ v, v ≠ w → (s.workers v).pc.fiber ≠ some f) ∧
      (∀ w cb f, (s.workers w).pc = .prepare cb → (s.workers w).cbFiber = some f →
        resettable (s.states f)) ∧
      (∀ w f, (s.workers w).pc = .recycle f → resettable (s.states f)) ∧
      (∀ f, s.pending f ≤ 1) ∧
      (∀ (t : Nat) (ft : FiberAndThread) (f : FiberId),
        s.submitted[t]? = some ft → ft.fiber = some f → Fate s t f) := by
  have hinv := h.invariant (preserves_abortable op_wokenOnce)
    (⟨sound_init n, handedOff_init n, accounted_init n⟩ : WokenOnce (.init n))
  cases r with
  | error e => exact hinv.elim
  | ok s =>
      have hw : WokenOnce s := hinv
      have hh := hw.handedOff
      refine ⟨s, rfl, fun v w f => (hh f).exclusive v w, fun w b f hpc => ?_,
        fun w b f hpc v hvw hv => ?_, fun w cb f hpc hcb => ?_, fun w f hpc => ?_,
        fun f => (hh f).pending, fun t ft f ht hf => hw.fate ht hf⟩
      · have hallows := ((hh f).handles w).handled (by rw [hpc]; rfl)
        rw [hpc] at hallows
        rcases hallows.2 with hx | hx | hx <;> rw [hx] <;> decide
      · exact hvw ((hh f).exclusive v w (.inl hv) (.inl (by rw [hpc]; rfl)))
      · exact .inr (.inr (((hh f).handles w).parked hcb (by rw [hpc]; nofun)).1)
      · have hallows := ((hh f).handles w).handled (by rw [hpc]; rfl)
        rw [hpc] at hallows
        rcases hallows.1 with hx | hx
        · exact .inl hx
        · exact .inr (.inl hx)

/-- A fiber is woken while it still runs, passed over by the other worker, and resumed there
once it is in `HOLD`. -/
def earlyWakeRun : List (Action 2) :=
  [.outside 0 (.newFiber (some 5)), .outside 0 (.schedule (.fiber (some 1)) (-1)),
    .worker 0, .worker 0, .worker 0, .worker 0, .worker 0, .worker 0,
    .fiber 0 .register, .outside 1 (.fire 1), .worker 1, .fiber 0 .yieldToHold,
    .worker 0, .worker 0, .worker 0, .worker 0, .worker 0, .worker 0,
    .worker 1, .idleCheck 1 true, .worker 1, .worker 1, .worker 1, .worker 1, .worker 1,
    .worker 1, .worker 1]

theorem wakeups_resume_once_sample :
    ∃ s, checkedRun (step .base) (fun s a => decide (onOk Disciplined s a)) (.ok (.init 2))
        earlyWakeRun = some (.ok s) ∧ s.resumed = [(0, 1), (1, 1)] ∧
      (s.workers 1).pc = .running .fiber 1 ∧ Fate s 1 1 := by
  have hrun : (checkedRun (step .base) (fun s a => decide (onOk Disciplined s a))
      (.ok (.init 2)) earlyWakeRun).any (okAnd fun s => decide (s.resumed = [(0, 1), (1, 1)] ∧
        (s.workers 1).pc = .running .fiber 1 ∧ s.submitted[1]? = some ⟨some 1, none, -1⟩)) := by
    decide
  obtain ⟨s, hr, hresumed, hpc, hentry⟩ := exists_ok_of_any hrun
  obtain ⟨s', heq, _, _, _, _, _, _, hfate⟩ := wakeups_resume_once (.of_decidedRun hr)
  cases heq
  exact ⟨s, hr, hresumed, hpc, hfate 1 _ 1 hentry rfl⟩

end Sylar.Scheduler
