import Sylar.Hook.Wait

/-! # Timeouts that are not lost

While the fiber waits in `YieldToHold`, its timeout is still to come: the timer is in the
set, or a callback was handed out. The callback that runs before `addEvent` finds no event to
cancel; what keeps the timeout is that no fiber registers its event after that.
-/

namespace Sylar.Timeout

open Transition Epoll Timers

variable {n : Nat} {s t : State n}

/-! ## What the timeout hangs on -/

/-- The condition timer is in `m_timers`, or its callback was handed out and has not finished. -/
def State.Outstanding (s : State n) (call : Call) : Prop :=
  (∃ a, call.timer = some a ∧ a ∈ s.timers.timers) ∨ ∃ job ∈ s.jobs, job.closure = call.closure

/-- One of these will wake the fiber without a report. -/
def State.TimeoutKept (s : State n) (f : Fin n) (call : Call) : Prop :=
  s.Outstanding call ∨ 0 < s.queued f

/-- A callback of the call has found `cancelled` unset and not yet called `cancelEvent`. -/
def State.Committed (s : State n) (tinfo : Nat) : Prop :=
  ∃ job ∈ s.jobs, job.closure.tinfo = tinfo ∧ (job.pc = .set ∨ job.pc = .cancel)

instance (s : State n) (tinfo : Nat) : Decidable (s.Committed tinfo) :=
  inferInstanceAs (Decidable (∃ job ∈ s.jobs, _ ∧ (_ ∨ _)))

/-! ## The defect -/

/-- The timer expires and its callback runs between `addConditionTimer` and `addEvent`. -/
def earlyRun : List (Action 2) :=
  [.begin 0 (.doIo false) 5 10, .fiber 0 (.issue true), .fiber 0 (.arm 0 7), .expire 10 8,
    .job ⟨⟨1, 5, .read⟩, .lock⟩ true, .job ⟨⟨1, 5, .read⟩, .test⟩ true,
    .job ⟨⟨1, 5, .read⟩, .set⟩ true, .job ⟨⟨1, 5, .read⟩, .cancel⟩ true,
    .fiber 0 (.register true), .fiber 0 .yield]

/-- The timer is gone, its callback has run, and only a report can wake the fiber. -/
theorem early_timeout_lost :
    ∃ (s : State 2) (call : Call), Reaches step Free (.ok (.init 2 0)) (.ok s) ∧
      s.calls 0 = some call ∧ call.pc = .suspended ∧ call.timeout = 10 ∧
      s.iom.fiberAt call.fd call.event = some 0 ∧ ¬ s.TimeoutKept 0 call := by
  have hrun : (run step (.ok (.init 2 0)) earlyRun).any (okAnd fun s =>
      decide (((s.calls 0).any fun call => decide (call.pc = .suspended ∧ call.timeout = 10 ∧
          s.iom.fiberAt call.fd call.event = some 0)) = true ∧
        s.timers.timers = [] ∧ s.jobs = [] ∧ s.queued 0 = 0)) := by decide
  obtain ⟨s, hr, hcall, htimers, hjobs, hqueued⟩ := exists_ok_of_any hrun
  obtain ⟨call, hcall, hpc, htimeout, hwaits⟩ := exists_some_of_any hcall
  refine ⟨s, call, .of_run hr, hcall, hpc, htimeout, hwaits, fun hkept => ?_⟩
  rcases hkept with (⟨a, -, ha⟩ | ⟨job, hjob, -⟩) | hpos
  · rw [htimers] at ha
    exact List.not_mem_nil ha
  · rw [hjobs] at hjob
    exact List.not_mem_nil hjob
  · exact hpos.ne' hqueued

/-! ## Runs that keep it -/

/-- Where `addEvent` is called with `cancelled` set, a callback still has its `cancelEvent` to
come; and `epoll_ctl` grants the `cancelEvent` of a callback whose fiber waits. -/
def Answered (s : State n) : Action n → Prop
  | .fiber f (.register _) =>
      ∀ call ∈ s.calls f, s.cancelled call.tinfo = true → s.Committed call.tinfo
  | .job job granted =>
      job.pc = .cancel → granted = false → ∀ f, (s.calls f).map Call.closure = some job.closure →
        s.iom.fiberAt job.closure.fd job.closure.event ≠ some (f : Nat)
  | _ => True

instance (s : State n) : (a : Action n) → Decidable (Answered s a)
  | .fiber _ (.register _) => inferInstanceAs (Decidable (∀ call ∈ _, _ → s.Committed _))
  | .fiber _ (.issue _) => isTrue trivial
  | .fiber _ (.arm _ _) => isTrue trivial
  | .fiber _ .yield => isTrue trivial
  | .fiber _ .resume => isTrue trivial
  | .fiber _ .cancelTimer => isTrue trivial
  | .fiber _ .test => isTrue trivial
  | .job _ _ => inferInstanceAs (Decidable (_ → _ → ∀ _, _ → _ ≠ _))
  | .begin _ _ _ _ => isTrue trivial
  | .expire _ _ => isTrue trivial
  | .dispatch _ _ _ => isTrue trivial
  | .cancelAll _ _ => isTrue trivial
  | .addTimer _ _ _ _ => isTrue trivial

/-- The timeout has not struck and is still to come, or its `cancelEvent` is. -/
def State.Due (s : State n) (call : Call) : Prop :=
  s.Committed call.tinfo ∨
    s.cancelled call.tinfo = false ∧ (call.timeout ≠ noTimeout → s.Outstanding call)

/-- What holds of a fiber from `addConditionTimer` until it is resumed. -/
def State.Waits (s : State n) (f : Fin n) (call : Call) : Prop :=
  match call.pc with
  | .register => s.cancelled call.tinfo = true ∨ s.Due call
  | .yield | .suspended =>
      0 < s.queued f ∨ s.iom.fiberAt call.fd call.event = some (f : Nat) ∧ s.Due call
  | .issue | .arm | .failed | .resumed | .test => True

/-- No later call can be taken for the one that made the closure. -/
def State.Captured (s : State n) (closure : Closure) : Prop :=
  closure.tinfo ≤ s.lastInfo ∧
    ∀ f call, s.calls f = some call → call.tinfo = closure.tinfo → call.closure = closure

def State.Owns (s : State n) (call : Call) (a : Addr) : Prop :=
  s.timers.issued a = true ∧
    ∀ cb, (s.timers.heap a).cb = some cb → s.closures cb = some call.closure

/-- Calls, timers and callbacks belong together. -/
structure Sound (s : State n) : Prop where
  bookkept : Bookkept s.iom
  timers : Represents s.timers
  cbs : ∀ a cb, (s.timers.heap a).cb = some cb → cb ≤ s.lastCb
  infos : ∀ f call, s.calls f = some call → call.tinfo ≤ s.lastInfo
  own : ∀ f g call other, s.calls f = some call → s.calls g = some other →
    call.tinfo = other.tinfo → f = g
  timer : ∀ f call a, s.calls f = some call → call.timer = some a → s.Owns call a
  closures : ∀ cb closure, s.closures cb = some closure → s.Captured closure
  jobs : ∀ job ∈ s.jobs, s.Captured job.closure
  struck : ∀ job ∈ s.jobs, job.pc = .cancel → s.cancelled job.closure.tinfo = true

def Waiting (s : State n) : Prop := ∀ f call, s.calls f = some call → s.Waits f call

theorem sound_init (now : Nat) : Sound (.init n now) where
  bookkept := bookkept_init
  timers := represents_init now
  cbs := fun a cb hcb => by cases hcb
  infos := fun f call hcall => by cases hcall
  own := fun f g call other hcall => by cases hcall
  timer := fun f call a hcall => by cases hcall
  closures := fun cb closure hclosure => by cases hclosure
  jobs := fun job hjob => absurd hjob List.not_mem_nil
  struck := fun job hjob => absurd hjob List.not_mem_nil

/-! ## Frames -/

/-- From `s` to `t` nothing is lost that the fiber waits for. -/
structure Keeps (s t : State n) (f : Fin n) (call : Call) : Prop where
  queued : 0 < s.queued f → 0 < t.queued f
  event : s.iom.fiberAt call.fd call.event = some (f : Nat) →
    0 < t.queued f ∨ t.iom.fiberAt call.fd call.event = some (f : Nat)
  cancelled : t.cancelled call.tinfo = s.cancelled call.tinfo
  outstanding : s.cancelled call.tinfo = false → s.Outstanding call → t.Outstanding call
  committed : s.Committed call.tinfo → t.Committed call.tinfo

theorem Keeps.due {f : Fin n} {call : Call} (h : Keeps s t f call) (hdue : s.Due call) :
    t.Due call := by
  rcases hdue with hcommitted | ⟨hunset, hout⟩
  · exact .inl (h.committed hcommitted)
  · exact .inr ⟨h.cancelled.trans hunset, fun hfinite => h.outstanding hunset (hout hfinite)⟩

theorem Keeps.waits {f : Fin n} {call : Call} (h : Keeps s t f call) (hw : s.Waits f call) :
    t.Waits f call := by
  unfold State.Waits at hw ⊢
  split at hw
  · rcases hw with hset | hdue
    · exact .inl (h.cancelled.trans hset)
    · exact .inr (h.due hdue)
  · rcases hw with hpos | ⟨hevent, hdue⟩
    · exact .inl (h.queued hpos)
    · exact (h.event hevent).imp_right fun hevent => ⟨hevent, h.due hdue⟩
  · rcases hw with hpos | ⟨hevent, hdue⟩
    · exact .inl (h.queued hpos)
    · exact (h.event hevent).imp_right fun hevent => ⟨hevent, h.due hdue⟩
  all_goals trivial

/-- What the fiber waits for depends on nothing else. -/
theorem Keeps.of_eq {f : Fin n} {call : Call} (hiom : t.iom = s.iom)
    (htimers : t.timers.timers = s.timers.timers) (hjobs : t.jobs = s.jobs)
    (hcancelled : t.cancelled call.tinfo = s.cancelled call.tinfo)
    (hqueued : t.queued f = s.queued f) : Keeps s t f call where
  queued := fun hpos => hqueued ▸ hpos
  event := fun hevent => .inr (by rw [hiom]; exact hevent)
  cancelled := hcancelled
  outstanding := fun _ hout => by
    unfold State.Outstanding
    rw [htimers, hjobs]
    exact hout
  committed := fun hcommitted => by
    unfold State.Committed
    rw [hjobs]
    exact hcommitted

theorem calls_update {calls : Fin n → Option Call} {f g : Fin n} {x : Option Call} {call : Call}
    (h : Function.update calls f x g = some call) :
    g = f ∧ x = some call ∨ g ≠ f ∧ calls g = some call := by
  by_cases hg : g = f
  · subst hg
    rw [Function.update_self] at h
    exact .inl ⟨rfl, h⟩
  · rw [Function.update_of_ne hg] at h
    exact .inr ⟨hg, h⟩

theorem Sound.recall (h : Sound s) {calls : Fin n → Option Call}
    (hfrom : ∀ g call', calls g = some call' → ∃ call, s.calls g = some call ∧
      call'.closure = call.closure ∧ ∀ a, call'.timer = some a → s.Owns call' a) :
    Sound { s with calls := calls } := by
  have hinfo : ∀ {call call' : Call}, call'.closure = call.closure → call'.tinfo = call.tinfo :=
    fun hclosure => congrArg Closure.tinfo hclosure
  have hcaptured : ∀ {closure : Closure}, s.Captured closure →
      State.Captured { s with calls := calls } closure := by
    intro closure hcaptured
    refine ⟨hcaptured.1, fun f call' hcall' htinfo => ?_⟩
    obtain ⟨call, hcall, hclosure, -⟩ := hfrom f call' hcall'
    rw [hclosure]
    exact hcaptured.2 f call hcall ((hinfo hclosure).symm.trans htinfo)
  refine { h with
    infos := fun f call' hcall' => ?_
    own := fun f g call' other' hcall' hother' htinfo => ?_
    timer := fun f call' a hcall' htimer' => ?_
    closures := fun cb closure hclosure => hcaptured (h.closures cb closure hclosure)
    jobs := fun job hjob => hcaptured (h.jobs job hjob) }
  · obtain ⟨call, hcall, hclosure, -⟩ := hfrom f call' hcall'
    rw [hinfo hclosure]
    exact h.infos f call hcall
  · obtain ⟨call, hcall, hclosure, -⟩ := hfrom f call' hcall'
    obtain ⟨other, hother, hclosure', -⟩ := hfrom g other' hother'
    rw [hinfo hclosure, hinfo hclosure'] at htinfo
    exact h.own f g call other hcall hother htinfo
  · obtain ⟨call, -, -, howns⟩ := hfrom f call' hcall'
    exact howns a htimer'

theorem Sound.at (h : Sound s) {f : Fin n} {call : Call} (hcall : s.calls f = some call)
    (pc : CallPc) : Sound (s.at f call pc) := by
  refine h.recall fun g call' hcall' => ?_
  rcases calls_update hcall' with ⟨rfl, hx⟩ | ⟨-, hcall'⟩
  · cases hx
    exact ⟨call, hcall, rfl, fun a ha => h.timer g call a hcall ha⟩
  · exact ⟨call', hcall', rfl, fun a ha => h.timer g call' a hcall' ha⟩

theorem Sound.finish (h : Sound s) (f : Fin n) : Sound (s.become f none) := by
  refine h.recall fun g call' hcall' => ?_
  rcases calls_update hcall' with ⟨-, hx⟩ | ⟨-, hcall'⟩
  · cases hx
  · exact ⟨call', hcall', rfl, fun a ha => h.timer g call' a hcall' ha⟩

/-- A step of the fiber `f` that takes nothing from the others. -/
theorem Waiting.become (hw : Waiting s) {f : Fin n} {x : Option Call}
    (hcalls : t.calls = Function.update s.calls f x)
    (hothers : ∀ g call, g ≠ f → s.calls g = some call → Keeps s t g call)
    (hself : ∀ call, x = some call → t.Waits f call) : Waiting t := by
  intro g call hcall
  rw [hcalls] at hcall
  rcases calls_update hcall with ⟨rfl, hx⟩ | ⟨hg, hcall⟩
  · exact hself call hx
  · exact (hothers g call hg hcall).waits (hw g call hcall)

/-- A step that takes nothing from any fiber. -/
theorem Waiting.keep (hw : Waiting s) (hcalls : t.calls = s.calls)
    (hkeeps : ∀ f call, s.calls f = some call → Keeps s t f call) : Waiting t := by
  intro f call hcall
  rw [hcalls] at hcall
  exact (hkeeps f call hcall).waits (hw f call hcall)

/-! ## The fiber -/

structure Inv (s : State n) : Prop where
  sound : Sound s
  waiting : Waiting s

theorem inv_init (now : Nat) : Inv (.init n now) :=
  ⟨sound_init now, fun f call hcall => by cases hcall⟩

theorem Inv.begin (h : Inv s) (f : Fin n) (routine : Routine) (fd timeout : Nat) :
    Inv (s.begin f routine fd timeout) := by
  have hsound := h.sound
  have hcaptured : ∀ {closure : Closure}, s.Captured closure →
      (s.begin f routine fd timeout).Captured closure := by
    intro closure hcaptured
    refine ⟨Nat.le_succ_of_le hcaptured.1, fun g call hcall htinfo => ?_⟩
    rcases calls_update hcall with ⟨-, hx⟩ | ⟨-, hcall⟩
    · cases hx
      exact absurd (htinfo.trans_le hcaptured.1) (Nat.not_succ_le_self _)
    · exact hcaptured.2 g call hcall htinfo
  have hold : ∀ {tinfo : Nat}, tinfo ≤ s.lastInfo →
      (s.begin f routine fd timeout).cancelled tinfo = s.cancelled tinfo := by
    intro tinfo hle
    exact Function.update_of_ne (Nat.lt_succ_of_le hle).ne _ _
  refine ⟨{ hsound with
    infos := fun g call hcall => ?_
    own := fun g k call other hcall hother htinfo => ?_
    timer := fun g call a hcall htimer => ?_
    closures := fun cb closure hclosure => hcaptured (hsound.closures cb closure hclosure)
    jobs := fun job hjob => hcaptured (hsound.jobs job hjob)
    struck := fun job hjob hpc => ?_ }, h.waiting.become rfl (fun g call _ hcall => ?_) ?_⟩
  · rcases calls_update hcall with ⟨-, hx⟩ | ⟨-, hcall⟩
    · cases hx
      exact Nat.le_refl _
    · exact Nat.le_succ_of_le (hsound.infos g call hcall)
  · rcases calls_update hcall with ⟨hg, hx⟩ | ⟨-, hcall⟩ <;>
      rcases calls_update hother with ⟨hk, hy⟩ | ⟨-, hother⟩
    · exact hg.trans hk.symm
    · cases hx
      exact absurd (htinfo.trans_le (hsound.infos k other hother)) (Nat.not_succ_le_self _)
    · cases hy
      exact absurd (htinfo.symm.trans_le (hsound.infos g call hcall)) (Nat.not_succ_le_self _)
    · exact hsound.own g k call other hcall hother htinfo
  · rcases calls_update hcall with ⟨-, hx⟩ | ⟨-, hcall⟩
    · cases hx
      cases htimer
    · exact hsound.timer g call a hcall htimer
  · rw [hold (hsound.jobs job hjob).1]
    exact hsound.struck job hjob hpc
  · exact .of_eq rfl rfl rfl (hold (hsound.infos g call hcall)) rfl
  · intro call hx
    cases hx
    trivial

theorem Inv.at (h : Inv s) {f : Fin n} {call : Call} (hcall : s.calls f = some call) {pc : CallPc}
    (hself : s.Waits f { call with pc := pc }) : Inv (s.at f call pc) :=
  ⟨h.sound.at hcall pc, h.waiting.become rfl (fun _ _ _ _ => .of_eq rfl rfl rfl rfl rfl)
    fun _ hx => Option.some.inj hx ▸ hself⟩

theorem Inv.finish (h : Inv s) (f : Fin n) : Inv (s.become f none) :=
  ⟨h.sound.finish f, h.waiting.become rfl (fun _ _ _ _ => .of_eq rfl rfl rfl rfl rfl)
    fun _ hx => by cases hx⟩

theorem Sound.addTimer (h : Sound s) (now ms : Nat) {a : Addr} (recurring : Bool)
    (ha : s.timers.issued a = false) {closure : Option Closure}
    (hclosure : ∀ c, closure = some c → s.Captured c) :
    Sound { s with
      timers := (s.timers.addTimer now a ms (some (s.lastCb + 1)) recurring).2
      closures := Function.update s.closures (s.lastCb + 1) closure
      lastCb := s.lastCb + 1 } := by
  obtain ⟨hrep, hheap, -⟩ := h.timers.addTimer ha now ms (s.lastCb + 1) recurring
  refine { h with
    timers := hrep
    cbs := fun b cb hcb => ?_
    timer := fun f call b hcall htimer => ?_
    closures := fun cb c hc => ?_ }
  · rw [hheap] at hcb
    by_cases hb : b = a
    · rw [hb, Function.update_self] at hcb
      exact (Option.some.inj hcb).ge
    · rw [Function.update_of_ne hb] at hcb
      exact Nat.le_succ_of_le (h.cbs b cb hcb)
  · obtain ⟨hissued, howned⟩ := h.timer f call b hcall htimer
    have hb : b ≠ a := by
      rintro rfl
      rw [ha] at hissued
      cases hissued
    refine ⟨(Function.update_of_ne hb _ _).trans hissued, fun cb hcb => ?_⟩
    rw [hheap, Function.update_of_ne hb] at hcb
    exact (Function.update_of_ne (Nat.lt_succ_of_le (h.cbs b cb hcb)).ne _ _).trans (howned cb hcb)
  · by_cases hcb : cb = s.lastCb + 1
    · subst hcb
      exact hclosure c ((Function.update_self (s.lastCb + 1) closure s.closures).symm.trans hc)
    · exact h.closures cb c ((Function.update_of_ne hcb _ _).symm.trans hc)

theorem Keeps.addTimer {f : Fin n} {call : Call} (htimers : ∀ a ∈ s.timers.timers,
    a ∈ t.timers.timers) (hiom : t.iom = s.iom) (hjobs : t.jobs = s.jobs)
    (hcancelled : t.cancelled = s.cancelled) (hqueued : t.queued = s.queued) :
    Keeps s t f call where
  queued := fun hpos => hqueued ▸ hpos
  event := fun hevent => .inr (hiom ▸ hevent)
  cancelled := congrFun hcancelled _
  outstanding := fun _ hout => by
    rcases hout with ⟨a, htimer, ha⟩ | hjob
    · exact .inl ⟨a, htimer, htimers a ha⟩
    · exact .inr (hjobs ▸ hjob)
  committed := fun hcommitted => by
    unfold State.Committed
    rw [hjobs]
    exact hcommitted

theorem Sound.captured (h : Sound s) {f : Fin n} {call : Call} (hcall : s.calls f = some call) :
    s.Captured call.closure := by
  refine ⟨h.infos f call hcall, fun g other hother htinfo => ?_⟩
  have hg : g = f := h.own g f other call hother hcall htinfo
  subst hg
  cases hcall.symm.trans hother
  rfl

theorem Inv.arm (h : Inv s) {f : Fin n} {call : Call} (hcall : s.calls f = some call) {now : Nat}
    {a : Addr} (ht : s.arm f call now a = some t) : Inv t := by
  unfold State.arm at ht
  split at ht
  · rename_i hnone
    cases ht
    refine ⟨h.sound.recall fun g call' hcall' => ?_,
      h.waiting.become rfl (fun _ _ _ _ => .of_eq rfl rfl rfl rfl rfl) fun call' hx => ?_⟩
    · rcases calls_update hcall' with ⟨rfl, hx⟩ | ⟨-, hcall'⟩
      · cases hx
        exact ⟨call, hcall, rfl, fun a ha => by cases ha⟩
      · exact ⟨call', hcall', rfl, fun a ha => h.sound.timer g call' a hcall' ha⟩
    · cases hx
      -- without a timeout there is nothing to keep
      cases hset : s.cancelled call.tinfo with
      | true => exact .inl hset
      | false => exact .inr (.inr ⟨hset, fun hfinite => (hfinite hnone).elim⟩)
  · split at ht
    · cases ht
    · rename_i ha
      have ha := Bool.eq_false_of_not_eq_true ha
      cases ht
      obtain ⟨-, hheap, hmem⟩ :=
        h.sound.timers.addTimer ha now call.timeout (s.lastCb + 1) false
      have hsound := h.sound.addTimer now call.timeout false ha
        fun c hc => Option.some.inj hc ▸ h.sound.captured hcall
      refine ⟨hsound.recall fun g call' hcall' => ?_,
        h.waiting.become rfl (fun g other _ _ => .addTimer (fun b hb => (hmem b).mpr (.inr hb))
          rfl rfl rfl rfl) fun call' hx => ?_⟩
      · rcases calls_update hcall' with ⟨rfl, hx⟩ | ⟨-, hcall'⟩
        · cases hx
          refine ⟨call, hcall, rfl, fun b hb => ?_⟩
          cases hb
          refine ⟨Function.update_self _ _ _, fun cb hcb => ?_⟩
          rw [hheap, Function.update_self] at hcb
          cases hcb
          exact Function.update_self _ _ _
        · exact ⟨call', hcall', rfl, fun b hb => hsound.timer g call' b hcall' hb⟩
      · cases hx
        -- the timer is in the set, so its timeout is still to come
        cases hset : s.cancelled call.tinfo with
        | true => exact .inl hset
        | false => exact .inr (.inr ⟨hset, fun _ => .inl ⟨a, rfl, (hmem a).mpr (.inl rfl)⟩⟩)

theorem event_ne_none (call : Call) : call.event ≠ .none := by
  unfold Call.event Routine.event
  split
  · split <;> decide
  · decide

/-- The guard keeps a fiber whose timeout has struck from waiting for its event alone. -/
theorem Inv.register (h : Inv s) {f : Fin n} {call : Call} (hcall : s.calls f = some call)
    (hpc : call.pc = .register) {granted : Bool}
    (hanswered : s.cancelled call.tinfo = true → s.Committed call.tinfo)
    (ht : s.register f call granted = .ok t) : Inv t := by
  unfold State.register at ht
  split at ht
  · cases ht
  · rename_i r hr
    cases ht
    have hevent := event_ne_none call
    have hbook := h.sound.bookkept
    obtain ⟨hkeeps, hself⟩ := Coherent.addEvent_keeps hbook.contexts hevent hr
    have hsound : Sound { s with iom := r.2 } :=
      { h.sound with bookkept := hbook.addEvent_returns ⟨rfl, rfl⟩ hevent hr }
    have hwaits := h.waiting f call hcall
    unfold State.Waits at hwaits
    simp only [hpc] at hwaits
    refine ⟨hsound.at hcall _, h.waiting.become rfl (fun g other _ _ =>
      ⟨id, fun hother => .inr (hkeeps _ _ _ hother), rfl, fun _ => id, id⟩) fun call' hx => ?_⟩
    cases hx
    by_cases hrt : r.1 = 0
    · have hdue : s.Due call := hwaits.elim (fun hset => .inl (hanswered hset)) id
      rw [if_pos hrt]
      exact .inr ⟨hself hrt, hdue⟩
    · rw [if_neg hrt]
      trivial

theorem Inv.resume (h : Inv s) {f : Fin n} {call : Call} (hcall : s.calls f = some call) :
    Inv ({ s with queued := Function.update s.queued f (s.queued f - 1) }.at f call .resumed) := by
  have hsound : Sound { s with queued := Function.update s.queued f (s.queued f - 1) } :=
    { h.sound with }
  refine ⟨hsound.at hcall _, h.waiting.become rfl (fun g other hg _ =>
    .of_eq rfl rfl rfl rfl (Function.update_of_ne hg _ _)) fun call' hx => ?_⟩
  cases hx
  trivial

theorem Sound.timer_own (h : Sound s) {f g : Fin n} {call other : Call} {a : Addr}
    (hcall : s.calls f = some call) (hother : s.calls g = some other)
    (hf : call.timer = some a) (hg : other.timer = some a) (ha : a ∈ s.timers.timers) : f = g := by
  obtain ⟨cb, hcb⟩ := Option.ne_none_iff_exists'.mp ((h.timers.pending a).mp ha).2
  have hclosure := (h.timer f call a hcall hf).2 cb hcb
  rw [(h.timer g other a hother hg).2 cb hcb] at hclosure
  exact h.own f g call other hcall hother (congrArg Closure.tinfo (Option.some.inj hclosure)).symm

theorem Inv.dropTimer (h : Inv s) {f : Fin n} {call : Call} (hcall : s.calls f = some call)
    (hself : ∀ t : State n, t.Waits f call) {a : Addr} (htimer : call.timer = some a)
    {r : Bool × TimerManager} (hr : s.timers.cancel a = .ok r) :
    Inv { s with timers := r.2 } := by
  obtain ⟨hout, hin⟩ := h.sound.timers.cancel (h.sound.timer f call a hcall htimer).1
  by_cases ha : a ∈ s.timers.timers
  · obtain ⟨m, hm, hrep, hheap, htimers, hissued, -, -⟩ := hin ha
    cases hm.symm.trans hr
    have hcb : ∀ b cb, (m.heap b).cb = some cb → (s.timers.heap b).cb = some cb := by
      intro b cb hcb
      rw [hheap] at hcb
      by_cases hb : b = a
      · rw [hb, Function.update_self] at hcb
        cases hcb
      · rwa [Function.update_of_ne hb] at hcb
    refine ⟨{ h.sound with
      timers := hrep
      cbs := fun b cb hb => h.sound.cbs b cb (hcb b cb hb)
      timer := fun g other b hother hb => ?_ }, fun g other hother => ?_⟩
    · obtain ⟨hown, howned⟩ := h.sound.timer g other b hother hb
      exact ⟨hissued ▸ hown, fun cb hb => howned cb (hcb b cb hb)⟩
    · by_cases hg : g = f
      · subst hg
        cases hcall.symm.trans hother
        exact hself _
      · have hkeeps : Keeps s { s with timers := m } g other := by
          refine ⟨id, .inr, rfl, fun _ hwaits => ?_, id⟩
          rcases hwaits with ⟨b, hb, hpending⟩ | hjob
          · refine .inl ⟨b, hb, ?_⟩
            have hne : b ≠ a := by
              rintro rfl
              exact hg (h.sound.timer_own hother hcall hb htimer hpending)
            rw [htimers]
            exact h.sound.timers.mem_erase.mpr ⟨hpending, hne⟩
          · exact .inr hjob
        exact hkeeps.waits (h.waiting g other hother)
  · cases (hout ha).symm.trans hr
    exact h

theorem Inv.cancelTimer (h : Inv s) {f : Fin n} {call : Call} (hcall : s.calls f = some call)
    (hpc : call.pc = .failed ∨ call.pc = .resumed) (ht : s.cancelTimer f call = .ok t) : Inv t := by
  have hself : ∀ t : State n, t.Waits f call := by
    intro t
    unfold State.Waits
    rcases hpc with hpc | hpc <;> rw [hpc] <;> trivial
  have hnext : ∀ u : State n, Inv u → u.calls f = some call →
      Inv (if call.pc = .failed then u.become f none else u.at f call .test) := by
    intro u hu hucall
    split
    · exact hu.finish f
    · exact hu.at hucall trivial
  unfold State.cancelTimer at ht
  dsimp only at ht
  split at ht
  · cases ht
    exact hnext s h hcall
  · rename_i a htimer
    split at ht <;> cases ht
    rename_i r hr
    exact hnext _ (h.dropTimer hcall hself htimer hr) hcall

theorem Inv.test (h : Inv s) {f : Fin n} {call : Call} (hcall : s.calls f = some call) :
    Inv (s.test f call) := by
  unfold State.test
  split
  · exact h.finish f
  · exact h.at hcall trivial

theorem Inv.access (h : Inv s) {f : Fin n} {call : Call} (hcall : s.calls f = some call)
    {access : Access} (hanswered : Answered s (.fiber f access))
    {r : Except Failed (State n)} (hr : s.access f call access = some r) :
    Holds Inv (fun _ => True) r := by
  have hmap : ∀ {x : Except Failed (State n)}, (∀ u, x = .ok u → Inv u) →
      Holds Inv (fun _ => True) x := by
    intro x hx
    cases x with
    | error e => trivial
    | ok u => exact hx u rfl
  cases access with
  | issue again =>
      simp only [State.access] at hr
      split at hr <;> cases hr
      cases again
      · exact h.finish f
      · exact h.at hcall trivial
  | arm now a =>
      simp only [State.access] at hr
      split at hr
      · obtain ⟨u, hu, rfl⟩ := Option.map_eq_some_iff.mp hr
        exact h.arm hcall hu
      · cases hr
  | register granted =>
      simp only [State.access] at hr
      split at hr <;> cases hr
      rename_i hpc
      exact hmap fun u hu => h.register hcall hpc (hanswered call hcall) hu
  | yield =>
      simp only [State.access] at hr
      split at hr <;> cases hr
      rename_i hpc
      refine h.at hcall ?_
      have hwaits := h.waiting f call hcall
      unfold State.Waits at hwaits
      rw [hpc] at hwaits
      exact hwaits
  | resume =>
      simp only [State.access] at hr
      split at hr <;> cases hr
      exact h.resume hcall
  | cancelTimer =>
      simp only [State.access] at hr
      split at hr <;> cases hr
      rename_i hpc
      exact hmap fun u hu => h.cancelTimer hcall hpc hu
  | test =>
      simp only [State.access] at hr
      split at hr <;> cases hr
      exact h.test hcall

/-! ## The other workers -/

theorem afterEvents_queued {iom : IOManager} {new : List Scheduled}
    (hnew : iom.scheduled = s.iom.scheduled ++ new) (f : Fin n) :
    (s.afterEvents iom).queued f =
      s.queued f + new.countP fun x => decide (x.task.fiber = some (f : Nat)) := by
  rw [State.afterEvents, hnew, List.drop_left]

theorem afterEvents_pos {iom : IOManager} {new : List Scheduled}
    (hnew : iom.scheduled = s.iom.scheduled ++ new) {f : Fin n}
    (hf : ∃ x ∈ new, x.task.fiber = some (f : Nat)) : 0 < (s.afterEvents iom).queued f := by
  obtain ⟨x, hx, hfiber⟩ := hf
  have hcount : 0 < new.countP fun x => decide (x.task.fiber = some (f : Nat)) :=
    List.countP_pos_iff.mpr ⟨x, hx, decide_eq_true hfiber⟩
  rw [afterEvents_queued hnew]
  omega

theorem Keeps.afterEvents {iom : IOManager} (hkeeps : KeepsWaiters s.iom iom) (f : Fin n)
    (call : Call) : Keeps s (s.afterEvents iom) f call := by
  obtain ⟨new, hnew, hfrom⟩ := hkeeps
  refine ⟨fun hpos => ?_, fun hevent => ?_, rfl, fun _ => id, id⟩
  · rw [afterEvents_queued hnew]
    omega
  · exact (hfrom _ _ _ hevent).symm.imp_left (afterEvents_pos hnew)

theorem Sound.afterEvents (h : Sound s) {iom : IOManager} (hbook : Bookkept iom) :
    Sound (s.afterEvents iom) := { h with bookkept := hbook }

theorem Inv.afterEvents (h : Inv s) {iom : IOManager} (hbook : Bookkept iom)
    (hkeeps : KeepsWaiters s.iom iom) : Inv (s.afterEvents iom) :=
  ⟨h.sound.afterEvents hbook, h.waiting.keep rfl fun f call _ => .afterEvents hkeeps f call⟩

theorem Inv.addTimer (h : Inv s) {now ms : Nat} {a : Addr} {recurring : Bool}
    (ha : s.timers.issued a = false) :
    Inv { s with
      timers := (s.timers.addTimer now a ms (some (s.lastCb + 1)) recurring).2
      closures := Function.update s.closures (s.lastCb + 1) none
      lastCb := s.lastCb + 1 } := by
  obtain ⟨-, -, hmem⟩ := h.sound.timers.addTimer ha now ms (s.lastCb + 1) recurring
  exact ⟨h.sound.addTimer now ms recurring ha fun c hc => (by cases hc),
    h.waiting.keep rfl fun f call _ => .addTimer (fun b hb => (hmem b).mpr (.inr hb))
      rfl rfl rfl rfl⟩

theorem Inv.handOut (h : Inv s) {expired : List Addr} {cbs : List (Option Cb)}
    {timers : TimerManager} (htakes : Takes s.timers expired cbs timers) :
    Inv (s.handOut cbs timers) := by
  have hjob : ∀ job ∈ (s.handOut cbs timers).jobs, job ∈ s.jobs ∨
      job.pc = .lock ∧ ∃ cb, s.closures cb = some job.closure := by
    intro job hjob
    rcases List.mem_append.mp hjob with hjob | hjob
    · exact .inl hjob
    · obtain ⟨closure, hclosure, rfl⟩ := List.mem_map.mp hjob
      obtain ⟨cb, -, hcb⟩ := List.mem_filterMap.mp hclosure
      obtain ⟨cb, -, hcb⟩ := Option.bind_eq_some_iff.mp hcb
      exact .inr ⟨rfl, cb, hcb⟩
  refine ⟨{ h.sound with
    timers := htakes.represents
    cbs := fun a cb hcb => h.sound.cbs a cb (htakes.heap a cb hcb)
    timer := fun f call a hcall htimer => ?_
    jobs := fun job hin => ?_
    struck := fun job hin hpc => ?_ }, h.waiting.keep rfl fun f call hcall => ?_⟩
  · obtain ⟨hissued, howned⟩ := h.sound.timer f call a hcall htimer
    refine ⟨?_, fun cb hcb => howned cb (htakes.heap a cb hcb)⟩
    exact (congrFun htakes.issued a).trans hissued
  · rcases hjob job hin with hold | ⟨-, cb, hcb⟩
    · exact h.sound.jobs job hold
    · exact h.sound.closures cb _ hcb
  · rcases hjob job hin with hold | ⟨hlock, -⟩
    · exact h.sound.struck job hold hpc
    · rw [hlock] at hpc
      cases hpc
  · refine ⟨id, .inr, rfl, fun _ hout => ?_, fun hcommitted => ?_⟩
    · rcases hout with ⟨a, htimer, ha⟩ | ⟨job, hjob, hclosure⟩
      · rcases htakes.rest a ha with htaken | hrest
        · right
          obtain ⟨cb, hcb⟩ := Option.ne_none_iff_exists'.mp ((h.sound.timers.pending a).mp ha).2
          have howned := (h.sound.timer f call a hcall htimer).2 cb hcb
          refine ⟨⟨call.closure, .lock⟩, List.mem_append_right _ (List.mem_map.mpr
            ⟨call.closure, List.mem_filterMap.mpr ⟨some cb, ?_, howned⟩, rfl⟩), rfl⟩
          rw [htakes.cbs]
          exact List.mem_map.mpr ⟨a, htaken, hcb⟩
        · exact .inl ⟨a, htimer, hrest⟩
      · exact .inr ⟨job, List.mem_append_left _ hjob, hclosure⟩
    · obtain ⟨job, hjob, hrest⟩ := hcommitted
      exact ⟨job, List.mem_append_left _ hjob, hrest⟩

theorem mem_or_eq_of_erase (job : Job) {x : Job} (hx : x ∈ s.jobs) :
    x = job ∨ x ∈ s.jobs.erase job := by
  by_cases heq : x = job
  · exact .inl heq
  · exact .inr ((List.mem_erase_of_ne heq).mpr hx)

theorem Sound.endJob (h : Sound s) (job : Job) : Sound (s.endJob job) :=
  { h with
    jobs := fun x hx => h.jobs x (List.mem_of_mem_erase hx)
    struck := fun x hx hpc => h.struck x (List.mem_of_mem_erase hx) hpc }

theorem Sound.moveJob (h : Sound s) {job : Job} (hjob : job ∈ s.jobs) {pc : JobPc}
    (hpc : pc = .cancel → s.cancelled job.closure.tinfo = true) : Sound (s.moveJob job pc) :=
  { h with
    jobs := fun x hx => by
      rcases List.mem_cons.mp hx with rfl | hx
      · exact h.jobs job hjob
      · exact h.jobs x (List.mem_of_mem_erase hx)
    struck := fun x hx hcancel => by
      rcases List.mem_cons.mp hx with rfl | hx
      · exact hpc hcancel
      · exact h.struck x (List.mem_of_mem_erase hx) hcancel }

/-- A callback that goes on, and stays committed if it was. -/
theorem Keeps.moveJob {job : Job} {pc : JobPc}
    (hstays : job.pc = .set ∨ job.pc = .cancel → pc = .set ∨ pc = .cancel) (f : Fin n)
    (call : Call) : Keeps s (s.moveJob job pc) f call := by
  refine ⟨id, .inr, rfl, fun _ hout => ?_, fun hcommitted => ?_⟩
  · rcases hout with htimer | ⟨x, hx, hclosure⟩
    · exact .inl htimer
    · rcases mem_or_eq_of_erase job hx with rfl | hx
      · exact .inr ⟨_, List.mem_cons_self, hclosure⟩
      · exact .inr ⟨x, List.mem_cons_of_mem _ hx, hclosure⟩
  · obtain ⟨x, hx, htinfo, hpc⟩ := hcommitted
    rcases mem_or_eq_of_erase job hx with rfl | hx
    · exact ⟨_, List.mem_cons_self, htinfo, hstays hpc⟩
    · exact ⟨x, List.mem_cons_of_mem _ hx, htinfo, hpc⟩

/-- A callback that ends takes nothing from a call that is not its own. -/
theorem Keeps.endJob {job : Job} {f : Fin n} {call : Call}
    (hne : call.tinfo ≠ job.closure.tinfo) : Keeps s (s.endJob job) f call := by
  refine ⟨id, .inr, rfl, fun _ hout => ?_, fun hcommitted => ?_⟩
  · rcases hout with htimer | ⟨x, hx, hclosure⟩
    · exact .inl htimer
    · rcases mem_or_eq_of_erase job hx with rfl | hx
      · exact (hne (congrArg Closure.tinfo hclosure).symm).elim
      · exact .inr ⟨x, hx, hclosure⟩
  · obtain ⟨x, hx, htinfo, hpc⟩ := hcommitted
    rcases mem_or_eq_of_erase job hx with rfl | hx
    · exact (hne htinfo.symm).elim
    · exact ⟨x, hx, htinfo, hpc⟩

/-- Nor does one that found `cancelled` set take anything from its own call. -/
theorem Keeps.endTested {job : Job} (hpc : job.pc = .test) {f : Fin n} {call : Call}
    (hset : s.cancelled call.tinfo = true) : Keeps s (s.endJob job) f call := by
  refine ⟨id, .inr, rfl, fun hunset => ?_, fun hcommitted => ?_⟩
  · rw [hset] at hunset
    cases hunset
  · obtain ⟨x, hx, htinfo, hcommitted⟩ := hcommitted
    rcases mem_or_eq_of_erase job hx with rfl | hx
    · rw [hpc] at hcommitted
      rcases hcommitted with hcommitted | hcommitted <;> cases hcommitted
    · exact ⟨x, hx, htinfo, hcommitted⟩

theorem Keeps.trans {u : State n} {f : Fin n} {call : Call} (h₁ : Keeps s t f call)
    (h₂ : Keeps t u f call) : Keeps s u f call where
  queued := fun hpos => h₂.queued (h₁.queued hpos)
  event := fun hevent => (h₁.event hevent).elim (fun hpos => .inl (h₂.queued hpos)) h₂.event
  cancelled := h₂.cancelled.trans h₁.cancelled
  outstanding := fun hunset hout =>
    h₂.outstanding (h₁.cancelled.trans hunset) (h₁.outstanding hunset hout)
  committed := fun hcommitted => h₂.committed (h₁.committed hcommitted)

theorem waits_struck {f : Fin n} {call : Call} (hw : s.Waits f call)
    (hset : t.cancelled call.tinfo = true)
    (hwake : 0 < s.queued f ∨ s.iom.fiberAt call.fd call.event = some (f : Nat) →
      0 < t.queued f ∨ t.iom.fiberAt call.fd call.event = some (f : Nat) ∧
        t.Committed call.tinfo) : t.Waits f call := by
  unfold State.Waits at hw ⊢
  split at hw
  · exact .inl hset
  · exact (hwake (hw.imp_right And.left)).imp_right fun hevent => ⟨hevent.1, .inl hevent.2⟩
  · exact (hwake (hw.imp_right And.left)).imp_right fun hevent => ⟨hevent.1, .inl hevent.2⟩
  all_goals trivial

/-- The callback sets `cancelled` and goes on to `cancelEvent`. -/
theorem Inv.strike (h : Inv s) {job : Job} (hjob : job ∈ s.jobs) :
    Inv ({ s with
      cancelled := Function.update s.cancelled job.closure.tinfo true }.moveJob job .cancel) := by
  have hsound : Sound
      { s with cancelled := Function.update s.cancelled job.closure.tinfo true } :=
    { h.sound with
      struck := fun x hx hpc => by
        by_cases heq : x.closure.tinfo = job.closure.tinfo
        · rw [heq]
          exact Function.update_self _ _ _
        · exact (Function.update_of_ne heq _ _).trans (h.sound.struck x hx hpc) }
  refine ⟨hsound.moveJob hjob fun _ => Function.update_self _ _ _, fun f call hcall => ?_⟩
  by_cases heq : call.tinfo = job.closure.tinfo
  · refine waits_struck (h.waiting f call hcall) ?_ fun hwake => hwake.imp_right fun hevent =>
      ⟨hevent, _, List.mem_cons_self, heq.symm, .inr rfl⟩
    rw [heq]
    exact Function.update_self _ _ _
  · have hunset : Keeps s
        { s with cancelled := Function.update s.cancelled job.closure.tinfo true } f call :=
      .of_eq rfl rfl rfl (Function.update_of_ne heq _ _) rfl
    exact (hunset.trans (.moveJob (fun _ => .inr rfl) f call)).waits (h.waiting f call hcall)

theorem Inv.cancelEvent (h : Inv s) {job : Job} (hjob : job ∈ s.jobs) (hpc : job.pc = .cancel)
    {granted : Bool} (hanswered : Answered s (.job job granted)) {r : Bool × IOManager}
    (hr : s.iom.cancelEvent job.closure.fd job.closure.event granted = .ok r) :
    Inv ((s.afterEvents r.2).endJob job) := by
  have hbook := h.sound.bookkept
  have hkeeps := Coherent.keeps hbook.contexts (IOManager.cancelEvent_fires hr)
  refine ⟨(h.sound.afterEvents (hbook.cancelEvent_returns hr)).endJob job,
    fun f call (hcall : s.calls f = some call) => ?_⟩
  by_cases heq : call.tinfo = job.closure.tinfo
  · have hclosure := (h.sound.jobs job hjob).2 f call hcall heq
    refine waits_struck (h.waiting f call hcall) ?_ fun hwake => .inl ?_
    · rw [heq]
      exact h.sound.struck job hjob hpc
    · rcases hwake with hpos | hevent
      · exact (Keeps.afterEvents hkeeps f call).queued hpos
      · have hwaits : s.iom.fiberAt job.closure.fd job.closure.event = some (f : Nat) := by
          rw [← hclosure]
          exact hevent
        have hgranted : granted = true := by
          by_contra hrefused
          exact hanswered hpc (Bool.eq_false_of_not_eq_true hrefused) f
            (by rw [hcall, Option.map_some, hclosure]) hwaits
        subst hgranted
        obtain ⟨w, hnew, hfiber⟩ := hbook.cancelEvent_schedules hwaits hr
        exact afterEvents_pos hnew ⟨w, List.mem_singleton_self w, hfiber⟩
  · exact ((Keeps.afterEvents hkeeps f call).trans (.endJob heq)).waits (h.waiting f call hcall)

theorem Inv.runJob (h : Inv s) {job : Job} (hjob : job ∈ s.jobs) {granted : Bool}
    (hanswered : Answered s (.job job granted)) (ht : s.runJob job granted = .ok t) : Inv t := by
  unfold State.runJob at ht
  split at ht
  · rename_i hpc
    cases ht
    split
    · exact ⟨h.sound.moveJob hjob fun hcancel => (by cases hcancel),
        h.waiting.keep rfl fun f call _ => .moveJob (fun hcommitted => by
          rw [hpc] at hcommitted
          rcases hcommitted with hcommitted | hcommitted <;> cases hcommitted) f call⟩
    · -- the call of a dead pointer has returned
      rename_i hdead
      refine ⟨h.sound.endJob job, h.waiting.keep rfl fun f call hcall => .endJob fun heq => ?_⟩
      exact hdead (.inl ⟨f, by rw [hcall, Option.map_some, heq]⟩)
  · rename_i hpc
    cases ht
    split
    · rename_i hset
      refine ⟨h.sound.endJob job, h.waiting.keep rfl fun f call hcall => ?_⟩
      by_cases heq : call.tinfo = job.closure.tinfo
      · exact .endTested hpc (heq ▸ hset)
      · exact .endJob heq
    · exact ⟨h.sound.moveJob hjob fun hcancel => (by cases hcancel),
        h.waiting.keep rfl fun f call _ => .moveJob (fun _ => .inl rfl) f call⟩
  · cases ht
    exact h.strike hjob
  · rename_i hpc
    split at ht <;> cases ht
    rename_i r hr
    exact h.cancelEvent hjob hpc hanswered hr

/-! ## Whole runs -/

theorem inv_preserved : Preserves (step : _ → Action n → _) (onOk Answered)
    (Holds Inv fun _ => True) := by
  refine preserves_abortable fun s a r h hanswered hr => ?_
  cases a with
  | begin f routine fd timeout =>
      simp only [op] at hr
      split at hr <;> cases hr
      exact h.begin f routine fd timeout
  | fiber f access =>
      simp only [op] at hr
      obtain ⟨call, hcall, hr⟩ := Option.bind_eq_some_iff.mp hr
      exact h.access hcall hanswered hr
  | expire now probe =>
      simp only [op] at hr
      split at hr
      · cases hr
      · split at hr <;> cases hr
        · trivial
        · rename_i r hr
          exact h.handOut (h.sound.timers.listExpiredCb_takes hr)
  | job job granted =>
      simp only [op] at hr
      split at hr <;> cases hr
      rename_i hjob
      cases hrun : s.runJob job granted with
      | error e => trivial
      | ok t => exact h.runJob hjob hanswered hrun
  | dispatch fd report granted =>
      simp only [op] at hr
      split at hr <;> cases hr
      · trivial
      · rename_i iom hiom
        exact h.afterEvents (h.sound.bookkept.dispatch_returns hiom)
          (Coherent.keeps h.sound.bookkept.contexts (IOManager.dispatch_fires hiom))
  | cancelAll fd granted =>
      simp only [op] at hr
      split at hr <;> cases hr
      · trivial
      · rename_i r hiom
        exact h.afterEvents (h.sound.bookkept.cancelAll_returns hiom)
          (Coherent.keeps h.sound.bookkept.contexts (IOManager.cancelAll_fires hiom))
  | addTimer now a ms recurring =>
      simp only [op] at hr
      split at hr <;> cases hr
      rename_i ha
      exact h.addTimer (Bool.eq_false_of_not_eq_true ha)

theorem Inv.kept (h : Inv s) {f : Fin n} {call : Call} (hcall : s.calls f = some call)
    (hpc : call.pc = .suspended) (hfinite : call.timeout ≠ noTimeout) :
    s.TimeoutKept f call ∧
      (s.cancelled call.tinfo = true → s.Committed call.tinfo ∨ 0 < s.queued f) := by
  have hwaits := h.waiting f call hcall
  unfold State.Waits at hwaits
  rw [hpc] at hwaits
  rcases hwaits with hpos | ⟨-, hcommitted | ⟨hunset, hout⟩⟩
  · exact ⟨.inr hpos, fun _ => .inr hpos⟩
  · obtain ⟨job, hjob, htinfo, hnext⟩ := hcommitted
    have hclosure := (h.sound.jobs job hjob).2 f call hcall htinfo.symm
    exact ⟨.inl (.inr ⟨job, hjob, hclosure.symm⟩), fun _ => .inl ⟨job, hjob, htinfo, hnext⟩⟩
  · refine ⟨.inl (hout hfinite), fun hset => ?_⟩
    rw [hunset] at hset
    cases hset

/-- In every run that answers its timeouts, a fiber that is suspended with a finite timeout has
its timer pending, its callback outstanding or an entry in the queue; and once `cancelled` is
set, the `cancelEvent` is to come or the entry is there. -/
theorem timeout_kept {n now : Nat} {s : State n}
    (h : Reaches step (onOk Answered) (.ok (.init n now)) (.ok s)) {f : Fin n} {call : Call}
    (hcall : s.calls f = some call) (hpc : call.pc = .suspended)
    (hfinite : call.timeout ≠ noTimeout) :
    s.TimeoutKept f call ∧
      (s.cancelled call.tinfo = true → s.Committed call.tinfo ∨ 0 < s.queued f) := by
  have hinv : Inv s := h.invariant inv_preserved (inv_init now)
  exact hinv.kept hcall hpc hfinite

/-- The timer expires while the fiber is suspended, and its callback has set `cancelled`. -/
def answeredRun : List (Action 2) :=
  [.begin 0 (.doIo false) 5 10, .fiber 0 (.issue true), .fiber 0 (.arm 0 7),
    .fiber 0 (.register true), .fiber 0 .yield, .expire 10 8, .job ⟨⟨1, 5, .read⟩, .lock⟩ true,
    .job ⟨⟨1, 5, .read⟩, .test⟩ true, .job ⟨⟨1, 5, .read⟩, .set⟩ true]

theorem timeout_kept_sample :
    ∃ (s : State 2) (call : Call), Reaches step (onOk Answered) (.ok (.init 2 0)) (.ok s) ∧
      s.calls 0 = some call ∧ s.timers.timers = [] ∧ s.cancelled call.tinfo = true ∧
      s.TimeoutKept 0 call ∧ (s.Committed call.tinfo ∨ 0 < s.queued 0) := by
  have hrun : (checkedRun step (fun s a => decide (onOk Answered s a)) (.ok (.init 2 0))
      answeredRun).any (okAnd fun s =>
      decide (((s.calls 0).any fun call => decide (call.pc = .suspended ∧
          call.timeout ≠ noTimeout ∧ s.cancelled call.tinfo = true)) = true ∧
        s.timers.timers = [])) := by decide
  obtain ⟨s, hr, hcall, htimers⟩ := exists_ok_of_any hrun
  obtain ⟨call, hcall, hpc, hfinite, hset⟩ := exists_some_of_any hcall
  have hreached : Reaches step (onOk Answered) (.ok (.init 2 0)) (.ok s) := .of_decidedRun hr
  obtain ⟨hkept, hcommitted⟩ := timeout_kept hreached hcall hpc hfinite
  exact ⟨s, call, hreached, hcall, htimers, hset, hkept, hcommitted hset⟩

end Sylar.Timeout
