import Sylar.Hook.Wait

/-! # Timeouts that strike

The waits of a call share one `timer_info`, and `cancel` comes too late for a callback that was
handed out: it may still set `cancelled` when `do_io` waits again. What a call can rely on is
that some wait of its own has lasted the timeout, as long as the clock does not run backwards
and the deadlines fit into a `uint64_t`.
-/

namespace Sylar.Elapsed

open Transition Timers Timeout

variable {n : Nat}

/-! ## Runs with a record of the waits -/

/-- `clock` is the last reading. For the `timer_info` of a call, `begun` is the reading before the
call, `limit` its timeout, and `waits` has the readings at its calls of `addConditionTimer`; the
code keeps none of these. -/
structure Dated (n : Nat) where
  sys : State n
  clock : Nat
  begun : Nat → Nat
  limit : Nat → Nat
  waits : Nat → List Nat

def Dated.init (n now : Nat) : Dated n where
  sys := .init n now
  clock := now
  begun := fun _ => 0
  limit := fun _ => 0
  waits := fun _ => []

def Dated.read (s : Dated n) (now : Nat) : Dated n := { s with clock := now }

/-- The call with this `timer_info` begins to wait. -/
def Dated.wait (s : Dated n) (tinfo now : Nat) : Dated n :=
  { s with waits := Function.update s.waits tinfo (now :: s.waits tinfo) }

theorem wait_waits (s : Dated n) (tinfo now i : Nat) :
    (s.wait tinfo now).waits i = if i = tinfo then now :: s.waits tinfo else s.waits i :=
  Function.update_apply _ _ _ _

/-- The record after an action that leads to `t`. -/
def Dated.next (s : Dated n) (t : State n) : Action n → Dated n
  | .begin _ _ _ timeout =>
      { s with
        sys := t
        begun := Function.update s.begun t.lastInfo s.clock
        limit := Function.update s.limit t.lastInfo timeout
        waits := Function.update s.waits t.lastInfo [] }
  | .fiber f (.arm now _) =>
      match s.sys.calls f with
      | some call => { (s.read now).wait call.tinfo now with sys := t }
      | none => { s with sys := t }
  | .expire now _ => { s.read now with sys := t }
  | .addTimer now _ _ _ => { s.read now with sys := t }
  | _ => { s with sys := t }

theorem next_arm (s : Dated n) (t : State n) {f : Fin n} {call : Call}
    (hcall : s.sys.calls f = some call) (now : Nat) (a : Addr) :
    s.next t (.fiber f (.arm now a)) = { (s.read now).wait call.tinfo now with sys := t } := by
  unfold Dated.next
  dsimp only
  rw [hcall]

def op (s : Dated n) (a : Action n) : Option (Except Failed (Dated n)) :=
  (Timeout.op s.sys a).map fun r => r.map fun t => s.next t a

def step : Except Failed (Dated n) → Action n → Option (Except Failed (Dated n)) := abortable op

/-- Readings do not go back, and the deadline of a condition timer fits. -/
def Forward (s : Dated n) : Action n → Prop
  | .fiber f (.arm now _) => s.clock ≤ now ∧
      ∀ call ∈ s.sys.calls f, call.timeout ≠ noTimeout → now + call.timeout < 2 ^ 64
  | .expire now _ => s.clock ≤ now
  | .addTimer now _ _ _ => s.clock ≤ now
  | _ => True

instance (s : Dated n) : (a : Action n) → Decidable (Forward s a)
  | .fiber f (.arm now _) => inferInstanceAs (Decidable (s.clock ≤ now ∧
      ∀ call ∈ s.sys.calls f, call.timeout ≠ noTimeout → now + call.timeout < 2 ^ 64))
  | .fiber _ (.issue _) => isTrue trivial
  | .fiber _ (.register _) => isTrue trivial
  | .fiber _ .yield => isTrue trivial
  | .fiber _ .resume => isTrue trivial
  | .fiber _ .cancelTimer => isTrue trivial
  | .fiber _ .test => isTrue trivial
  | .begin _ _ _ _ => isTrue trivial
  | .expire now _ => inferInstanceAs (Decidable (s.clock ≤ now))
  | .job _ _ => isTrue trivial
  | .dispatch _ _ _ => isTrue trivial
  | .cancelAll _ _ => isTrue trivial
  | .addTimer now _ _ _ => inferInstanceAs (Decidable (s.clock ≤ now))

/-! ## What the record says of timers and callbacks -/

/-- The call has waited since `start`, with a timeout. -/
structure Dated.Waited (s : Dated n) (tinfo start : Nat) : Prop where
  finite : s.limit tinfo ≠ noTimeout
  mem : start ∈ s.waits tinfo
  begun : s.begun tinfo ≤ start

def Dated.Lapsed (s : Dated n) (tinfo : Nat) : Prop :=
  ∃ start, s.Waited tinfo start ∧ start + s.limit tinfo ≤ s.clock

def Dated.Measures (s : Dated n) (x : Timer) (tinfo : Nat) : Prop :=
  x.recurring = false ∧ ∃ start, s.Waited tinfo start ∧ x.next = start + s.limit tinfo

/-- Timers measure waits, and a callback is handed out after one. -/
structure Timely (s : Dated n) : Prop where
  timers : Represents s.sys.timers
  previouse : s.sys.timers.previouseTime ≤ s.clock
  cbs : ∀ a cb, (s.sys.timers.heap a).cb = some cb → cb ≤ s.sys.lastCb
  closures : ∀ cb closure, s.sys.closures cb = some closure → closure.tinfo ≤ s.sys.lastInfo
  calls : ∀ f call, s.sys.calls f = some call → call.tinfo ≤ s.sys.lastInfo ∧
    s.limit call.tinfo = call.timeout ∧ s.begun call.tinfo ≤ s.clock
  owned : ∀ f call a, s.sys.calls f = some call → call.timer = some a →
    s.sys.timers.issued a = true
  pending : ∀ a cb closure, (s.sys.timers.heap a).cb = some cb →
    s.sys.closures cb = some closure → s.Measures (s.sys.timers.heap a) closure.tinfo
  jobs : ∀ job ∈ s.sys.jobs, job.closure.tinfo ≤ s.sys.lastInfo ∧ s.Lapsed job.closure.tinfo
  cancelled : ∀ tinfo, s.sys.cancelled tinfo = true → s.Lapsed tinfo

theorem timely_init (n now : Nat) : Timely (.init n now) where
  timers := represents_init now
  previouse := le_rfl
  cbs := fun a cb hcb => by cases hcb
  closures := fun cb closure hclosure => by cases hclosure
  calls := fun f call hcall => by cases hcall
  owned := fun f call a hcall => by cases hcall
  pending := fun a cb closure hcb => by cases hcb
  jobs := fun job hjob => absurd hjob List.not_mem_nil
  cancelled := fun tinfo hset => by cases hset

variable {s t : Dated n}

/-! ## The record goes on -/

/-- Nothing recorded for the call is lost. -/
structure Extends (s t : Dated n) (tinfo : Nat) : Prop where
  clock : s.clock ≤ t.clock
  begun : t.begun tinfo = s.begun tinfo
  limit : t.limit tinfo = s.limit tinfo
  waits : ∀ start ∈ s.waits tinfo, start ∈ t.waits tinfo

theorem Extends.waited {tinfo start : Nat} (h : Extends s t tinfo)
    (hw : s.Waited tinfo start) : t.Waited tinfo start :=
  ⟨h.limit ▸ hw.finite, h.waits start hw.mem, h.begun ▸ hw.begun⟩

theorem Extends.lapsed {tinfo : Nat} (h : Extends s t tinfo) (hl : s.Lapsed tinfo) :
    t.Lapsed tinfo := by
  obtain ⟨start, hw, hend⟩ := hl
  exact ⟨start, h.waited hw, by rw [h.limit]; exact hend.trans h.clock⟩

theorem Extends.measures {tinfo : Nat} (h : Extends s t tinfo) {x : Timer}
    (hm : s.Measures x tinfo) : t.Measures x tinfo := by
  obtain ⟨hrec, start, hw, hnext⟩ := hm
  exact ⟨hrec, start, h.waited hw, by rw [h.limit]; exact hnext⟩

theorem Extends.sys (s : Dated n) (u : State n) (tinfo : Nat) :
    Extends s { s with sys := u } tinfo :=
  ⟨le_rfl, rfl, rfl, fun _ hstart => hstart⟩

/-- The record of the calls so far goes on while the system stays. -/
theorem Timely.extend (h : Timely s) (hsys : t.sys = s.sys) (hext : ∀ tinfo, Extends s t tinfo) :
    Timely t := by
  have hclock := (hext 0).clock
  constructor
  · rw [hsys]
    exact h.timers
  · rw [hsys]
    exact h.previouse.trans hclock
  · rw [hsys]
    exact h.cbs
  · rw [hsys]
    exact h.closures
  · intro f call hcall
    rw [hsys] at hcall ⊢
    obtain ⟨hinfo, hlimit, hbegun⟩ := h.calls f call hcall
    rw [(hext call.tinfo).limit, (hext call.tinfo).begun]
    exact ⟨hinfo, hlimit, hbegun.trans hclock⟩
  · rw [hsys]
    exact h.owned
  · intro a cb closure hcb hclosure
    rw [hsys] at hcb hclosure ⊢
    exact (hext _).measures (h.pending a cb closure hcb hclosure)
  · intro job hjob
    rw [hsys] at hjob ⊢
    exact ⟨(h.jobs job hjob).1, (hext _).lapsed (h.jobs job hjob).2⟩
  · intro tinfo hset
    rw [hsys] at hset
    exact (hext tinfo).lapsed (h.cancelled tinfo hset)

theorem Timely.read (h : Timely s) {now : Nat} (hclock : s.clock ≤ now) : Timely (s.read now) :=
  h.extend rfl fun _ => ⟨hclock, rfl, rfl, fun _ hstart => hstart⟩

theorem Timely.wait (h : Timely s) (tinfo now : Nat) : Timely (s.wait tinfo now) := by
  refine h.extend rfl fun i => ⟨le_rfl, rfl, rfl, fun start hstart => ?_⟩
  rw [wait_waits]
  split
  · rename_i hi
    exact List.mem_cons_of_mem _ (hi ▸ hstart)
  · exact hstart

/-! ## Steps that leave the timers -/

/-- The calls in progress and the callbacks are those of before, at other places. -/
theorem Timely.move (h : Timely s) {u : State n} (htimers : u.timers = s.sys.timers)
    (hcb : u.lastCb = s.sys.lastCb) (hclosures : u.closures = s.sys.closures)
    (hinfo : u.lastInfo = s.sys.lastInfo)
    (hcalls : ∀ f call, u.calls f = some call → ∃ old, s.sys.calls f = some old ∧
      call.tinfo = old.tinfo ∧ call.timeout = old.timeout ∧
        ∀ a, call.timer = some a → s.sys.timers.issued a = true)
    (hjobs : ∀ job ∈ u.jobs, ∃ old ∈ s.sys.jobs, job.closure = old.closure)
    (hcancelled : ∀ tinfo, u.cancelled tinfo = true → s.Lapsed tinfo) :
    Timely { s with sys := u } := by
  constructor
  · dsimp only
    rw [htimers]
    exact h.timers
  · dsimp only
    rw [htimers]
    exact h.previouse
  · dsimp only
    rw [htimers, hcb]
    exact h.cbs
  · dsimp only
    rw [hclosures, hinfo]
    exact h.closures
  · intro f call hcall
    obtain ⟨old, hold, htinfo, htimeout, -⟩ := hcalls f call hcall
    dsimp only
    rw [hinfo, htinfo, htimeout]
    exact h.calls f old hold
  · intro f call a hcall htimer
    obtain ⟨old, -, -, -, hissued⟩ := hcalls f call hcall
    dsimp only
    rw [htimers]
    exact hissued a htimer
  · intro a cb closure hheap hclosure
    dsimp only at hheap hclosure ⊢
    rw [htimers] at hheap ⊢
    rw [hclosures] at hclosure
    exact (Extends.sys s u _).measures (h.pending a cb closure hheap hclosure)
  · intro job hjob
    obtain ⟨old, hold, hclosure⟩ := hjobs job hjob
    dsimp only
    rw [hinfo, hclosure]
    exact ⟨(h.jobs old hold).1, (Extends.sys s u _).lapsed (h.jobs old hold).2⟩
  · exact fun tinfo hset => (Extends.sys s u tinfo).lapsed (hcancelled tinfo hset)

/-- A fiber goes on in its call, or the call ends. -/
theorem Timely.become (h : Timely s) {f : Fin n} {call : Call} (hcall : s.sys.calls f = some call)
    {x : Option Call} (hx : ∀ new, x = some new → new.tinfo = call.tinfo ∧
      new.timeout = call.timeout ∧ ∀ a, new.timer = some a → s.sys.timers.issued a = true)
    {u : State n} (hcalls : u.calls = Function.update s.sys.calls f x)
    (htimers : u.timers = s.sys.timers) (hcb : u.lastCb = s.sys.lastCb)
    (hclosures : u.closures = s.sys.closures) (hinfo : u.lastInfo = s.sys.lastInfo)
    (hjobs : u.jobs = s.sys.jobs) (hcancelled : u.cancelled = s.sys.cancelled) :
    Timely { s with sys := u } := by
  refine h.move htimers hcb hclosures hinfo (fun g new hnew => ?_)
    (fun job hjob => ⟨job, hjobs ▸ hjob, rfl⟩) fun tinfo hset => h.cancelled tinfo ?_
  · rw [hcalls, Function.update_apply] at hnew
    split at hnew
    · rename_i hg
      exact ⟨call, hg ▸ hcall, hx new hnew⟩
    · exact ⟨new, hnew, rfl, rfl, fun a ha => h.owned g new a hnew ha⟩
  · rw [← hcancelled]
    exact hset

theorem Timely.at (h : Timely s) {f : Fin n} {call : Call} (hcall : s.sys.calls f = some call)
    (pc : CallPc) : Timely { s with sys := s.sys.at f call pc } :=
  h.become (x := some { call with pc := pc }) hcall (fun _ hnew => Option.some.inj hnew ▸
    ⟨rfl, rfl, fun a ha => h.owned f call a hcall ha⟩) rfl rfl rfl rfl rfl rfl rfl

theorem Timely.finish (h : Timely s) {f : Fin n} {call : Call}
    (hcall : s.sys.calls f = some call) : Timely { s with sys := s.sys.become f none } :=
  h.become hcall (fun _ hnew => by cases hnew) rfl rfl rfl rfl rfl rfl rfl

/-- Events are handled, and callbacks go on or end. -/
theorem Timely.work (h : Timely s) {u : State n} (hcalls : u.calls = s.sys.calls)
    (htimers : u.timers = s.sys.timers) (hcb : u.lastCb = s.sys.lastCb)
    (hclosures : u.closures = s.sys.closures) (hinfo : u.lastInfo = s.sys.lastInfo)
    (hjobs : ∀ job ∈ u.jobs, ∃ old ∈ s.sys.jobs, job.closure = old.closure)
    (hcancelled : ∀ tinfo, u.cancelled tinfo = true → s.Lapsed tinfo) :
    Timely { s with sys := u } :=
  h.move htimers hcb hclosures hinfo (fun f call hcall => ⟨call, hcalls ▸ hcall, rfl, rfl,
    fun a ha => h.owned f call a (hcalls ▸ hcall) ha⟩) hjobs hcancelled

theorem mem_erase_closure {s : State n} (job : Job) {x : Job} (hx : x ∈ s.jobs.erase job) :
    ∃ old ∈ s.jobs, x.closure = old.closure := ⟨x, List.mem_of_mem_erase hx, rfl⟩

theorem mem_moveJob_closure {s : State n} {job : Job} (hjob : job ∈ s.jobs) {pc : JobPc} {x : Job}
    (hx : x ∈ (s.moveJob job pc).jobs) : ∃ old ∈ s.jobs, x.closure = old.closure := by
  obtain rfl | hx := List.mem_cons.mp hx
  · exact ⟨job, hjob, rfl⟩
  · exact mem_erase_closure job hx

/-- A step of a callback that was handed out. -/
theorem Timely.runJob (h : Timely s) {job : Job} (hjob : job ∈ s.sys.jobs) {granted : Bool}
    {u : State n} (hu : s.sys.runJob job granted = .ok u) : Timely { s with sys := u } := by
  have hend : Timely { s with sys := s.sys.endJob job } :=
    h.work rfl rfl rfl rfl rfl (fun x hx => mem_erase_closure job hx) h.cancelled
  have hmove : ∀ pc, Timely { s with sys := s.sys.moveJob job pc } := fun pc =>
    h.work rfl rfl rfl rfl rfl (fun x hx => mem_moveJob_closure hjob hx) h.cancelled
  unfold State.runJob at hu
  cases hpc : job.pc with
  | lock =>
      rw [hpc] at hu
      cases hu
      split
      · exact hmove .test
      · exact hend
  | test =>
      rw [hpc] at hu
      cases hu
      split
      · exact hend
      · exact hmove .set
  | set =>
      rw [hpc] at hu
      cases hu
      refine h.work rfl rfl rfl rfl rfl (fun x hx => mem_moveJob_closure hjob hx)
        fun tinfo hset => ?_
      have hset : Function.update s.sys.cancelled job.closure.tinfo true tinfo = true := hset
      rw [Function.update_apply] at hset
      split at hset
      · rename_i htinfo
        exact htinfo ▸ (h.jobs job hjob).2
      · exact h.cancelled tinfo hset
  | cancel =>
      rw [hpc] at hu
      dsimp only at hu
      split at hu <;> cases hu
      exact h.work rfl rfl rfl rfl rfl (fun x hx => mem_erase_closure job hx) h.cancelled

/-! ## Steps that change the timers -/

theorem Timely.addTimer (h : Timely s) (now ms : Nat) {a : Addr} (recurring : Bool)
    (ha : s.sys.timers.issued a = false) {closure : Option Closure}
    (hclosure : ∀ c, closure = some c → c.tinfo ≤ s.sys.lastInfo ∧
      s.Measures (.new now ms (some (s.sys.lastCb + 1)) recurring) c.tinfo) :
    Timely { s with
      sys := { s.sys with
        timers := (s.sys.timers.addTimer now a ms (some (s.sys.lastCb + 1)) recurring).2
        closures := Function.update s.sys.closures (s.sys.lastCb + 1) closure
        lastCb := s.sys.lastCb + 1 } } := by
  obtain ⟨hrep, hheap, -⟩ := h.timers.addTimer ha now ms (s.sys.lastCb + 1) recurring
  constructor
  · exact hrep
  · exact h.previouse
  · intro b cb hcb
    dsimp only at hcb ⊢
    rw [hheap, Function.update_apply] at hcb
    split at hcb
    · exact (Option.some.inj hcb).ge
    · exact Nat.le_succ_of_le (h.cbs b cb hcb)
  · intro cb c hc
    dsimp only at hc ⊢
    rw [Function.update_apply] at hc
    split at hc
    · exact (hclosure c hc).1
    · exact h.closures cb c hc
  · exact h.calls
  · intro f call b hcall htimer
    dsimp only
    refine (Function.update_apply ..).trans ?_
    split
    · rfl
    · exact h.owned f call b hcall htimer
  · intro b cb c hcb hc
    refine (Extends.sys s _ _).measures ?_
    dsimp only at hcb hc ⊢
    rw [hheap, Function.update_apply] at hcb ⊢
    rw [Function.update_apply] at hc
    split at hcb
    · rename_i hb
      cases hcb
      rw [if_pos rfl] at hc
      exact (if_pos hb).symm ▸ (hclosure c hc).2
    · rename_i hb
      rw [if_neg hb]
      rw [if_neg (Nat.lt_succ_of_le (h.cbs b cb hcb)).ne] at hc
      exact h.pending b cb c hcb hc
  · exact fun job hjob => ⟨(h.jobs job hjob).1, (Extends.sys s _ _).lapsed (h.jobs job hjob).2⟩
  · exact fun tinfo hset => (Extends.sys s _ _).lapsed (h.cancelled tinfo hset)

theorem Timely.cancel (h : Timely s) {a : Addr} (ha : s.sys.timers.issued a = true)
    {r : Bool × TimerManager} (hr : s.sys.timers.cancel a = .ok r) :
    Timely { s with sys := { s.sys with timers := r.2 } } := by
  obtain ⟨hout, hin⟩ := h.timers.cancel ha
  by_cases hmem : a ∈ s.sys.timers.timers
  · obtain ⟨m, hm, hrep, hheap, -, hissued, hprevious, -⟩ := hin hmem
    cases hm.symm.trans hr
    have hold : ∀ b cb, (m.heap b).cb = some cb → m.heap b = s.sys.timers.heap b := by
      intro b cb hcb
      rw [hheap, Function.update_apply] at hcb ⊢
      split at hcb
      · cases hcb
      · rename_i hb
        exact if_neg hb
    constructor
    · exact hrep
    · exact hprevious.trans_le h.previouse
    · intro b cb hcb
      dsimp only at hcb
      rw [hold b cb hcb] at hcb
      exact h.cbs b cb hcb
    · exact h.closures
    · exact h.calls
    · intro f call b hcall htimer
      dsimp only
      rw [hissued]
      exact h.owned f call b hcall htimer
    · intro b cb c hcb hc
      refine (Extends.sys s _ _).measures ?_
      dsimp only at hcb ⊢
      have hsame := hold b cb hcb
      rw [hsame] at hcb ⊢
      exact h.pending b cb c hcb hc
    · exact fun job hjob =>
        ⟨(h.jobs job hjob).1, (Extends.sys s _ _).lapsed (h.jobs job hjob).2⟩
    · exact fun tinfo hset => (Extends.sys s _ _).lapsed (h.cancelled tinfo hset)
  · cases (hout hmem).symm.trans hr
    exact h

/-- The timers that are due have measured their waits to the end. -/
theorem Timely.handOut (h : Timely s) {m : TimerManager}
    (hexp : Expires s.sys.timers m s.clock) (hprevious : m.previouseTime ≤ s.clock) :
    Timely { s with
      sys := s.sys.handOut
        ((s.sys.timers.due s.clock).map fun a => (s.sys.timers.heap a).cb) m } := by
  have hold : ∀ a cb, (m.heap a).cb = some cb → (s.sys.timers.heap a).cb = some cb ∧
      ((s.sys.timers.heap a).recurring = false → m.heap a = s.sys.timers.heap a) := by
    intro a cb hcb
    rw [hexp.heap] at hcb ⊢
    split
    · rename_i hdue
      rw [if_pos hdue] at hcb
      unfold firedTimer at hcb ⊢
      split at hcb
      · rename_i hrec
        exact ⟨hcb, fun hfalse => by rw [hrec] at hfalse; cases hfalse⟩
      · cases hcb
    · rename_i hdue
      rw [if_neg hdue] at hcb
      exact ⟨hcb, fun _ => rfl⟩
  constructor
  · exact hexp.represents
  · exact hprevious
  · exact fun a cb hcb => h.cbs a cb (hold a cb hcb).1
  · exact h.closures
  · exact h.calls
  · intro f call a hcall htimer
    exact (congrFun hexp.issued a).trans (h.owned f call a hcall htimer)
  · intro a cb c hcb hc
    obtain ⟨hcb, hsame⟩ := hold a cb hcb
    have hm := h.pending a cb c hcb hc
    refine (Extends.sys s _ _).measures ?_
    exact (hsame hm.1).symm ▸ hm
  · intro job hjob
    obtain hjob | hjob := List.mem_append.mp hjob
    · exact ⟨(h.jobs job hjob).1, (Extends.sys s _ _).lapsed (h.jobs job hjob).2⟩
    · obtain ⟨closure, hclosure, rfl⟩ := List.mem_map.mp hjob
      obtain ⟨cb, hcb, hclosure⟩ := List.mem_filterMap.mp hclosure
      obtain ⟨cb, rfl, hclosure⟩ := Option.bind_eq_some_iff.mp hclosure
      obtain ⟨a, ha, hcb⟩ := List.mem_map.mp hcb
      obtain ⟨-, start, hw, hnext⟩ := h.pending a cb closure hcb hclosure
      refine ⟨h.closures cb closure hclosure, (Extends.sys s _ _).lapsed ⟨start, hw, ?_⟩⟩
      exact hnext.symm.trans_le (h.timers.mem_due.mp ha).2
  · exact fun tinfo hset => (Extends.sys s _ _).lapsed (h.cancelled tinfo hset)

/-! ## Calls -/

theorem begin_waits (s : Dated n) (f : Fin n) (routine : Routine) (fd timeout tinfo : Nat) :
    (s.next (s.sys.begin f routine fd timeout) (.begin f routine fd timeout)).waits tinfo =
      if tinfo = s.sys.lastInfo + 1 then [] else s.waits tinfo :=
  Function.update_apply _ _ _ _

/-- A new call has a `timer_info` that nothing recorded is about. -/
theorem Timely.begin (h : Timely s) (f : Fin n) (routine : Routine) (fd timeout : Nat) :
    Timely (s.next (s.sys.begin f routine fd timeout) (.begin f routine fd timeout)) := by
  have hext : ∀ tinfo, tinfo ≠ s.sys.lastInfo + 1 →
      Extends s (s.next (s.sys.begin f routine fd timeout) (.begin f routine fd timeout)) tinfo :=
    fun tinfo hne => ⟨le_rfl, Function.update_of_ne hne _ _, Function.update_of_ne hne _ _,
      fun start hstart => by rwa [begin_waits, if_neg hne]⟩
  have hne : ∀ {tinfo}, tinfo ≤ s.sys.lastInfo → tinfo ≠ s.sys.lastInfo + 1 :=
    fun hle => (Nat.lt_succ_of_le hle).ne
  constructor
  · exact h.timers
  · exact h.previouse
  · exact h.cbs
  · exact fun cb closure hclosure => Nat.le_succ_of_le (h.closures cb closure hclosure)
  · intro g call hcall
    have hcall : Function.update s.sys.calls f _ g = some call := hcall
    rw [Function.update_apply] at hcall
    split at hcall
    · cases hcall
      exact ⟨le_rfl, Function.update_self _ _ _, (Function.update_self _ _ _).le⟩
    · obtain ⟨hinfo, hlimit, hbegun⟩ := h.calls g call hcall
      have hkeep := hext call.tinfo (hne hinfo)
      rw [hkeep.limit, hkeep.begun]
      exact ⟨Nat.le_succ_of_le hinfo, hlimit, hbegun⟩
  · intro g call a hcall htimer
    have hcall : Function.update s.sys.calls f _ g = some call := hcall
    rw [Function.update_apply] at hcall
    split at hcall
    · cases hcall
      cases htimer
    · exact h.owned g call a hcall htimer
  · intro a cb closure hcb hclosure
    exact (hext _ (hne (h.closures cb closure hclosure))).measures
      (h.pending a cb closure hcb hclosure)
  · intro job hjob
    obtain ⟨hinfo, hlapsed⟩ := h.jobs job hjob
    exact ⟨Nat.le_succ_of_le hinfo, (hext _ (hne hinfo)).lapsed hlapsed⟩
  · intro tinfo hset
    have hset : Function.update s.sys.cancelled (s.sys.lastInfo + 1) false tinfo = true := hset
    rw [Function.update_apply] at hset
    split at hset
    · cases hset
    · rename_i hother
      exact (hext tinfo hother).lapsed (h.cancelled tinfo hset)

theorem Timely.arm (h : Timely s) {f : Fin n} {call : Call} (hcall : s.sys.calls f = some call)
    {now : Nat} {a : Addr} (hforward : Forward s (.fiber f (.arm now a))) {u : State n}
    (hu : s.sys.arm f call now a = some u) :
    Timely { (s.read now).wait call.tinfo now with sys := u } := by
  obtain ⟨hclock, hfits⟩ := hforward
  have hwait := (h.read hclock).wait call.tinfo now
  obtain ⟨hinfo, hlimit, hbegun⟩ := h.calls f call hcall
  unfold State.arm at hu
  split at hu
  · cases hu
    exact hwait.become (x := some { call with timer := none, pc := .register }) hcall
      (fun _ hnew => Option.some.inj hnew ▸ ⟨rfl, rfl, fun _ ha => by cases ha⟩)
      rfl rfl rfl rfl rfl rfl rfl
  · rename_i hfinite
    split at hu
    · cases hu
    · rename_i ha
      cases hu
      have hmem : now ∈ ((s.read now).wait call.tinfo now).waits call.tinfo := by
        rw [wait_waits, if_pos rfl]
        exact List.mem_cons_self
      have hmeasures : ((s.read now).wait call.tinfo now).Measures
          (.new now call.timeout (some (s.sys.lastCb + 1)) false) call.tinfo := by
        refine ⟨rfl, now, ⟨?_, hmem, hbegun.trans hclock⟩, ?_⟩
        · exact fun heq => hfinite (hlimit.symm.trans heq)
        · exact (Nat.mod_eq_of_lt (hfits call hcall hfinite)).trans (by rw [← hlimit]; rfl)
      have hadd := hwait.addTimer now call.timeout false (Bool.eq_false_of_not_eq_true ha)
        fun c (hc : some call.closure = some c) => Option.some.inj hc ▸ ⟨hinfo, hmeasures⟩
      refine hadd.become (x := some { call with timer := some a, pc := .register }) hcall
        (fun _ hnew => Option.some.inj hnew ▸ ⟨rfl, rfl, fun b hb => ?_⟩)
        rfl rfl rfl rfl rfl rfl rfl
      cases hb
      exact Function.update_self _ _ _

theorem Timely.cancelTimer (h : Timely s) {f : Fin n} {call : Call}
    (hcall : s.sys.calls f = some call) {u : State n} (hu : s.sys.cancelTimer f call = .ok u) :
    Timely { s with sys := u } := by
  have hnext : ∀ v : State n, Timely { s with sys := v } → v.calls f = some call →
      Timely { s with
        sys := if call.pc = .failed then v.become f none else v.at f call .test } := by
    intro v hv hvcall
    split
    · exact hv.finish hvcall
    · exact hv.at hvcall .test
  unfold State.cancelTimer at hu
  dsimp only at hu
  split at hu
  · cases hu
    exact hnext s.sys h hcall
  · rename_i a htimer
    split at hu <;> cases hu
    rename_i r hr
    exact hnext _ (h.cancel (h.owned f call a hcall htimer) hr) hcall

/-- Every access of a fiber but the start of a wait. -/
theorem Timely.access (h : Timely s) {f : Fin n} {call : Call} (hcall : s.sys.calls f = some call)
    {access : Access} (hwait : ∀ now a, access ≠ .arm now a) {u : State n}
    (hu : s.sys.access f call access = some (.ok u)) : Timely { s with sys := u } := by
  cases access with
  | arm now a => exact absurd rfl (hwait now a)
  | issue again =>
      simp only [State.access] at hu
      split at hu <;> cases hu
      cases again
      · exact h.finish hcall
      · exact h.at hcall .arm
  | register granted =>
      simp only [State.access] at hu
      split at hu
      · have hu := Option.some.inj hu
        unfold State.register at hu
        split at hu <;> cases hu
        rename_i r hr
        exact h.become (x := some { call with pc := if r.1 = 0 then .yield else .failed }) hcall
          (fun _ hnew => Option.some.inj hnew ▸ ⟨rfl, rfl, fun a ha => h.owned f call a hcall ha⟩)
          rfl rfl rfl rfl rfl rfl rfl
      · cases hu
  | yield =>
      simp only [State.access] at hu
      split at hu <;> cases hu
      exact h.at hcall .suspended
  | resume =>
      simp only [State.access] at hu
      split at hu <;> cases hu
      exact h.become (x := some { call with pc := .resumed }) hcall
        (fun _ hnew => Option.some.inj hnew ▸ ⟨rfl, rfl, fun a ha => h.owned f call a hcall ha⟩)
        rfl rfl rfl rfl rfl rfl rfl
  | cancelTimer =>
      simp only [State.access] at hu
      split at hu
      · exact h.cancelTimer hcall (Option.some.inj hu)
      · cases hu
  | test =>
      simp only [State.access] at hu
      split at hu <;> cases hu
      unfold State.test
      split
      · exact h.finish hcall
      · exact h.at hcall .issue

/-! ## Every run -/

theorem timely_next (h : Timely s) {a : Action n} (hforward : Forward s a) {u : State n}
    (hu : Timeout.op s.sys a = some (.ok u)) : Timely (s.next u a) := by
  cases a with
  | begin f routine fd timeout =>
      simp only [Timeout.op] at hu
      split at hu <;> cases hu
      exact h.begin f routine fd timeout
  | fiber f access =>
      simp only [Timeout.op] at hu
      obtain ⟨call, hcall, hu⟩ := Option.bind_eq_some_iff.mp hu
      cases access with
      | arm now a =>
          simp only [State.access] at hu
          split at hu
          · obtain ⟨v, hv, heq⟩ := Option.map_eq_some_iff.mp hu
            cases heq
            rw [next_arm s u hcall]
            exact h.arm hcall hforward hv
          · cases hu
      | issue again => exact h.access hcall (fun _ _ heq => by cases heq) hu
      | register granted => exact h.access hcall (fun _ _ heq => by cases heq) hu
      | yield => exact h.access hcall (fun _ _ heq => by cases heq) hu
      | resume => exact h.access hcall (fun _ _ heq => by cases heq) hu
      | cancelTimer => exact h.access hcall (fun _ _ heq => by cases heq) hu
      | test => exact h.access hcall (fun _ _ heq => by cases heq) hu
  | expire now probe =>
      simp only [Timeout.op] at hu
      split at hu
      · cases hu
      · rename_i hprobe
        have hread := h.read hforward
        obtain ⟨m, hrun, hexp, hprevious⟩ := hread.timers.listExpiredCb
          (h.previouse.trans hforward) (Bool.eq_false_of_not_eq_true hprobe)
        have hrun : s.sys.timers.listExpiredCb now probe = _ := hrun
        rw [hrun] at hu
        cases hu
        exact hread.handOut hexp hprevious
  | job job granted =>
      simp only [Timeout.op] at hu
      split at hu
      · rename_i hjob
        exact h.runJob hjob (Option.some.inj hu)
      · cases hu
  | dispatch fd report granted =>
      simp only [Timeout.op] at hu
      split at hu <;> cases hu
      exact h.work rfl rfl rfl rfl rfl (fun job hjob => ⟨job, hjob, rfl⟩) h.cancelled
  | cancelAll fd granted =>
      simp only [Timeout.op] at hu
      split at hu <;> cases hu
      exact h.work rfl rfl rfl rfl rfl (fun job hjob => ⟨job, hjob, rfl⟩) h.cancelled
  | addTimer now a ms recurring =>
      simp only [Timeout.op] at hu
      split at hu <;> cases hu
      rename_i ha
      exact (h.read hforward).addTimer now ms recurring (Bool.eq_false_of_not_eq_true ha)
        fun c (hc : none = some c) => by cases hc

theorem timely_preserved : Preserves (step : _ → Action n → _) (onOk Forward)
    (Holds Timely fun _ => True) := by
  refine preserves_abortable fun s a r h hforward hr => ?_
  obtain ⟨r, hop, rfl⟩ := Option.map_eq_some_iff.mp hr
  cases r with
  | error e => trivial
  | ok u => exact timely_next h hforward hop

/-- A call of `do_io` or `connect_with_timeout` whose `cancelled` is set, so that it fails with
`ETIMEDOUT` when it is resumed, has a timeout, and one of its own waits has lasted it: however
its steps interleave with the expiry of timers, late callbacks, reports and closes. -/
theorem timeouts_elapsed {n now : Nat} {s : Dated n}
    (h : Reaches step (onOk Forward) (.ok (.init n now)) (.ok s)) {f : Fin n} {call : Call}
    (hcall : s.sys.calls f = some call) (hset : s.sys.cancelled call.tinfo = true) :
    call.timeout ≠ noTimeout ∧ ∃ start ∈ s.waits call.tinfo,
      s.begun call.tinfo ≤ start ∧ start + call.timeout ≤ s.clock := by
  have htimely : Timely s := h.invariant timely_preserved (timely_init n now)
  obtain ⟨-, hlimit, -⟩ := htimely.calls f call hcall
  obtain ⟨start, hw, hend⟩ := htimely.cancelled call.tinfo hset
  rw [hlimit] at hend
  exact ⟨hlimit ▸ hw.finite, start, hw.mem, hw.begun, hend⟩

/-- A report comes at the time of the timer; `cancel` finds its callback handed out, and that
strikes while `do_io` waits again. -/
def lateRun : List (Action 2) :=
  [.begin 0 (.doIo false) 5 10, .fiber 0 (.issue true), .fiber 0 (.arm 0 7),
    .fiber 0 (.register true), .fiber 0 .yield, .dispatch 5 Epoll.epollIn true, .expire 10 8,
    .fiber 0 .resume, .fiber 0 .cancelTimer, .fiber 0 .test, .fiber 0 (.issue true),
    .fiber 0 (.arm 12 9), .fiber 0 (.register true), .fiber 0 .yield,
    .job ⟨⟨1, 5, .read⟩, .lock⟩ true, .job ⟨⟨1, 5, .read⟩, .test⟩ true,
    .job ⟨⟨1, 5, .read⟩, .set⟩ true]

theorem timeouts_elapsed_late :
    ∃ (s : Dated 2) (call : Call), Reaches step (onOk Forward) (.ok (.init 2 0)) (.ok s) ∧
      s.sys.calls 0 = some call ∧ s.sys.cancelled call.tinfo = true ∧
      s.waits call.tinfo = [12, 0] ∧ call.timeout = 10 ∧ s.clock = 12 ∧
      ∃ start ∈ s.waits call.tinfo,
        s.begun call.tinfo ≤ start ∧ start + call.timeout ≤ s.clock := by
  have hrun : (checkedRun step (fun s a => decide (onOk Forward s a)) (.ok (.init 2 0))
      lateRun).any (okAnd fun s => decide (((s.sys.calls 0).any fun call =>
          decide (s.sys.cancelled call.tinfo = true ∧ s.waits call.tinfo = [12, 0] ∧
            call.timeout = 10)) = true ∧ s.clock = 12)) := by decide
  obtain ⟨s, hr, hcall, hclock⟩ := exists_ok_of_any hrun
  obtain ⟨call, hcall, hset, hwaits, htimeout⟩ := exists_some_of_any hcall
  have hreached : Reaches step (onOk Forward) (.ok (.init 2 0)) (.ok s) := .of_decidedRun hr
  exact ⟨s, call, hreached, hcall, hset, hwaits, htimeout, hclock,
    (timeouts_elapsed hreached hcall hset).2⟩

end Sylar.Elapsed
