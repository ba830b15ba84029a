import Sylar.Config.Load

/-! # The result of `ConfigVar::fromString`

One call, with a record of the calls of the listeners. `fromString` is to be all or nothing
and to report which; it returns `false` in any case, and a listener that throws has already
been told of the value that is not stored.
-/

namespace Sylar.Load

variable {W ε : Type}

/-! ## A record of the calls -/

/-- A call of the listener at a position of `m_cbs`. -/
structure Told (T : Type) where
  listener : Nat
  old : T
  new : T
  deriving DecidableEq, Repr

/-- A listener that notes its calls beside the state of the program. -/
def noting {T : Type} (i : Nat) (cb : T → T → W → Except ε Unit × W) (old new : T)
    (world : W × List (Told T)) : Except ε Unit × (W × List (Told T)) :=
  ((cb old new world.1).1, (cb old new world.1).2, world.2 ++ [⟨i, old, new⟩])

def notingAll {T : Type} (i : Nat) :
    List (T → T → W → Except ε Unit × W) →
      List (T → T → W × List (Told T) → Except ε Unit × (W × List (Told T)))
  | [] => []
  | cb :: cbs => noting i cb :: notingAll (i + 1) cbs

/-- The variable with a record of the calls of its listeners. -/
def ConfigVar.noted (v : ConfigVar W ε) : ConfigVar (W × List (Told v.T)) ε where
  T := v.T
  eq := v.eq
  fromStr := v.fromStr
  val := v.val
  cbs := notingAll 0 v.cbs

def toldAll {T : Type} (i n : Nat) (old new : T) : List (Told T) :=
  (List.range' i n).map fun k => ⟨k, old, new⟩

/-- The loop makes its calls in order up to the first listener that throws, which is called. -/
theorem notify_noting {T : Type} (old new : T) (cbs : List (T → T → W → Except ε Unit × W))
    (i : Nat) (world : W) (log : List (Told T)) :
    ∃ n ≤ cbs.length,
      notify old new (notingAll i cbs) (world, log) =
        ((notify old new cbs world).1, (notify old new cbs world).2,
          log ++ toldAll i n old new) ∧
      ((notify old new cbs world).1 = .ok () → n = cbs.length) ∧
      ((notify old new cbs world).1 ≠ .ok () → 0 < n) := by
  induction cbs generalizing i world log with
  | nil => exact ⟨0, le_rfl, by simp [notify, notingAll, toldAll], by simp, by simp [notify]⟩
  | cons cb cbs ih =>
      cases hcb : cb old new world with
      | mk result world' =>
          cases result with
          | ok result =>
              obtain ⟨n, hn, heq, hall, hsome⟩ := ih (i + 1) world' (log ++ [⟨i, old, new⟩])
              refine ⟨n + 1, Nat.succ_le_succ hn, ?_, ?_, fun _ => Nat.succ_pos n⟩
              · simp [notify, notingAll, noting, hcb, heq, toldAll, List.range'_succ]
              · simpa [notify, hcb] using hall
          | error e =>
              refine ⟨1, Nat.succ_le_succ (Nat.zero_le _), ?_, ?_, fun _ => Nat.one_pos⟩
              · simp [notify, notingAll, noting, hcb, toldAll]
              · simp [notify, hcb]

/-! ## All or nothing -/

def ConfigVar.Accepts (v : ConfigVar W ε) (text : String) (world : W) : Prop :=
  ∃ val, v.fromStr text = .ok val ∧ (v.setValue val world).1 = .ok ()

/-- What the result of `fromString` says, of the variable and of the calls of its listeners. -/
structure ConfigVar.AllOrNothing (v : ConfigVar W ε) (text : String) (world : W) : Prop where
  returns : (v.noted.fromString text (world, [])).1 = true ↔ v.Accepts text world
  stored : (v.noted.fromString text (world, [])).1 = true →
    ∀ val, v.fromStr text = .ok val →
      (v.noted.fromString text (world, [])).2.1 = { v.noted with val := val } ∧
        (v.eq val v.val = false →
          (v.noted.fromString text (world, [])).2.2.2 = toldAll 0 v.cbs.length v.val val)
  refused : (v.noted.fromString text (world, [])).1 = false →
    (v.noted.fromString text (world, [])).2.1 = v.noted ∧
      ∀ call ∈ (v.noted.fromString text (world, [])).2.2.2, v.eq call.new v.val = true

theorem fromString_fst (v : ConfigVar W ε) (text : String) (world : W) :
    (v.fromString text world).1 = false := by
  unfold ConfigVar.fromString
  split <;> rfl

theorem fromString_of_ok {v : ConfigVar W ε} {text : String} {val : v.T} (world : W)
    (hval : v.fromStr text = .ok val) :
    v.fromString text world = (false, (v.setValue val world).2) := by
  rw [ConfigVar.fromString, hval]

theorem setValue_of_ok {v : ConfigVar W ε} {val : v.T} {world world' : W}
    (hne : v.eq val v.val = false)
    (h : notify v.val val v.cbs world = (.ok (), world')) :
    v.setValue val world = (.ok (), { v with val := val }, world') := by
  rw [ConfigVar.setValue, if_neg (ne_true_of_eq_false hne), h]

theorem setValue_of_error {v : ConfigVar W ε} {val : v.T} {world world' : W} {e : ε}
    (hne : v.eq val v.val = false)
    (h : notify v.val val v.cbs world = (.error e, world')) :
    v.setValue val world = (.error e, v, world') := by
  rw [ConfigVar.setValue, if_neg (ne_true_of_eq_false hne), h]

/-- What becomes of a new value, and which listeners are told of it. -/
theorem fromString_of_new {v : ConfigVar W ε} {text : String} {val : v.T} (world : W)
    (hval : v.fromStr text = .ok val) (hne : v.eq val v.val = false) :
    ∃ n ≤ v.cbs.length,
      (v.noted.fromString text (world, [])).2.2.2 = toldAll 0 n v.val val ∧
      ((notify v.val val v.cbs world).1 = .ok () →
        n = v.cbs.length ∧
          (v.noted.fromString text (world, [])).2.1 = { v.noted with val := val }) ∧
      ((notify v.val val v.cbs world).1 ≠ .ok () →
        0 < n ∧ (v.noted.fromString text (world, [])).2.1 = v.noted) := by
  obtain ⟨n, hn, heq, hall, hsome⟩ := notify_noting v.val val v.cbs 0 world []
  have hconv : v.noted.fromString text (world, []) =
      (false, (v.noted.setValue val (world, [])).2) := fromString_of_ok (v := v.noted) _ hval
  refine ⟨n, hn, ?_⟩
  cases hresult : (notify v.val val v.cbs world).1 with
  | ok result =>
      rw [hresult] at heq
      rw [hconv, setValue_of_ok (v := v.noted) hne heq]
      exact ⟨rfl, fun _ => ⟨hall hresult, rfl⟩, fun hthrown => (hthrown rfl).elim⟩
  | error e =>
      have hthrown : (notify v.val val v.cbs world).1 ≠ .ok () := by
        rw [hresult]
        exact fun hok => (by cases hok)
      rw [hresult] at heq
      rw [hconv, setValue_of_error (v := v.noted) hne heq]
      exact ⟨rfl, fun hok => (by cases hok), fun _ => ⟨hsome hthrown, rfl⟩⟩

/-- A new value that no listener refuses is stored, and every listener is told of it once. -/
theorem fromString_of_accepted {v : ConfigVar W ε} {text : String} {val : v.T} {world : W}
    (hval : v.fromStr text = .ok val) (hne : v.eq val v.val = false)
    (hnotify : (notify v.val val v.cbs world).1 = .ok ()) :
    (v.noted.fromString text (world, [])).2.1 = { v.noted with val := val } ∧
      (v.noted.fromString text (world, [])).2.2.2 = toldAll 0 v.cbs.length v.val val := by
  obtain ⟨n, -, htold, hstored, -⟩ := fromString_of_new world hval hne
  obtain ⟨hn, hvar⟩ := hstored hnotify
  exact ⟨hvar, hn ▸ htold⟩

/-- Where a listener throws, one was told of the value that is not stored. -/
theorem fromString_of_thrown {v : ConfigVar W ε} {text : String} {val : v.T} {world : W}
    (hval : v.fromStr text = .ok val) (hne : v.eq val v.val = false)
    (hnotify : (notify v.val val v.cbs world).1 ≠ .ok ()) :
    ⟨0, v.val, val⟩ ∈ (v.noted.fromString text (world, [])).2.2.2 := by
  obtain ⟨n, -, htold, -, hthrown⟩ := fromString_of_new world hval hne
  have hfirst : 0 ∈ List.range' 0 n := List.mem_range'_1.mpr ⟨le_rfl, by
    have := (hthrown hnotify).1
    omega⟩
  rw [htold]
  exact List.mem_map.mpr ⟨0, hfirst, rfl⟩

/-- `fromString` is all or nothing, and says so, exactly where the conversion throws. -/
theorem fromString_allOrNothing_iff (v : ConfigVar W ε) (text : String) (world : W) :
    v.AllOrNothing text world ↔ (v.fromStr text).isOk = false := by
  constructor
  · intro h
    cases hval : v.fromStr text with
    | error e => rfl
    | ok val =>
        have hreturned := fromString_fst v.noted text (world, [])
        have hrefused : ¬ v.Accepts text world := by
          intro haccepts
          rw [h.returns.mpr haccepts] at hreturned
          cases hreturned
        have hthrown : (v.setValue val world).1 ≠ .ok () := fun hok => hrefused ⟨val, hval, hok⟩
        unfold ConfigVar.setValue at hthrown
        split at hthrown
        · exact (hthrown rfl).elim
        · rename_i hne
          have hne := Bool.eq_false_of_not_eq_true hne
          have hnotify : (notify v.val val v.cbs world).1 ≠ .ok () := by
            intro hok
            split at hthrown
            · exact hthrown rfl
            · rename_i hresult
              rw [hresult] at hok
              cases hok
          -- it was told of `val`
          have htold := (h.refused hreturned).2 _ (fromString_of_thrown hval hne hnotify)
          rw [hne] at htold
          cases htold
  · intro herror
    have hresult : v.noted.fromString text (world, []) = (false, v.noted, world, []) :=
      fromString_of_error (v := v.noted) (world, []) herror
    refine ⟨?_, fun htrue => ?_, fun _ => ?_⟩
    · rw [hresult]
      refine ⟨fun htrue => (by cases htrue), fun haccepts => ?_⟩
      obtain ⟨val, hval, -⟩ := haccepts
      rw [hval] at herror
      cases herror
    · rw [hresult] at htrue
      cases htrue
    · rw [hresult]
      exact ⟨rfl, fun call hcall => absurd hcall List.not_mem_nil⟩

/-- `tcp.connect.timeout` at its default, with listeners. -/
def timeoutVar (cbs : List (Nat → Nat → Unit → Except Unit Unit × Unit)) : ConfigVar Unit Unit where
  T := Nat
  eq := fun a b => decide (a = b)
  fromStr := fun text => if text = "100" then .ok 100 else .error ()
  val := 5000
  cbs := cbs

def accepting (_ _ : Nat) (world : Unit) : Except Unit Unit × Unit := (.ok (), world)

def throwing (_ _ : Nat) (world : Unit) : Except Unit Unit × Unit := (.error (), world)

/-- A value that was stored is denied, and a value that was not stored was announced. -/
theorem fromString_denies_and_announces :
    (timeoutVar [accepting]).noted.fromString "100" ((), []) =
        (false, { (timeoutVar [accepting]).noted with val := (100 : Nat) }, (),
          [⟨0, (5000 : Nat), (100 : Nat)⟩]) ∧
      ¬ (timeoutVar [accepting]).AllOrNothing "100" () ∧
      (timeoutVar [accepting, throwing]).noted.fromString "100" ((), []) =
        (false, (timeoutVar [accepting, throwing]).noted, (),
          [⟨0, (5000 : Nat), (100 : Nat)⟩, ⟨1, (5000 : Nat), (100 : Nat)⟩]) ∧
      ¬ (timeoutVar [accepting, throwing]).AllOrNothing "100" () := by
  refine ⟨rfl, fun h => ?_, rfl, fun h => ?_⟩
  · have hreturned : false = true := h.returns.mpr ⟨(100 : Nat), rfl, rfl⟩
    cases hreturned
  · have hstored : false = true := (h.refused rfl).2 ⟨0, (5000 : Nat), (100 : Nat)⟩ (.head _)
    cases hstored

end Sylar.Load
