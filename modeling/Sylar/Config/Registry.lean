import Sylar.Collection.Update
import Sylar.Config.Load
import Sylar.Transition.Run

/-! # The registry of variables

`Config` and the members of `ConfigVar`, with the variables as objects that are named by their
addresses. A call is a section under one lock, `setValue` two; any listener of a change may throw.

What a call answers is compared with what the history of calls promises: the first `Lookup` of a
name makes the variable that every later one finds, a variable has the value that was assigned
last, and a change is told to the listeners that were added and not taken away.
-/

namespace Sylar.Registry

open Transition
open Load (validName)

variable {τ ι κ : Type} {V : τ → Type}

/-! ## State -/

abbrev Value (V : τ → Type) := (t : τ) × V t

/-- `ConfigVar<T>`; the listeners in the order of `std::map`. -/
structure Var (V : τ → Type) (κ : Type) where
  name : String
  val : Value V
  cbs : List (Nat × κ)

/-- `GetDatas()`, the variables by address, `s_fun_id` of every type, and the threads that are
between the two sections of `setValue`. -/
structure Config (V : τ → Type) (ι κ : Type) where
  datas : List (String × Nat)
  vars : List (Var V κ)
  funIds : τ → Nat
  pending : ι → Option (Nat × Value V)

def Config.init : Config V ι κ := ⟨[], [], fun _ => 0, fun _ => none⟩

inductive Call (V : τ → Type) (κ : Type) where
  /-- `Lookup(name, default_vale, description)` -/
  | lookup (name : String) (default : Value V)
  /-- `Lookup(name)` -/
  | find (name : String) (t : τ)
  | lookupBase (name : String)
  /-- in the order of `std::unordered_map` -/
  | visit (order : List (String × Nat))
  | getValue (p : Nat)
  /-- the read-locked section of `setValue`; the listener at the position `thrown` throws -/
  | compare (p : Nat) (val : Value V) (thrown : Option Nat)
  /-- the write-locked section -/
  | assign (p : Nat) (val : Value V)
  /-- `ConfigVar<T>::addListener` -/
  | addListener (t : τ) (p : Nat) (cb : κ)
  | delListener (p key : Nat)
  | getListener (p key : Nat)
  | clearListener (p : Nat)

inductive Answer (V : τ → Type) (κ : Type) where
  | pointer (p : Option Nat)
  | invalidArgument
  | pointers (ps : List Nat)
  | value (val : Value V)
  /-- the listeners that are called, with the old and the new value -/
  | told (calls : List (κ × Value V × Value V))
  | key (key : Nat)
  | listener (cb : Option κ)
  | done

/-! ## The calls -/

/-- `m_cbs[key] = cb`. -/
def assignKey (key : Nat) (cb : κ) : List (Nat × κ) → List (Nat × κ)
  | [] => [(key, cb)]
  | e :: es =>
      if key < e.1 then (key, cb) :: e :: es
      else if key = e.1 then (key, cb) :: es
      else e :: assignKey key cb es

/-- `GetDatas().find(name)`. -/
def Config.named (r : Config V ι κ) (name : String) : Option Nat :=
  (r.datas.find? fun e => decide (e.1 = name)).map Prod.snd

/-- The listeners of a change up to one that throws, which ends the loop. -/
def told (thrown : Option Nat) (cbs : List (Nat × κ)) (old new : Value V) :
    List (κ × Value V × Value V) :=
  let called := match thrown with
    | none => cbs
    | some i => cbs.take (i + 1)
  called.map fun e => (e.2, old, new)

section Calls

variable [DecidableEq τ]

/-- `std::dynamic_pointer_cast<ConfigVar<T>>`. -/
def Config.cast (r : Config V ι κ) (p : Option Nat) (t : τ) : Option Nat :=
  p.filter fun q => decide (r.vars[q]?.map (fun v => v.val.1) = some t)

variable [∀ t, DecidableEq (V t)] [DecidableEq ι]

/-- A call of the thread `th`. One through a pointer that was never handed out, with a value of
another type or out of turn is not made. -/
def Config.call (r : Config V ι κ) (th : ι) : Call V κ → Option (Answer V κ × Config V ι κ)
  | .lookup name default =>
      match r.named name with
      | some p => some (.pointer (r.cast (some p) default.1), r)
      | none =>
          if validName name then
            some (.pointer (some r.vars.length), { r with
              datas := r.datas ++ [(name, r.vars.length)]
              vars := r.vars ++ [⟨name.toLower, default, []⟩] })
          else some (.invalidArgument, r)
  | .find name t => some (.pointer (r.cast (r.named name) t), r)
  | .lookupBase name => some (.pointer (r.named name), r)
  | .visit order =>
      if order.Perm r.datas then some (.pointers (order.map Prod.snd), r) else none
  | .getValue p => r.vars[p]?.map fun v => (.value v.val, r)
  | .compare p val thrown =>
      r.vars[p]?.bind fun v =>
        if v.val.1 ≠ val.1 ∨ r.pending th ≠ none ∨ ∃ i ∈ thrown, v.cbs.length ≤ i then none
        else if val = v.val then some (.told [], r)
        else some (.told (told thrown v.cbs v.val val),
          -- an exception leaves `setValue`
          if thrown = none then
            { r with pending := Function.update r.pending th (some (p, val)) }
          else r)
  | .assign p val =>
      r.vars[p]?.bind fun v =>
        if r.pending th = some (p, val) then
          some (.done, { r with
            vars := r.vars.set p { v with val := val }
            pending := Function.update r.pending th none })
        else none
  | .addListener t p cb =>
      r.vars[p]?.bind fun v =>
        if v.val.1 = t then
          let key := (r.funIds t + 1) % 2 ^ 64
          some (.key key, { r with
            vars := r.vars.set p { v with cbs := assignKey key cb v.cbs }
            funIds := Function.update r.funIds t key })
        else none
  | .delListener p key =>
      r.vars[p]?.map fun v => (.done,
        { r with vars := r.vars.set p { v with cbs := v.cbs.filter fun e => e.1 ≠ key } })
  | .getListener p key =>
      r.vars[p]?.map fun v =>
        (.listener ((v.cbs.find? fun e => decide (e.1 = key)).map Prod.snd), r)
  | .clearListener p =>
      r.vars[p]?.map fun v => (.done, { r with vars := r.vars.set p { v with cbs := [] } })

end Calls

/-- The 64 bits of the counter of keys have room for one more. -/
def Config.InKeys (r : Config V ι κ) : Call V κ → Prop
  | .addListener t _ _ => r.funIds t + 1 < 2 ^ 64
  | _ => True

/-! ## What the history promises -/

abbrev History (V : τ → Type) (κ : Type) := List (Call V κ × Answer V κ)

def making (name : String) : Call V κ × Answer V κ → Option (Value V × Nat)
  | (.lookup name' default, .pointer (some p)) => if name' = name then some (default, p) else none
  | _ => none

/-- The first `Lookup` of the name that returned a variable: its default and the variable. -/
def maker (log : History V κ) (name : String) : Option (Value V × Nat) :=
  log.findSome? (making name)

def storing (p : Nat) (val : Option (Value V)) : Call V κ × Answer V κ → Option (Value V)
  | (.lookup _ default, .pointer (some q)) => if q = p then val.or (some default) else val
  | (.assign q new, _) => if q = p then some new else val
  | _ => val

/-- The value of a variable: the default of the `Lookup` that first returned it, then what was
assigned. -/
def stored (p : Nat) (log : History V κ) : Option (Value V) := log.foldl (storing p) none

def living (p : Nat) (cbs : List (Nat × κ)) : Call V κ × Answer V κ → List (Nat × κ)
  | (.addListener _ q cb, .key key) => if q = p then cbs ++ [(key, cb)] else cbs
  | (.delListener q key, _) => if q = p then cbs.filter fun e => e.1 ≠ key else cbs
  | (.clearListener q, _) => if q = p then [] else cbs
  | _ => cbs

/-- The listeners of a variable in the order in which they were added, without those that were
taken away. -/
def live (p : Nat) (log : History V κ) : List (Nat × κ) := log.foldl (living p) []

section Promises

variable [DecidableEq τ] [∀ t, DecidableEq (V t)]

def found (log : History V κ) (name : String) (t : τ) : Option Nat :=
  ((maker log name).filter fun m => decide (m.1.1 = t)).map Prod.snd

def Promised (log : History V κ) : Call V κ → Answer V κ → Prop
  | .lookup name default, a =>
      if (maker log name).isSome then a = .pointer (found log name default.1)
      else if validName name then
        ∃ p, a = .pointer (some p) ∧ ∀ c, (c, .pointer (some p)) ∉ log
      else a = .invalidArgument
  | .find name t, a => a = .pointer (found log name t)
  | .lookupBase name, a => a = .pointer ((maker log name).map Prod.snd)
  | .visit _, a => ∃ ps, a = .pointers ps ∧ ps.Nodup ∧
      ∀ p, p ∈ ps ↔ ∃ name default, maker log name = some (default, p)
  | .getValue p, a => ∃ val, stored p log = some val ∧ a = .value val
  | .compare p val thrown, a => ∃ old, stored p log = some old ∧ old.1 = val.1 ∧
      a = .told (if val = old then [] else told thrown (live p log) old val)
  | .assign p val, a => a = .done ∧ ∃ old, stored p log = some old ∧ old.1 = val.1
  | .addListener t _ _, a => ∃ key, a = .key key ∧
      ∀ q cb key', (.addListener t q cb, .key key') ∈ log → key' < key
  | .getListener p key, a =>
      a = .listener (((live p log).find? fun e => decide (e.1 = key)).map Prod.snd)
  | .delListener _ _, a | .clearListener _, a => a = .done

/-- Every answer so far was promised by the calls before it. -/
def Kept (log : History V κ) : Prop :=
  ∀ pre e post, log = pre ++ e :: post → Promised pre e.1 e.2

theorem Kept.concat (h : Kept log) {e : Call V κ × Answer V κ} (he : Promised log e.1 e.2) :
    Kept (log ++ [e]) := by
  intro pre x post heq
  obtain rfl | ⟨post, y, rfl⟩ := List.eq_nil_or_concat' post
  · obtain ⟨hpre, hx⟩ := List.append_inj' heq rfl
    cases hx
    exact hpre ▸ he
  · rw [← List.cons_append, ← List.append_assoc] at heq
    exact h pre x post (List.append_inj_left' heq rfl)

end Promises

/-! ## The state behind the history -/

theorem assignKey_append {key : Nat} {cbs : List (Nat × κ)} (h : ∀ e ∈ cbs, e.1 < key) (cb : κ) :
    assignKey key cb cbs = cbs ++ [(key, cb)] := by
  induction cbs with
  | nil => rfl
  | cons e es ih =>
      have he : e.1 < key := h e List.mem_cons_self
      rw [assignKey, if_neg (by omega), if_neg (by omega),
        ih fun e' he' => h e' (List.mem_cons_of_mem e he')]
      rfl

theorem maker_append (log : History V κ) (e : Call V κ × Answer V κ) (name : String) :
    maker (log ++ [e]) name = (maker log name).or (making name e) := by
  simp [maker]

theorem stored_append (p : Nat) (log : History V κ) (e : Call V κ × Answer V κ) :
    stored p (log ++ [e]) = storing p (stored p log) e := by
  simp [stored]

theorem live_append (p : Nat) (log : History V κ) (e : Call V κ × Answer V κ) :
    live p (log ++ [e]) = living p (live p log) e := by
  simp [live]

/-- The registry is what the history says. -/
structure Represents (r : Config V ι κ) (log : History V κ) : Prop where
  named : ∀ name, r.named name = (maker log name).map Prod.snd
  typed : ∀ name d p, maker log name = some (d, p) → ∃ v, r.vars[p]? = some v ∧ v.val.1 = d.1
  stored : ∀ p, r.vars[p]?.map Var.val = stored p log
  live : ∀ p v, r.vars[p]? = some v → v.cbs = live p log
  unborn : ∀ p, r.vars.length ≤ p → Registry.live p log = []
  returned : ∀ c p, (c, .pointer (some p)) ∈ log → p < r.vars.length
  listed : r.datas.map Prod.snd = List.range r.vars.length
  names : (r.datas.map Prod.fst).Nodup
  keys : ∀ t q cb key, (.addListener t q cb, .key key) ∈ log → key ≤ r.funIds t
  held : ∀ (p : Nat) (v : Var V κ), r.vars[p]? = some v → ∀ e ∈ v.cbs, e.1 ≤ r.funIds v.val.1
  pending : ∀ th p val, r.pending th = some (p, val) →
    ∃ v, r.vars[p]? = some v ∧ v.val.1 = val.1

variable {r : Config V ι κ} {log : History V κ}

theorem Represents.stored_eq (h : Represents r log) {p : Nat} {v : Var V κ}
    (hv : r.vars[p]? = some v) : Registry.stored p log = some v.val := by
  rw [← h.stored, hv]
  rfl

/-- A call that changes no variable and tells the history nothing new. -/
theorem Represents.quiet (h : Represents r log) {e : Call V κ × Answer V κ}
    (hmaker : ∀ name, maker (log ++ [e]) name = maker log name)
    (hstored : ∀ p, Registry.stored p (log ++ [e]) = Registry.stored p log)
    (hlive : ∀ p, Registry.live p (log ++ [e]) = Registry.live p log)
    (hpointer : ∀ p, e.2 = .pointer (some p) → p < r.vars.length)
    (hkey : ∀ key, e.2 ≠ .key key) : Represents r (log ++ [e]) where
  named name := by rw [hmaker, h.named]
  typed name d p hd := h.typed name d p (by rwa [hmaker] at hd)
  stored p := by rw [hstored, h.stored]
  live p v hv := by rw [hlive, h.live p v hv]
  unborn p hp := by rw [hlive, h.unborn p hp]
  returned c p hp := by
    rcases List.mem_append.mp hp with hp | hp
    · exact h.returned c p hp
    · exact hpointer p (congrArg Prod.snd (List.mem_singleton.mp hp)).symm
  listed := h.listed
  names := h.names
  keys t q cb key hk := by
    rcases List.mem_append.mp hk with hk | hk
    · exact h.keys t q cb key hk
    · exact (hkey key (congrArg Prod.snd (List.mem_singleton.mp hk)).symm).elim
  held := h.held
  pending := h.pending

/-- A call that writes one variable, whose type stays. -/
theorem Represents.write (h : Represents r log) {e : Call V κ × Answer V κ} {p : Nat}
    {v w : Var V κ} (hv : r.vars[p]? = some v) (htype : w.val.1 = v.val.1)
    {funIds : τ → Nat} {pending : ι → Option (Nat × Value V)}
    (hmaker : ∀ name, making name e = none) (hstored : storing p (some v.val) e = some w.val)
    (hlive : living p v.cbs e = w.cbs)
    (hother : ∀ q, q ≠ p → (∀ val, storing q val e = val) ∧ ∀ cbs, living q cbs e = cbs)
    (hpointer : ∀ q, e.2 ≠ .pointer q)
    (hkey : ∀ t q cb key, e = (.addListener t q cb, .key key) → key ≤ funIds t)
    (hheld : ∀ x ∈ w.cbs, x.1 ≤ funIds v.val.1) (hids : ∀ t, r.funIds t ≤ funIds t)
    (hpending : ∀ th q val, pending th = some (q, val) → r.pending th = some (q, val)) :
    Represents { r with vars := r.vars.set p w, funIds := funIds, pending := pending }
      (log ++ [e]) := by
  have hlt : p < r.vars.length := (List.getElem?_eq_some_iff.mp hv).1
  have hself : (r.vars.set p w)[p]? = some w := List.getElem?_set_self hlt
  -- every other variable is the same object, and every variable has its type
  have hsame : ∀ q, q ≠ p → (r.vars.set p w)[q]? = r.vars[q]? :=
    fun q hq => List.getElem?_set_ne (Ne.symm hq)
  have htyped : ∀ (q : Nat) (old : Var V κ), r.vars[q]? = some old →
      ∃ u, (r.vars.set p w)[q]? = some u ∧ u.val.1 = old.val.1 := by
    intro q old hold
    by_cases hq : q = p
    · subst hq
      cases hv.symm.trans hold
      exact ⟨w, hself, htype⟩
    · exact ⟨old, (hsame q hq).trans hold, rfl⟩
  have hkept : ∀ name, maker (log ++ [e]) name = maker log name := by
    intro name
    rw [maker_append, hmaker, Option.or_none]
  constructor
  case named => exact fun name => by rw [hkept]; exact h.named name
  case typed =>
    intro name d q hd
    rw [hkept] at hd
    obtain ⟨old, hold, ht⟩ := h.typed name d q hd
    obtain ⟨u, hu, ht'⟩ := htyped q old hold
    exact ⟨u, hu, ht'.trans ht⟩
  case stored =>
    intro q
    rw [stored_append]
    by_cases hq : q = p
    · subst hq
      rw [h.stored_eq hv, hstored]
      exact congrArg (Option.map Var.val) hself
    · rw [(hother q hq).1, ← h.stored]
      exact congrArg (Option.map Var.val) (hsame q hq)
  case live =>
    intro q old hold
    rw [live_append]
    by_cases hq : q = p
    · subst hq
      cases hself.symm.trans hold
      rw [← h.live q v hv, hlive]
    · rw [(hother q hq).2]
      exact h.live q old ((hsame q hq).symm.trans hold)
  case unborn =>
    intro q hq
    rw [List.length_set] at hq
    have hne : q ≠ p := by omega
    rw [live_append, (hother q hne).2, h.unborn q hq]
  case returned =>
    intro c q hc
    rw [List.length_set]
    rcases List.mem_append.mp hc with hc | hc
    · exact h.returned c q hc
    · exact (hpointer _ (congrArg Prod.snd (List.mem_singleton.mp hc)).symm).elim
  case listed => rw [List.length_set]; exact h.listed
  case names => exact h.names
  case keys =>
    intro t q cb key hk
    rcases List.mem_append.mp hk with hk | hk
    · exact (h.keys t q cb key hk).trans (hids t)
    · exact hkey t q cb key (List.mem_singleton.mp hk).symm
  case held =>
    intro q old hold x hx
    by_cases hq : q = p
    · subst hq
      cases hself.symm.trans hold
      exact htype ▸ hheld x hx
    · exact (h.held q old ((hsame q hq).symm.trans hold) x hx).trans (hids _)
  case pending =>
    intro th q val hp
    obtain ⟨old, hold, ht⟩ := h.pending th q val (hpending th q val hp)
    obtain ⟨u, hu, ht'⟩ := htyped q old hold
    exact ⟨u, hu, ht'.trans ht⟩

theorem represents_init : Represents (.init : Config V ι κ) [] where
  named _ := rfl
  typed _ _ _ hd := by cases hd
  stored _ := rfl
  live _ _ hv := by cases hv
  unborn _ _ := rfl
  returned _ _ hc := by cases hc
  listed := rfl
  names := List.nodup_nil
  keys _ _ _ _ hk := by cases hk
  held _ _ hv := by cases hv
  pending _ _ _ hp := by cases hp

theorem getElem?_concat_cases {α : Type*} {l : List α} {x w : α} {q : Nat}
    (h : (l ++ [x])[q]? = some w) : l[q]? = some w ∨ q = l.length ∧ w = x := by
  by_cases hq : q < l.length
  · exact .inl ((List.getElem?_append_left hq).symm.trans h)
  · have hlt := (List.getElem?_eq_some_iff.mp h).1
    rw [List.length_append, List.length_singleton] at hlt
    have heq : q = l.length := by omega
    subst heq
    exact .inr ⟨rfl, (Option.some.inj (List.getElem?_concat_length.symm.trans h)).symm⟩

theorem getElem?_concat_of_some {α : Type*} {l : List α} {w : α} {q : Nat} (x : α)
    (h : l[q]? = some w) : (l ++ [x])[q]? = some w :=
  (List.getElem?_append_left (List.getElem?_eq_some_iff.mp h).1).trans h

theorem Represents.maker_none (h : Represents r log) {name : String} (hname : r.named name = none) :
    maker log name = none := by
  have hmap := h.named name
  rw [hname] at hmap
  exact Option.map_eq_none_iff.mp hmap.symm

/-- The first `Lookup` of a name. -/
theorem maker_lookup {name : String} (hnone : maker log name = none) (default : Value V) (p : Nat)
    (name' : String) : maker (log ++ [(.lookup name default, .pointer (some p))]) name' =
      if name = name' then some (default, p) else maker log name' := by
  rw [maker_append, making]
  split
  · rename_i heq
    rw [← heq, hnone, Option.none_or]
  · rw [Option.or_none]

theorem Config.named_added {name : String} (hname : r.named name = none) (p : Nat)
    (vars : List (Var V κ)) (name' : String) :
    Config.named { r with datas := r.datas ++ [(name, p)], vars := vars } name' =
      if name = name' then some p else r.named name' := by
  change ((r.datas ++ [(name, p)]).find? fun e => decide (e.1 = name')).map _ = _
  rw [List.find?_append, List.find?_singleton]
  by_cases heq : name = name'
  · subst heq
    have hfind : r.datas.find? (fun e => decide (e.1 = name)) = none :=
      Option.map_eq_none_iff.mp hname
    simp [hfind]
  · simp [heq, Config.named]

theorem Config.names_added {name : String} (hname : r.named name = none)
    (hnames : (r.datas.map Prod.fst).Nodup) (p : Nat) :
    ((r.datas ++ [(name, p)]).map Prod.fst).Nodup := by
  rw [List.map_append, List.map_singleton, List.nodup_append]
  refine ⟨hnames, List.nodup_singleton name, fun a ha b hb hab => ?_⟩
  obtain ⟨x, hx, rfl⟩ := List.mem_map.mp ha
  rw [List.mem_singleton.mp hb] at hab
  have hfind := List.find?_eq_none.mp (Option.map_eq_none_iff.mp hname) x hx
  exact hfind (decide_eq_true hab)

theorem Represents.make (h : Represents r log) {name : String} (hname : r.named name = none)
    (default : Value V) :
    Represents { r with
        datas := r.datas ++ [(name, r.vars.length)]
        vars := r.vars ++ [⟨name.toLower, default, []⟩] }
      (log ++ [(.lookup name default, .pointer (some r.vars.length))]) := by
  have hmaker := maker_lookup (h.maker_none hname) default r.vars.length
  have hnew : (r.vars ++ [(⟨name.toLower, default, []⟩ : Var V κ)])[r.vars.length]? =
      some ⟨name.toLower, default, []⟩ := List.getElem?_concat_length
  constructor
  case named =>
    intro name'
    rw [hmaker, Config.named_added hname]
    split
    · rfl
    · exact h.named name'
  case typed =>
    intro name' d q hd
    rw [hmaker] at hd
    split at hd
    · cases hd
      exact ⟨_, hnew, rfl⟩
    · obtain ⟨w, hw, ht⟩ := h.typed name' d q hd
      exact ⟨w, getElem?_concat_of_some _ hw, ht⟩
  case stored =>
    intro q
    rw [stored_append, storing, ← h.stored]
    by_cases hq : r.vars.length = q
    · subst hq
      rw [if_pos rfl, List.getElem?_eq_none le_rfl, hnew]
      rfl
    · rw [if_neg hq]
      cases hw : (r.vars ++ [(⟨name.toLower, default, []⟩ : Var V κ)])[q]? with
      | none =>
          rw [List.getElem?_eq_none_iff, List.length_append] at hw
          rw [List.getElem?_eq_none (by omega)]
      | some w =>
          rw [(getElem?_concat_cases hw).resolve_right fun hlast => hq hlast.1.symm]
  case live =>
    intro q w hw
    rw [live_append]
    rcases getElem?_concat_cases hw with hw | ⟨rfl, rfl⟩
    · exact h.live q w hw
    · exact (h.unborn _ le_rfl).symm
  case unborn =>
    intro q hq
    rw [List.length_append] at hq
    rw [live_append]
    exact h.unborn q (by omega)
  case returned =>
    intro c q hc
    rw [List.length_append, List.length_singleton]
    rcases List.mem_append.mp hc with hc | hc
    · exact (h.returned c q hc).trans (Nat.lt_succ_self _)
    · cases List.mem_singleton.mp hc
      exact Nat.lt_succ_self _
  case listed =>
    rw [List.map_append, h.listed, List.length_append, List.length_singleton, List.range_succ]
    rfl
  case names => exact Config.names_added hname h.names _
  case keys =>
    intro t q cb key hk
    rcases List.mem_append.mp hk with hk | hk
    · exact h.keys t q cb key hk
    · cases List.mem_singleton.mp hk
  case held =>
    intro q w hw x hx
    rcases getElem?_concat_cases hw with hw | ⟨-, rfl⟩
    · exact h.held q w hw x hx
    · cases hx
  case pending =>
    intro th q val hp
    obtain ⟨w, hw, ht⟩ := h.pending th q val hp
    exact ⟨w, getElem?_concat_of_some _ hw, ht⟩

/-! ## Each call -/

theorem Represents.maker_isSome (h : Represents r log) (name : String) :
    (maker log name).isSome = (r.named name).isSome := by
  rw [h.named, Option.isSome_map]

section Cast

variable [DecidableEq τ]

/-- A cast finds the type of the first `Lookup`. -/
theorem Represents.cast_named (h : Represents r log) (name : String) (t : τ) :
    r.cast (r.named name) t = found log name t := by
  rw [Config.cast, h.named, found]
  cases hm : maker log name with
  | none => rfl
  | some m =>
      obtain ⟨v, hv, ht⟩ := h.typed name m.1 m.2 hm
      simp only [Option.map_some, Option.filter_some, hv, ht, Option.some.injEq]
      split <;> rfl

end Cast

/-- `Visit` comes to every variable that was made, once. -/
theorem Represents.visited (h : Represents r log) {order : List (String × Nat)}
    (horder : order.Perm r.datas) :
    (order.map Prod.snd).Nodup ∧
      ∀ p, p ∈ order.map Prod.snd ↔ ∃ name default, maker log name = some (default, p) := by
  have hperm : (order.map Prod.snd).Perm (List.range r.vars.length) :=
    h.listed ▸ horder.map Prod.snd
  refine ⟨hperm.nodup_iff.mpr List.nodup_range, fun p => ?_⟩
  rw [(horder.map Prod.snd).mem_iff]
  constructor
  · intro hp
    obtain ⟨e, he, rfl⟩ := List.mem_map.mp hp
    have hfirst : r.datas.find? (fun x => decide (x.1 = e.1)) = some e :=
      Collection.find?_key_of_mem (List.pairwise_map.mp h.names) he
    have hfind : r.named e.1 = some e.2 := congrArg (Option.map Prod.snd) hfirst
    rw [h.named] at hfind
    obtain ⟨m, hm, heq⟩ := Option.map_eq_some_iff.mp hfind
    exact ⟨e.1, m.1, by rw [hm, ← heq]⟩
  · rintro ⟨name, default, hm⟩
    have hfind : r.named name = some p := by rw [h.named, hm]; rfl
    obtain ⟨e, he, rfl⟩ := Option.map_eq_some_iff.mp hfind
    exact List.mem_map.mpr ⟨e, List.mem_of_find?_eq_some he, rfl⟩

/-- A call whose kind leaves no trace in the history, answered without a variable or a key. -/
theorem Represents.silent (h : Represents r log) {e : Call V κ × Answer V κ}
    (hmaker : ∀ name, making name e = none) (hstored : ∀ p val, storing p val e = val)
    (hlive : ∀ p cbs, living p cbs e = cbs)
    (hpointer : ∀ p, e.2 = .pointer (some p) → p < r.vars.length)
    (hkey : ∀ key, e.2 ≠ .key key) : Represents r (log ++ [e]) :=
  h.quiet (fun name => by rw [maker_append, hmaker, Option.or_none])
    (fun p => by rw [stored_append, hstored]) (fun p => by rw [live_append, hlive]) hpointer hkey

theorem Represents.named_lt (h : Represents r log) {name : String} {p : Nat}
    (hp : r.named name = some p) : p < r.vars.length := by
  rw [h.named] at hp
  obtain ⟨m, hm, rfl⟩ := Option.map_eq_some_iff.mp hp
  obtain ⟨v, hv, -⟩ := h.typed name m.1 m.2 hm
  exact (List.getElem?_eq_some_iff.mp hv).1

/-- A `Lookup` of a name that has a variable adds nothing to the history. -/
theorem Represents.again (h : Represents r log) {name : String}
    (hmade : (maker log name).isSome = true) (default : Value V) {p : Option Nat}
    (hp : ∀ q, p = some q → q < r.vars.length) :
    Represents r (log ++ [(.lookup name default, .pointer p)]) := by
  cases p with
  | none =>
      exact h.silent (fun _ => rfl) (fun _ _ => rfl) (fun _ _ => rfl) (fun q hq => by cases hq)
        (fun _ hk => by cases hk)
  | some q =>
      refine h.quiet (fun name' => ?_) (fun q' => ?_) (fun q' => ?_) (fun q' hq' => ?_)
        (fun _ hk => by cases hk)
      · rw [maker_append, making]
        split
        · rename_i heq
          obtain ⟨m, hm⟩ := Option.isSome_iff_exists.mp hmade
          rw [← heq, hm, Option.some_or]
        · rw [Option.or_none]
      · rw [stored_append, storing]
        split
        · rename_i heq
          rw [← heq, h.stored_eq (List.getElem?_eq_getElem (hp q rfl)), Option.some_or]
        · rfl
      · rw [live_append]
        rfl
      · cases hq'
        exact hp q rfl

theorem Represents.fresh (h : Represents r log) (c : Call V κ) :
    (c, .pointer (some r.vars.length)) ∉ log :=
  fun hc => Nat.lt_irrefl _ (h.returned c _ hc)

theorem Represents.taken (h : Represents r log) {p : Nat} {v : Var V κ}
    (hv : r.vars[p]? = some v) {c : Call V κ} {cbs : List (Nat × κ)} (hsub : cbs ⊆ v.cbs)
    (hmaker : ∀ name, making name (c, (.done : Answer V κ)) = none)
    (hstored : ∀ q val, storing q val (c, (.done : Answer V κ)) = val)
    (hlive : living p v.cbs (c, (.done : Answer V κ)) = cbs)
    (hother : ∀ q, q ≠ p → ∀ cbs, living q cbs (c, (.done : Answer V κ)) = cbs) :
    Represents { r with vars := r.vars.set p { v with cbs := cbs } } (log ++ [(c, .done)]) :=
  h.write (w := { v with cbs := cbs }) hv rfl hmaker (hstored p _) hlive
    (fun q hq => ⟨hstored q, hother q hq⟩)
    (fun _ hq => by cases hq) (fun _ _ _ _ heq => by cases heq)
    (fun x hx => h.held p v hv x (hsub hx)) (fun _ => le_rfl) (fun _ _ _ hp => hp)

section Setters

variable [DecidableEq ι]

/-- The section that notifies leaves the thread with the value that it will assign. -/
theorem Represents.waits (h : Represents r log) {p : Nat} {v : Var V κ} {val : Value V}
    (hv : r.vars[p]? = some v) (htype : v.val.1 = val.1) (th : ι) :
    Represents { r with pending := Function.update r.pending th (some (p, val)) } log :=
  { h with
    pending := fun u q new hu => by
      by_cases hself : u = th
      · subst hself
        simp only [Function.update_self] at hu
        cases hu
        exact ⟨v, hv, htype⟩
      · simp only [Function.update_of_ne hself] at hu
        exact h.pending u q new hu }

theorem Represents.assigned (h : Represents r log) {p : Nat} {v : Var V κ} {val : Value V}
    (hv : r.vars[p]? = some v) (htype : v.val.1 = val.1) {th : ι} :
    Represents { r with
        vars := r.vars.set p { v with val := val }
        pending := Function.update r.pending th none }
      (log ++ [(.assign p val, .done)]) := by
  refine h.write (w := { v with val := val }) (e := (.assign p val, .done)) hv htype.symm
    (fun _ => rfl) (if_pos rfl) rfl (fun q hq => ⟨fun _ => if_neg (Ne.symm hq), fun _ => rfl⟩)
    (fun _ hq => by cases hq) (fun _ _ _ _ heq => by cases heq) (h.held p v hv) (fun _ => le_rfl)
    fun u q new hu => ?_
  by_cases hself : u = th
  · subst hself
    simp only [Function.update_self] at hu
    cases hu
  · simpa only [Function.update_of_ne hself] using hu

end Setters

section Answers

variable [DecidableEq τ]

theorem Config.cast_lt {q : Nat} {p : Option Nat} {t : τ} (h : r.cast p t = some q) :
    q < r.vars.length := by
  obtain ⟨-, htype⟩ := Option.filter_eq_some_iff.mp h
  obtain ⟨v, hv, -⟩ := Option.map_eq_some_iff.mp (of_decide_eq_true htype)
  exact (List.getElem?_eq_some_iff.mp hv).1

/-- The new listener stands behind the others. -/
theorem Represents.added (h : Represents r log) {p : Nat} {v : Var V κ}
    (hv : r.vars[p]? = some v) (cb : κ) {key : Nat} (hkey : key = r.funIds v.val.1 + 1) :
    Represents { r with
        vars := r.vars.set p { v with cbs := assignKey key cb v.cbs }
        funIds := Function.update r.funIds v.val.1 key }
      (log ++ [(.addListener v.val.1 p cb, .key key)]) := by
  subst hkey
  have hbehind : assignKey (r.funIds v.val.1 + 1) cb v.cbs =
      v.cbs ++ [(r.funIds v.val.1 + 1, cb)] :=
    assignKey_append (fun e he => Nat.lt_succ_of_le (h.held p v hv e he)) cb
  have hself : Function.update r.funIds v.val.1 (r.funIds v.val.1 + 1) v.val.1 =
      r.funIds v.val.1 + 1 := Function.update_self ..
  rw [hbehind]
  refine h.write (w := { v with cbs := v.cbs ++ [(r.funIds v.val.1 + 1, cb)] })
    (e := (.addListener v.val.1 p cb, .key (r.funIds v.val.1 + 1))) hv rfl (fun _ => rfl) rfl
    (if_pos rfl)
    (fun q hq => ⟨fun _ => rfl, fun _ => if_neg (Ne.symm hq)⟩) (fun _ hq => by cases hq)
    (fun t q cb' key' heq => ?_) (fun x hx => ?_) (fun t => ?_) (fun _ _ _ hp => hp)
  · cases heq
    exact hself.ge
  · rw [hself]
    rcases List.mem_append.mp hx with hx | hx
    · exact (h.held p v hv x hx).trans (Nat.le_succ _)
    · rw [List.mem_singleton.mp hx]
  · by_cases ht : t = v.val.1
    · rw [ht, hself]
      exact Nat.le_succ _
    · rw [Function.update_of_ne ht]

variable [∀ t, DecidableEq (V t)] [DecidableEq ι]

theorem Represents.lookup (h : Represents r log) {th : ι} {name : String} {default : Value V}
    {a : Answer V κ} {r' : Config V ι κ} (hc : r.call th (.lookup name default) = some (a, r')) :
    Promised log (.lookup name default) a ∧
      Represents r' (log ++ [(.lookup name default, a)]) := by
  simp only [Config.call] at hc
  cases hnamed : r.named name with
  | some p =>
      have hmade : (maker log name).isSome = true := by rw [h.maker_isSome, hnamed]; rfl
      have hfound : r.cast (some p) default.1 = found log name default.1 := by
        rw [← hnamed, h.cast_named]
      rw [hnamed] at hc
      cases hc
      refine ⟨?_, h.again hmade default fun q hq => Config.cast_lt hq⟩
      rw [Promised, if_pos hmade, hfound]
  | none =>
      have hmade : ¬ (maker log name).isSome = true := by
        rw [h.maker_isSome, hnamed]
        exact Bool.false_ne_true
      rw [hnamed] at hc
      dsimp only at hc
      rw [Promised, if_neg hmade]
      split at hc <;> cases hc
      · rename_i hvalid
        rw [if_pos hvalid]
        exact ⟨⟨_, rfl, h.fresh⟩, h.make hnamed default⟩
      · rename_i hinvalid
        rw [if_neg hinvalid]
        exact ⟨rfl, h.silent (fun _ => rfl) (fun _ _ => rfl) (fun _ _ => rfl)
          (fun q hq => by cases hq) (fun _ hk => by cases hk)⟩

/-- The section that notifies, up to a listener that throws. -/
theorem Represents.compare (h : Represents r log) {th : ι} {p : Nat} {val : Value V}
    {thrown : Option Nat} {a : Answer V κ} {r' : Config V ι κ}
    (hc : r.call th (.compare p val thrown) = some (a, r')) :
    Promised log (.compare p val thrown) a ∧
      Represents r' (log ++ [(.compare p val thrown, a)]) := by
  obtain ⟨v, hv, hc⟩ := Option.bind_eq_some_iff.mp hc
  split at hc
  · cases hc
  · rename_i hready
    have htype : v.val.1 = val.1 := not_not.mp (not_or.mp hready).1
    have hsilent : ∀ calls, Represents r (log ++ [(.compare p val thrown, .told calls)]) :=
      fun calls => h.silent (fun _ => rfl) (fun _ _ => rfl) (fun _ _ => rfl)
        (fun q hq => by cases hq) (fun _ hk => by cases hk)
    split at hc <;> cases hc
    · rename_i hsame
      exact ⟨⟨_, h.stored_eq hv, htype, by rw [if_pos hsame]⟩, hsilent []⟩
    · rename_i hnew
      refine ⟨⟨_, h.stored_eq hv, htype, by rw [if_neg hnew, h.live p v hv]⟩, ?_⟩
      split
      · exact (hsilent _).waits hv htype th
      · exact hsilent _

theorem Represents.call (h : Represents r log) {th : ι} {c : Call V κ} (hkeys : r.InKeys c)
    {a : Answer V κ} {r' : Config V ι κ} (hc : r.call th c = some (a, r')) :
    Promised log c a ∧ Represents r' (log ++ [(c, a)]) := by
  cases c with
  | lookup name default => exact h.lookup hc
  | find name t =>
      cases hc
      exact ⟨congrArg _ (h.cast_named name t), h.silent (fun _ => rfl) (fun _ _ => rfl)
        (fun _ _ => rfl) (fun q hq => Config.cast_lt (Answer.pointer.inj hq))
        (fun _ hk => by cases hk)⟩
  | lookupBase name =>
      cases hc
      exact ⟨congrArg _ (h.named name), h.silent (fun _ => rfl) (fun _ _ => rfl)
        (fun _ _ => rfl) (fun q hq => h.named_lt (Answer.pointer.inj hq))
        (fun _ hk => by cases hk)⟩
  | visit order =>
      simp only [Config.call] at hc
      split at hc <;> cases hc
      rename_i horder
      exact ⟨⟨_, rfl, h.visited horder⟩, h.silent (fun _ => rfl) (fun _ _ => rfl)
        (fun _ _ => rfl) (fun q hq => by cases hq) (fun _ hk => by cases hk)⟩
  | getValue p =>
      obtain ⟨v, hv, hc⟩ := Option.map_eq_some_iff.mp hc
      cases hc
      exact ⟨⟨_, h.stored_eq hv, rfl⟩, h.silent (fun _ => rfl) (fun _ _ => rfl)
        (fun _ _ => rfl) (fun q hq => by cases hq) (fun _ hk => by cases hk)⟩
  | compare p val thrown => exact h.compare hc
  | assign p val =>
      obtain ⟨v, hv, hc⟩ := Option.bind_eq_some_iff.mp hc
      split at hc <;> cases hc
      rename_i hpending
      obtain ⟨w, hw, htype⟩ := h.pending th p val hpending
      cases hv.symm.trans hw
      exact ⟨⟨rfl, _, h.stored_eq hv, htype⟩, h.assigned hv htype⟩
  | addListener t p cb =>
      obtain ⟨v, hv, hc⟩ := Option.bind_eq_some_iff.mp hc
      split at hc <;> cases hc
      rename_i ht
      subst ht
      have hkey : (r.funIds v.val.1 + 1) % 2 ^ 64 = r.funIds v.val.1 + 1 := Nat.mod_eq_of_lt hkeys
      rw [hkey]
      exact ⟨⟨_, rfl, fun q cb' key' hk => Nat.lt_succ_of_le (h.keys _ q cb' key' hk)⟩,
        h.added hv cb rfl⟩
  | delListener p key =>
      obtain ⟨v, hv, hc⟩ := Option.map_eq_some_iff.mp hc
      cases hc
      exact ⟨rfl, h.taken hv (List.filter_subset_self _) (fun _ => rfl) (fun _ _ => rfl)
        (if_pos rfl) (fun q hq _ => if_neg (Ne.symm hq))⟩
  | getListener p key =>
      obtain ⟨v, hv, hc⟩ := Option.map_eq_some_iff.mp hc
      cases hc
      refine ⟨?_, h.silent (fun _ => rfl) (fun _ _ => rfl) (fun _ _ => rfl)
        (fun q hq => by cases hq) (fun _ hk => by cases hk)⟩
      rw [Promised, h.live p v hv]
  | clearListener p =>
      obtain ⟨v, hv, hc⟩ := Option.map_eq_some_iff.mp hc
      cases hc
      exact ⟨rfl, h.taken hv (List.nil_subset _) (fun _ => rfl) (fun _ _ => rfl)
        (if_pos rfl) (fun q hq _ => if_neg (Ne.symm hq))⟩

end Answers

end Sylar.Registry
