import Sylar.Hook.Step

/-! # `FdManager` as a map

The table of descriptor contexts under calls with any `int`. An index outside `m_datas` ends
the run; the abstract map that the table stands for has an entry for every integer.
-/

namespace Sylar.Hook

/-! ## The table -/

/-- `FdManager`; contexts are numbered as they are made, and `lastCtx` is the last number. -/
structure FdManager where
  datas : List (Option CtxId)
  lastCtx : Nat
  deriving DecidableEq, Repr

def FdManager.init : FdManager := ⟨List.replicate 64 none, 0⟩

/-- An index into `m_datas` and the size it is not below, unless it is negative. -/
structure OutOfRange where
  index : Int
  size : Nat
  deriving DecidableEq, Repr

def FdManager.place (m : FdManager) (fd : Int) : Except OutOfRange Nat :=
  if 0 ≤ fd ∧ fd < m.datas.length then .ok fd.toNat else .error ⟨fd, m.datas.length⟩

/-- The read-locked section of `get`. -/
def FdManager.readSection (m : FdManager) (fd : Int) (autoCreate : Bool) :
    Except OutOfRange Lookup :=
  if (m.datas.length : Int) ≤ fd then .ok (if autoCreate = false then .found none else .create)
  else do
    let i ← m.place fd
    let ctx := m.datas.getD i none
    .ok (if ctx.isSome ∨ autoCreate = false then .found ctx else .create)

/-- The write-locked section of `get`. -/
def FdManager.writeSection (m : FdManager) (fd : Int) : Except OutOfRange (CtxId × FdManager) := do
  let ctx := m.lastCtx + 1
  let i ← m.place fd
  .ok (ctx, ⟨m.datas.set i (some ctx), ctx⟩)

/-- `FdManager::get` without a call of another thread between its sections. -/
def FdManager.get (m : FdManager) (fd : Int) (autoCreate : Bool) :
    Except OutOfRange (Option CtxId × FdManager) := do
  match ← m.readSection fd autoCreate with
  | .found ctx => .ok (ctx, m)
  | .create =>
      let (ctx, m) ← m.writeSection fd
      .ok (some ctx, m)

def FdManager.del (m : FdManager) (fd : Int) : Except OutOfRange FdManager :=
  if (m.datas.length : Int) ≤ fd then .ok m
  else do
    let i ← m.place fd
    .ok { m with datas := m.datas.set i none }

/-- Inside the table the read-locked section is the one that the hooked calls run. -/
theorem readSection_natCast (m : FdManager) (fd : Nat) (autoCreate : Bool) :
    m.readSection fd autoCreate = .ok (fdManagerGet m.datas fd autoCreate) := by
  by_cases hfd : fd < m.datas.length
  · have hle : ¬ (m.datas.length : Int) ≤ fd := by omega
    have hplace : m.place fd = .ok fd := by
      rw [FdManager.place, if_pos ⟨by omega, by omega⟩, Int.toNat_natCast]
    simp [FdManager.readSection, fdManagerGet, hle, hplace, hfd, bind, Except.bind]
  · have hle : (m.datas.length : Int) ≤ fd := by omega
    cases autoCreate <;> simp [FdManager.readSection, fdManagerGet, hle, Nat.not_lt.mp hfd]

/-! ## Calls -/

inductive TableCall where
  | get (fd : Int) (autoCreate : Bool)
  | del (fd : Int)
  deriving DecidableEq, Repr

/-- What a call returns, `none` for the null pointer and for `del`, and the table after it. -/
def FdManager.perform (m : FdManager) : TableCall → Except OutOfRange (Option CtxId × FdManager)
  | .get fd autoCreate => m.get fd autoCreate
  | .del fd => (m.del fd).map fun m => (none, m)

def FdManager.execute (m : FdManager) : List TableCall → Except OutOfRange (List (Option CtxId))
  | [] => .ok []
  | call :: calls => do
      let (ctx, m) ← m.perform call
      let ctxs ← m.execute calls
      .ok (ctx :: ctxs)

/-- The descriptor is not negative, and below the size if a context may be made. -/
def TableCall.InTable (size : Nat) : TableCall → Prop
  | .get fd autoCreate => 0 ≤ fd ∧ (autoCreate = true → fd < size)
  | .del fd => 0 ≤ fd

/-! ## The map -/

/-- What the table stands for. -/
structure FdMap where
  entry : Int → Option CtxId
  lastCtx : Nat

def FdMap.empty : FdMap := ⟨fun _ => none, 0⟩

def FdMap.perform (m : FdMap) : TableCall → Option CtxId × FdMap
  | .get fd autoCreate =>
      if (m.entry fd).isSome ∨ autoCreate = false then (m.entry fd, m)
      else
        (some (m.lastCtx + 1),
          ⟨Function.update m.entry fd (some (m.lastCtx + 1)), m.lastCtx + 1⟩)
  | .del fd => (none, { m with entry := Function.update m.entry fd none })

def FdMap.execute (m : FdMap) : List TableCall → List (Option CtxId)
  | [] => []
  | call :: calls => (m.perform call).1 :: (m.perform call).2.execute calls

def FdMap.after (m : FdMap) (calls : List TableCall) : FdMap :=
  calls.foldl (fun m call => (m.perform call).2) m

theorem FdMap.perform_entry_some {m : FdMap} {fd : Int} {ctx : CtxId}
    (hentry : m.entry fd = some ctx) {call : TableCall} (hcall : call ≠ .del fd) :
    (m.perform call).2.entry fd = some ctx := by
  cases call with
  | get fd' autoCreate =>
      by_cases hfound : (m.entry fd').isSome ∨ autoCreate = false
      · simp [FdMap.perform, hfound, hentry]
      · have hne : fd ≠ fd' := by
          intro heq
          rw [← heq, hentry] at hfound
          exact hfound (Or.inl rfl)
        simp [FdMap.perform, hfound, hentry, Function.update_of_ne hne]
  | del fd' =>
      have hne : fd ≠ fd' := fun heq => hcall (congrArg TableCall.del heq.symm)
      simp [FdMap.perform, hentry, Function.update_of_ne hne]

theorem FdMap.perform_entry_none {m : FdMap} {fd : Int} (hentry : m.entry fd = none)
    {call : TableCall} (hcall : call ≠ .get fd true) : (m.perform call).2.entry fd = none := by
  cases call with
  | get fd' autoCreate =>
      by_cases hfound : (m.entry fd').isSome ∨ autoCreate = false
      · simp [FdMap.perform, hfound, hentry]
      · have hne : fd ≠ fd' := by
          rintro rfl
          cases autoCreate with
          | false => exact hfound (Or.inr rfl)
          | true => exact hcall rfl
        simp [FdMap.perform, hfound, hentry, Function.update_of_ne hne]
  | del fd' =>
      by_cases heq : fd = fd'
      · simp [FdMap.perform, heq]
      · simp [FdMap.perform, hentry, Function.update_of_ne heq]

/-- An entry stays until `del` of its descriptor. -/
theorem FdMap.after_entry_some {m : FdMap} {fd : Int} {ctx : CtxId}
    (hentry : m.entry fd = some ctx) {calls : List TableCall} (hcalls : .del fd ∉ calls) :
    (m.after calls).entry fd = some ctx := by
  induction calls generalizing m with
  | nil => exact hentry
  | cons call calls ih =>
      have hhead : call ≠ .del fd := fun heq => hcalls (heq ▸ List.mem_cons_self)
      exact ih (FdMap.perform_entry_some hentry hhead)
        fun hmem => hcalls (List.mem_cons_of_mem _ hmem)

/-- A descriptor stays without an entry until `get` makes one. -/
theorem FdMap.after_entry_none {m : FdMap} {fd : Int} (hentry : m.entry fd = none)
    {calls : List TableCall} (hcalls : .get fd true ∉ calls) :
    (m.after calls).entry fd = none := by
  induction calls generalizing m with
  | nil => exact hentry
  | cons call calls ih =>
      have hhead : call ≠ .get fd true := fun heq => hcalls (heq ▸ List.mem_cons_self)
      exact ih (FdMap.perform_entry_none hentry hhead)
        fun hmem => hcalls (List.mem_cons_of_mem _ hmem)

theorem FdMap.perform_lookup (m : FdMap) (fd : Int) :
    (m.perform (.get fd false)).1 = m.entry fd := by
  simp [FdMap.perform]

theorem FdMap.perform_create (m : FdMap) (fd : Int) :
    ∃ ctx, (m.perform (.get fd true)).1 = some ctx ∧
      (m.perform (.get fd true)).2.entry fd = some ctx := by
  cases hentry : m.entry fd with
  | none => simp [FdMap.perform, hentry]
  | some ctx => simp [FdMap.perform, hentry]

/-! ## The table is the map -/

def FdManager.toMap (m : FdManager) : FdMap :=
  ⟨fun fd => if 0 ≤ fd then m.datas.getD fd.toNat none else none, m.lastCtx⟩

theorem toMap_init : FdManager.init.toMap = FdMap.empty := by
  have hentry : ∀ fd : Int, FdManager.init.toMap.entry fd = none := by
    intro fd
    simp only [FdManager.toMap, FdManager.init]
    split
    · rw [List.getD_eq_getElem?_getD, List.getElem?_replicate]
      split <;> rfl
    · rfl
  exact congrArg (FdMap.mk · 0) (funext hentry)

theorem toMap_set (m : FdManager) {fd : Nat} (hfd : fd < m.datas.length) (ctx : Option CtxId)
    (lastCtx : Nat) :
    FdManager.toMap ⟨m.datas.set fd ctx, lastCtx⟩ =
      ⟨Function.update m.toMap.entry fd ctx, lastCtx⟩ := by
  refine congrArg (FdMap.mk · lastCtx) (funext fun i => ?_)
  by_cases hi : i = fd
  · subst hi
    simp [hfd]
  · rw [Function.update_of_ne hi]
    simp only [FdManager.toMap]
    split
    · have hne : fd ≠ i.toNat := by omega
      simp [List.getElem?_set_ne hne]
    · rfl

theorem place_natCast {m : FdManager} {fd : Nat} (hfd : fd < m.datas.length) :
    m.place fd = .ok fd := by
  rw [FdManager.place, if_pos ⟨by omega, by omega⟩, Int.toNat_natCast]

theorem writeSection_natCast {m : FdManager} {fd : Nat} (hfd : fd < m.datas.length) :
    m.writeSection fd =
      .ok (m.lastCtx + 1, ⟨m.datas.set fd (some (m.lastCtx + 1)), m.lastCtx + 1⟩) := by
  simp [FdManager.writeSection, place_natCast hfd, bind, Except.bind]

theorem del_natCast (m : FdManager) (fd : Nat) :
    ∃ m', m.del fd = .ok m' ∧
      m'.toMap = ⟨Function.update m.toMap.entry fd none, m.lastCtx⟩ ∧
      m'.datas.length = m.datas.length := by
  by_cases hfd : fd < m.datas.length
  · have hle : ¬ (m.datas.length : Int) ≤ fd := by omega
    refine ⟨⟨m.datas.set fd none, m.lastCtx⟩, ?_, toMap_set m hfd none _, List.length_set⟩
    simp [FdManager.del, hle, place_natCast hfd, bind, Except.bind]
  · have hle : (m.datas.length : Int) ≤ fd := by omega
    have hentry : m.toMap.entry fd = none := by simp [FdManager.toMap, Nat.not_lt.mp hfd]
    have hsame : Function.update m.toMap.entry (fd : Int) none = m.toMap.entry := by
      rw [← hentry, Function.update_eq_self]
    refine ⟨m, if_pos hle, ?_, rfl⟩
    rw [hsame]
    rfl

theorem entry_of_found {m : FdManager} {fd : Nat} {autoCreate : Bool} {ctx : CtxId}
    (hfound : m.readSection fd autoCreate = .ok (.found (some ctx))) :
    m.toMap.entry fd = some ctx := by
  rw [readSection_natCast, Except.ok.injEq, fdManagerGet] at hfound
  cases hdata : m.datas[fd]? with
  | none => cases autoCreate <;> simp [hdata] at hfound
  | some data =>
      simp only [hdata] at hfound
      split at hfound <;> cases hfound
      simp [FdManager.toMap, hdata]

theorem toMap_entry (m : FdManager) (fd : Nat) :
    m.toMap.entry fd = m.datas[fd]?.getD none := by
  simp [FdManager.toMap]

theorem readSection_of_entry {m : FdManager} {fd : Nat} {ctx : CtxId}
    (hentry : m.toMap.entry fd = some ctx) :
    fd < m.datas.length ∧ m.readSection fd true = .ok (.found (some ctx)) := by
  rw [toMap_entry] at hentry
  rw [readSection_natCast, fdManagerGet]
  cases hdata : m.datas[fd]? with
  | none =>
      rw [hdata] at hentry
      cases hentry
  | some x =>
      rw [hdata, Option.getD_some] at hentry
      refine ⟨(List.getElem?_eq_some_iff.mp hdata).1, ?_⟩
      rw [hentry]
      rfl

/-- A null entry inside the table calls for a context. -/
theorem readSection_of_no_entry {m : FdManager} {fd : Nat} (hfd : fd < m.datas.length)
    (hentry : m.toMap.entry fd = none) : m.readSection fd true = .ok .create := by
  rw [toMap_entry, List.getElem?_eq_getElem hfd, Option.getD_some] at hentry
  rw [readSection_natCast, fdManagerGet, List.getElem?_eq_getElem hfd, hentry]
  rfl

theorem update_natCast {α : Type*} (f : Int → α) (fd fd' : Nat) (x : α) :
    Function.update f fd x fd' = if fd' = fd then x else f fd' := by
  simp [Function.update_apply]

theorem entry_of_store {m : FdManager} {fd : Nat} {ctx : CtxId} {manager : FdManager}
    (hstore : m.writeSection fd = .ok (ctx, manager)) :
    ctx = m.lastCtx + 1 ∧ manager.lastCtx = ctx ∧
      ∀ fd' : Nat, manager.toMap.entry fd' = if fd' = fd then some ctx else m.toMap.entry fd' := by
  have hfd : fd < m.datas.length := by
    by_contra hfd
    have hplace : m.place fd = .error ⟨fd, m.datas.length⟩ := if_neg (by omega)
    simp [FdManager.writeSection, hplace, bind, Except.bind] at hstore
  rw [writeSection_natCast hfd] at hstore
  cases hstore
  refine ⟨rfl, rfl, fun fd' => ?_⟩
  rw [toMap_set _ hfd]
  exact update_natCast ..

theorem entry_of_del {m : FdManager} {fd : Nat} {manager : FdManager}
    (hdel : m.del fd = .ok manager) :
    manager.lastCtx = m.lastCtx ∧
      ∀ fd' : Nat, manager.toMap.entry fd' = if fd' = fd then none else m.toMap.entry fd' := by
  obtain ⟨m', hm, hmap, -⟩ := del_natCast m fd
  cases hdel.symm.trans hm
  refine ⟨congrArg FdMap.lastCtx hmap, fun fd' => ?_⟩
  rw [hmap]
  exact update_natCast ..

theorem length_of_store {m : FdManager} {fd : Nat} {ctx : CtxId} {manager : FdManager}
    (hfd : fd < m.datas.length) (hstore : m.writeSection fd = .ok (ctx, manager)) :
    manager.datas.length = m.datas.length := by
  rw [writeSection_natCast hfd] at hstore
  cases hstore
  exact List.length_set

theorem length_of_del {m : FdManager} {fd : Nat} {manager : FdManager}
    (hdel : m.del fd = .ok manager) : manager.datas.length = m.datas.length := by
  obtain ⟨m', hm, _, hlength⟩ := del_natCast m fd
  cases hdel.symm.trans hm
  exact hlength

theorem perform_eq_of_inTable {m : FdManager} {call : TableCall}
    (hcall : call.InTable m.datas.length) :
    ∃ m', m.perform call = .ok ((m.toMap.perform call).1, m') ∧
      m'.toMap = (m.toMap.perform call).2 ∧ m'.datas.length = m.datas.length := by
  cases call with
  | get fd autoCreate =>
      obtain ⟨hnonneg, hsize⟩ := hcall
      obtain ⟨fd, rfl⟩ := Int.eq_ofNat_of_zero_le hnonneg
      have hentry : m.toMap.entry fd = m.datas.getD fd none := by simp [FdManager.toMap]
      simp only [FdManager.perform, FdManager.get, readSection_natCast, FdMap.perform, hentry]
      by_cases hfound : (m.datas.getD fd none).isSome ∨ autoCreate = false
      · have hlookup : fdManagerGet m.datas fd autoCreate = .found (m.datas.getD fd none) := by
          cases hdata : m.datas[fd]? <;> simp_all [fdManagerGet]
        simp only [if_pos hfound, hlookup, bind, Except.bind]
        exact ⟨m, rfl, rfl, rfl⟩
      · obtain ⟨hnone, hauto⟩ := not_or.mp hfound
        have hfd : fd < m.datas.length := by
          have hlt := hsize (by simpa using hauto)
          omega
        have hlookup : fdManagerGet m.datas fd autoCreate = .create := by
          simp_all [fdManagerGet]
        simp only [if_neg hfound, hlookup, writeSection_natCast hfd, bind, Except.bind]
        exact ⟨_, rfl, toMap_set m hfd _ _, List.length_set⟩
  | del fd =>
      obtain ⟨fd, rfl⟩ := Int.eq_ofNat_of_zero_le hcall
      obtain ⟨m', hdel, hmap, hlength⟩ := del_natCast m fd
      exact ⟨m', congrArg (Except.map fun m => (none, m)) hdel, hmap, hlength⟩

/-- A call outside the table uses a bad index. -/
theorem perform_error_of_not_inTable {m : FdManager} {call : TableCall}
    (hcall : ¬ call.InTable m.datas.length) : ∃ e, m.perform call = .error e := by
  cases call with
  | get fd autoCreate =>
      by_cases hnonneg : 0 ≤ fd
      · obtain ⟨hauto, hsize⟩ : autoCreate = true ∧ (m.datas.length : Int) ≤ fd := by
          simpa [TableCall.InTable, hnonneg] using hcall
        have hplace : m.place fd = .error ⟨fd, m.datas.length⟩ := if_neg (by omega)
        simp [FdManager.perform, FdManager.get, FdManager.readSection, FdManager.writeSection,
          hauto, hsize, hplace, bind, Except.bind]
      · have hplace : m.place fd = .error ⟨fd, m.datas.length⟩ := if_neg (by omega)
        have hsize : ¬ (m.datas.length : Int) ≤ fd := by omega
        simp [FdManager.perform, FdManager.get, FdManager.readSection, hsize, hplace, bind,
          Except.bind]
  | del fd =>
      have hneg : ¬ 0 ≤ fd := hcall
      have hplace : m.place fd = .error ⟨fd, m.datas.length⟩ := if_neg (by omega)
      have hsize : ¬ (m.datas.length : Int) ≤ fd := by omega
      simp [FdManager.perform, FdManager.del, hsize, hplace, bind, Except.bind, Except.map]

theorem execute_eq_iff (m : FdManager) (calls : List TableCall) :
    m.execute calls = .ok (m.toMap.execute calls) ↔
      ∀ call ∈ calls, call.InTable m.datas.length := by
  induction calls generalizing m with
  | nil => simp [FdManager.execute, FdMap.execute]
  | cons call calls ih =>
      by_cases hcall : call.InTable m.datas.length
      · obtain ⟨m', hperform, hmap, hlength⟩ := perform_eq_of_inTable hcall
        have ih := ih m'
        rw [hmap, hlength] at ih
        rw [List.forall_mem_cons, ← ih, FdManager.execute, hperform, FdMap.execute]
        cases hrest : m'.execute calls <;> simp [hrest, hcall, bind, Except.bind]
      · obtain ⟨e, hperform⟩ := perform_error_of_not_inTable hcall
        simp [FdManager.execute, hperform, hcall, bind, Except.bind]

/-- The calls stay inside `m_datas` and return what the map returns exactly if none has a
negative descriptor and none makes a context beyond the table; and in the map the context
that `get(fd, true)` returns is found until `del(fd)`, and none is found from there to the
next `get(fd, true)`. -/
theorem fdManager_map_iff (calls : List TableCall) :
    (FdManager.init.execute calls = .ok (FdMap.empty.execute calls) ↔
      ∀ call ∈ calls, call.InTable 64) ∧
    ∀ (m : FdMap) (fd : Int) (between : List TableCall),
      (m.perform (.get fd true)).1.isSome ∧
      (.del fd ∉ between →
        (((m.perform (.get fd true)).2.after between).perform (.get fd false)).1 =
          (m.perform (.get fd true)).1) ∧
      (.get fd true ∉ between →
        (((m.perform (.del fd)).2.after between).perform (.get fd false)).1 = none) := by
  refine ⟨?_, fun m fd between => ?_⟩
  · rw [← toMap_init, execute_eq_iff]
    rfl
  · obtain ⟨ctx, hreturned, hentry⟩ := m.perform_create fd
    refine ⟨by simp [hreturned], fun hkept => ?_, fun habsent => ?_⟩
    · rw [FdMap.perform_lookup, hreturned, FdMap.after_entry_some hentry hkept]
    · rw [FdMap.perform_lookup]
      exact FdMap.after_entry_none (Function.update_self ..) habsent

/-- The first descriptor beyond the table, and one that is no descriptor. -/
theorem table_overrun :
    FdManager.init.execute [.get 64 true] = .error ⟨64, 64⟩ ∧
      FdManager.init.execute [.get (-1) false] = .error ⟨-1, 64⟩ := by
  decide

end Sylar.Hook
