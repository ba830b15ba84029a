import Sylar.Yaml.Node

/-! # `Config::LoadFromYaml`

The names that `ListAllMember` collects from a document and the calls of `fromString` that
follow. A key path names the same entry as its dotted path; a name with a character that no
variable may have ends the descent, and no registered name lies below it.
-/

namespace Sylar.Load

open Yaml

/-! ## Names -/

/-- The characters of `find_first_not_of`; `0` is not among them. -/
def allowed : List Char := "abcdefghijklmnopqrstuvwxyz._123456789".toList

def validName (name : String) : Bool := name.toList.all fun c => decide (c ∈ allowed)

/-- The name of the member `key` of a node named `pre`. -/
def member (pre key : String) : String := if pre = "" then key else pre ++ "." ++ key

def dotted (path : List String) : String := path.foldl member ""

theorem validName_iff (name : String) :
    validName name = true ↔ ∀ c ∈ name.toList, c ∈ allowed := by
  simp [validName]

theorem validName_append (a b : String) :
    validName (a ++ b) = (validName a && validName b) := by
  simp [validName, List.all_append]

theorem toLower_of_validName {name : String} (h : validName name = true) :
    name.toLower = name := by
  have hlower : (allowed.all fun c => decide (c.toLower = c)) = true := by decide
  have hname : name.toList.map Char.toLower = name.toList.map id := by
    apply List.map_congr_left
    intro c hc
    have hc' := List.all_eq_true.mp hlower c ((validName_iff name).mp h c hc)
    exact of_decide_eq_true hc'
  apply String.toList_inj.mp
  rw [String.toLower, String.toList_map, hname, List.map_id]

/-- The name of a node begins with the names of the nodes above it. -/
theorem validName_of_member {pre key : String} (h : validName (member pre key) = true) :
    validName pre = true := by
  unfold member at h
  split at h
  · rename_i hempty
    rw [hempty]
    rfl
  · rw [validName_append, validName_append, Bool.and_eq_true, Bool.and_eq_true] at h
    exact h.1.1

theorem validName_of_path {pre : String} {path : List String}
    (h : validName (path.foldl member pre) = true) : validName pre = true := by
  induction path generalizing pre with
  | nil => exact h
  | cons key path ih => exact validName_of_member (ih h)

/-- A path is spared if no node above it, or it itself, has a name with another character. -/
def Spared (path : List String) : Prop := ∀ above, above <+: path → validName (dotted above) = true

theorem spared_iff (path : List String) : Spared path ↔ validName (dotted path) = true := by
  refine ⟨fun h => h path (List.prefix_refl path), fun h above habove => ?_⟩
  obtain ⟨below, rfl⟩ := habove
  unfold dotted at h ⊢
  rw [List.foldl_append] at h
  exact validName_of_path h

instance (path : List String) : Decidable (Spared path) :=
  decidable_of_iff _ (spared_iff path).symm

/-! ## Members -/

mutual
def listAllMember (pre : String) (node : Node) : List (String × Node) :=
  if validName pre then
    (pre, node) ::
      match node with
      | .map entries => listMembers pre entries
      | _ => []
  else []
termination_by structural node

def listMembers (pre : String) (entries : List (String × Node)) : List (String × Node) :=
  match entries with
  | [] => []
  | (key, node) :: rest => listAllMember (member pre key) node ++ listMembers pre rest
termination_by structural entries
end

mutual
/-- The nodes that are reached through maps, in pre-order, with their key paths. -/
def reachable (node : Node) : List (List String × Node) :=
  ([], node) ::
    match node with
    | .map entries => reachableMembers entries
    | _ => []
termination_by structural node

def reachableMembers (entries : List (String × Node)) : List (List String × Node) :=
  match entries with
  | [] => []
  | (key, node) :: rest =>
      (reachable node).map (fun e => (key :: e.1, e.2)) ++ reachableMembers rest
termination_by structural entries
end

/-- `node` stands at a key path of `root`. -/
inductive At : Node → List String → Node → Prop where
  | here (node : Node) : At node [] node
  | entry {entries : List (String × Node)} {key : String} {child node : Node}
      {path : List String} (hchild : (key, child) ∈ entries) (h : At child path node) :
      At (.map entries) (key :: path) node

theorem filter_of_invalid {pre : String} (hpre : ¬ validName pre = true)
    (es : List (List String × Node)) :
    (es.filter fun e => validName (e.1.foldl member pre)) = [] := by
  rw [List.filter_eq_nil_iff]
  intro e _ he
  exact hpre (validName_of_path he)

mutual
theorem listAllMember_eq (pre : String) (node : Node) :
    listAllMember pre node =
      ((reachable node).filter fun e => validName (e.1.foldl member pre)).map
        fun e => (e.1.foldl member pre, e.2) := by
  by_cases hpre : validName pre = true
  · have hself : validName (([] : List String).foldl member pre) = true := hpre
    unfold listAllMember reachable
    rw [if_pos hpre, List.filter_cons, if_pos hself, List.map_cons]
    cases node with
    | map entries => exact congrArg _ (listMembers_eq pre entries)
    | null | scalar text | seq items => rfl
  · unfold listAllMember
    rw [if_neg hpre, filter_of_invalid hpre, List.map_nil]

theorem listMembers_eq (pre : String) (entries : List (String × Node)) :
    listMembers pre entries =
      ((reachableMembers entries).filter fun e => validName (e.1.foldl member pre)).map
        fun e => (e.1.foldl member pre, e.2) := by
  cases entries with
  | nil => rfl
  | cons entry rest =>
      obtain ⟨key, node⟩ := entry
      rw [listMembers, reachableMembers, List.filter_append, List.map_append, List.filter_map,
        List.map_map, listAllMember_eq (member pre key) node, listMembers_eq pre rest]
      rfl
end

/-- `ListAllMember` skips the nodes below a name with another character, and nothing else. -/
theorem listAllMember_root (root : Node) :
    listAllMember "" root =
      ((reachable root).filter fun e => decide (Spared e.1)).map fun e => (dotted e.1, e.2) := by
  rw [listAllMember_eq]
  congr 1
  apply List.filter_congr
  intro e _
  rw [Bool.eq_iff_iff, decide_eq_true_eq, spared_iff]
  rfl

mutual
/-- Exactly the nodes at key paths are reachable. -/
theorem mem_reachable (root : Node) (path : List String) (node : Node) :
    (path, node) ∈ reachable root ↔ At root path node := by
  unfold reachable
  cases root with
  | map entries =>
      dsimp only
      rw [List.mem_cons, mem_reachableMembers entries]
      constructor
      · rintro (h | ⟨key, child, below, hchild, rfl, h⟩)
        · cases h
          exact .here _
        · exact .entry hchild h
      · intro h
        cases h with
        | here => exact .inl rfl
        | entry hchild h => exact .inr ⟨_, _, _, hchild, rfl, h⟩
  | null | scalar text | seq items =>
      rw [List.mem_singleton]
      constructor
      · intro h
        cases h
        exact .here _
      · intro h
        cases h
        rfl

theorem mem_reachableMembers (entries : List (String × Node)) (path : List String) (node : Node) :
    (path, node) ∈ reachableMembers entries ↔
      ∃ key child below, (key, child) ∈ entries ∧ path = key :: below ∧ At child below node := by
  cases entries with
  | nil => simp [reachableMembers]
  | cons entry rest =>
      obtain ⟨key, child⟩ := entry
      have hchild := mem_reachable child
      rw [reachableMembers, List.mem_append, mem_reachableMembers rest]
      constructor
      · rintro (h | ⟨key', child', below, hmem, hpath, h⟩)
        · obtain ⟨e, he, heq⟩ := List.mem_map.mp h
          cases heq
          exact ⟨key, child, e.1, List.mem_cons_self, rfl, (hchild e.1 e.2).mp he⟩
        · exact ⟨key', child', below, List.mem_cons_of_mem _ hmem, hpath, h⟩
      · rintro ⟨key', child', below, hmem, rfl, h⟩
        rcases List.mem_cons.mp hmem with heq | hmem
        · cases heq
          exact .inl (List.mem_map.mpr ⟨(below, node), (hchild below node).mpr h, rfl⟩)
        · exact .inr ⟨key', child', below, hmem, rfl, h⟩
end

/-! ## Variables -/

variable {W ε : Type}

/-- A `ConfigVar` of any type. A listener acts on the state `W` of the program outside the
variables; `ε` are the exceptions derived from `std::exception`. -/
structure ConfigVar (W ε : Type) : Type 1 where
  T : Type
  /-- `operator==` -/
  eq : T → T → Bool
  /-- `FromStr` -/
  fromStr : String → Except ε T
  val : T
  cbs : List (T → T → W → Except ε Unit × W)

/-- `for (auto& i : m_cbs) i.second(m_val, val);` -/
def notify {T : Type} (old new : T) :
    List (T → T → W → Except ε Unit × W) → W → Except ε Unit × W
  | [], world => (.ok (), world)
  | cb :: cbs, world =>
      match cb old new world with
      | (.ok (), world) => notify old new cbs world
      | (.error e, world) => (.error e, world)

def ConfigVar.setValue (v : ConfigVar W ε) (val : v.T) (world : W) :
    Except ε Unit × ConfigVar W ε × W :=
  if v.eq val v.val then (.ok (), v, world)
  else
    match notify v.val val v.cbs world with
    | (.ok (), world) => (.ok (), { v with val := val }, world)
    | (.error e, world) => (.error e, v, world)

/-- `ConfigVar::fromString`, which catches what the conversion or a listener throws and returns
`false` in any case. -/
def ConfigVar.fromString (v : ConfigVar W ε) (text : String) (world : W) :
    Bool × ConfigVar W ε × W :=
  match v.fromStr text with
  | .ok val => (false, (v.setValue val world).2)
  | .error _ => (false, v, world)

/-- `Config`: `GetDatas()`, the state outside, and the calls of `fromString` so far, name first;
the code keeps no such list. -/
structure Config (W ε : Type) : Type 1 where
  datas : String → Option (ConfigVar W ε)
  named : ∀ name, (datas name).isSome = true → validName name = true
  world : W
  calls : List (String × String)

/-- `GetDatas()[name] = v`. -/
def Config.store (c : Config W ε) (name : String) (hname : validName name = true)
    (v : ConfigVar W ε) : Config W ε where
  datas := Function.update c.datas name (some v)
  named := by
    intro name' hname'
    by_cases hself : name' = name
    · rw [hself]
      exact hname
    · rw [Function.update_of_ne hself] at hname'
      exact c.named name' hname'
  world := c.world
  calls := c.calls

/-- `Config::Lookup` with a default value, up to its result: it throws `invalid_argument` for
other names. -/
def Config.lookup (c : Config W ε) (name : String) (v : ConfigVar W ε) :
    Except String (Config W ε) :=
  if (c.datas name).isSome then .ok c
  else if hname : validName name = true then .ok (c.store name hname v)
  else .error name

/-! ## The loop -/

/-- `IsScalar()` and the two calls of `fromString`. -/
def textOf (emit : Node → String) : Node → String
  | .scalar text => text
  | node => emit node

/-- `LookupBase(key)`, and `fromString(text)` of the variable that is found. -/
def Config.receive (c : Config W ε) (call : String × String) : Config W ε :=
  match hv : c.datas call.1 with
  | none => c
  | some v =>
      let r := v.fromString call.2 c.world
      { c.store call.1 (c.named call.1 (by rw [hv]; rfl)) r.2.1 with
        world := r.2.2
        calls := c.calls ++ [call] }

/-- The body of the loop over `all_node`. -/
def Config.visit (emit : Node → String) (c : Config W ε) (i : String × Node) : Config W ε :=
  if i.1 = "" then c else c.receive (i.1.toLower, textOf emit i.2)

def Config.loadFromYaml (emit : Node → String) (c : Config W ε) (root : Node) : Config W ε :=
  (listAllMember "" root).foldl (Config.visit emit) c

/-- The entries with the non-empty name of a variable, as calls of its `fromString`. -/
def matching (emit : Node → String) (c : Config W ε) (root : Node) : List (String × String) :=
  ((reachable root).filter fun e =>
    decide (dotted e.1 ≠ "" ∧ (c.datas (dotted e.1)).isSome = true)).map
      fun e => (dotted e.1, textOf emit e.2)

def Config.converts (c : Config W ε) (call : String × String) : Bool :=
  (c.datas call.1).any fun v => (v.fromStr call.2).isOk

/-! ## One call -/

theorem receive_of_none {c : Config W ε} {call : String × String} (h : c.datas call.1 = none) :
    c.receive call = c := by
  unfold Config.receive
  split
  · rfl
  · rename_i v hv
    rw [h] at hv
    cases hv

theorem receive_of_some {c : Config W ε} {call : String × String} {v : ConfigVar W ε}
    (h : c.datas call.1 = some v) :
    (c.receive call).datas =
        Function.update c.datas call.1 (some (v.fromString call.2 c.world).2.1) ∧
      (c.receive call).world = (v.fromString call.2 c.world).2.2 ∧
      (c.receive call).calls = c.calls ++ [call] := by
  unfold Config.receive
  split
  · rename_i hv
    rw [h] at hv
    cases hv
  · rename_i v' hv
    rw [h] at hv
    cases hv
    exact ⟨rfl, rfl, rfl⟩

/-- `fromString` changes the value of a variable at most. -/
theorem fromString_eq (v : ConfigVar W ε) (text : String) (world : W) :
    ∃ val, (v.fromString text world).2.1 = { v with val := val } := by
  unfold ConfigVar.fromString
  split
  · unfold ConfigVar.setValue
    split
    · exact ⟨v.val, rfl⟩
    · split
      · exact ⟨_, rfl⟩
      · exact ⟨v.val, rfl⟩
  · exact ⟨v.val, rfl⟩

theorem fromString_of_error {v : ConfigVar W ε} {text : String} (world : W)
    (h : (v.fromStr text).isOk = false) : v.fromString text world = (false, v, world) := by
  unfold ConfigVar.fromString
  split
  · rename_i val hval
    rw [hval] at h
    cases h
  · rfl

/-- A variable keeps its type and its conversion. -/
theorem receive_converts (c : Config W ε) (call call' : String × String) :
    (c.receive call).converts call' = c.converts call' := by
  cases hv : c.datas call.1 with
  | none => rw [receive_of_none hv]
  | some v =>
      obtain ⟨val, hval⟩ := fromString_eq v call.2 c.world
      unfold Config.converts
      rw [(receive_of_some hv).1, hval]
      by_cases hself : call'.1 = call.1
      · rw [hself, Function.update_self, hv]
        rfl
      · rw [Function.update_of_ne hself]

theorem receive_isSome (c : Config W ε) (call : String × String) (name : String) :
    ((c.receive call).datas name).isSome = (c.datas name).isSome := by
  cases hv : c.datas call.1 with
  | none => rw [receive_of_none hv]
  | some v =>
      rw [(receive_of_some hv).1]
      by_cases hself : name = call.1
      · rw [hself, Function.update_self, hv]
        rfl
      · rw [Function.update_of_ne hself]

theorem receive_other (c : Config W ε) {call : String × String} {name : String}
    (hname : call.1 ≠ name) : (c.receive call).datas name = c.datas name := by
  cases hv : c.datas call.1 with
  | none => rw [receive_of_none hv]
  | some v => rw [(receive_of_some hv).1, Function.update_of_ne hname.symm]

/-- A conversion that throws changes nothing. -/
theorem receive_of_error {c : Config W ε} {call : String × String}
    (h : c.converts call = false) :
    (c.receive call).datas = c.datas ∧ (c.receive call).world = c.world := by
  cases hv : c.datas call.1 with
  | none =>
      rw [receive_of_none hv]
      exact ⟨rfl, rfl⟩
  | some v =>
      unfold Config.converts at h
      rw [hv] at h
      obtain ⟨hdatas, hworld, _⟩ := receive_of_some hv
      rw [hdatas, hworld, fromString_of_error c.world h]
      refine ⟨?_, rfl⟩
      rw [← hv]
      exact Function.update_eq_self call.1 c.datas

theorem receive_congr {c d : Config W ε} (hdatas : c.datas = d.datas) (hworld : c.world = d.world)
    (call : String × String) :
    (c.receive call).datas = (d.receive call).datas ∧
      (c.receive call).world = (d.receive call).world := by
  cases hv : c.datas call.1 with
  | none =>
      have hv' : d.datas call.1 = none := by rw [← hdatas, hv]
      rw [receive_of_none hv, receive_of_none hv']
      exact ⟨hdatas, hworld⟩
  | some v =>
      have hv' : d.datas call.1 = some v := by rw [← hdatas, hv]
      obtain ⟨hc, hcw, _⟩ := receive_of_some hv
      obtain ⟨hd, hdw, _⟩ := receive_of_some hv'
      rw [hc, hd, hcw, hdw, hdatas, hworld]
      exact ⟨rfl, rfl⟩

/-! ## All calls -/

/-- The loop calls `fromString` for the entries that name a variable, in their order. -/
theorem foldl_visit (emit : Node → String) (c d : Config W ε)
    (hreg : ∀ name, (d.datas name).isSome = (c.datas name).isSome)
    (es : List (List String × Node)) :
    ((es.filter fun e => decide (Spared e.1)).map fun e => (dotted e.1, e.2)).foldl
        (Config.visit emit) d =
      ((es.filter fun e =>
        decide (dotted e.1 ≠ "" ∧ (c.datas (dotted e.1)).isSome = true)).map
          fun e => (dotted e.1, textOf emit e.2)).foldl Config.receive d := by
  induction es generalizing d with
  | nil => rfl
  | cons e es ih =>
      by_cases hnamed : dotted e.1 ≠ "" ∧ (c.datas (dotted e.1)).isSome = true
      · have hvalid := c.named _ hnamed.2
        have hspared : Spared e.1 := (spared_iff e.1).mpr hvalid
        have hvisit : d.visit emit (dotted e.1, e.2) =
            d.receive (dotted e.1, textOf emit e.2) := by
          unfold Config.visit
          rw [if_neg hnamed.1, toLower_of_validName hvalid]
        rw [List.filter_cons, if_pos (decide_eq_true hspared), List.filter_cons,
          if_pos (decide_eq_true hnamed), List.map_cons, List.map_cons, List.foldl_cons,
          List.foldl_cons, hvisit]
        apply ih
        intro name
        rw [receive_isSome, hreg name]
      · have hdrop : ¬ decide (dotted e.1 ≠ "" ∧ (c.datas (dotted e.1)).isSome = true) = true :=
          fun h => hnamed (of_decide_eq_true h)
        by_cases hspared : Spared e.1
        · have hvisit : d.visit emit (dotted e.1, e.2) = d := by
            unfold Config.visit
            split
            · rfl
            · rename_i hne
              rw [toLower_of_validName ((spared_iff e.1).mp hspared)]
              apply receive_of_none
              have hnone := hreg (dotted e.1)
              rw [Bool.eq_false_iff.mpr fun hsome => hnamed ⟨hne, hsome⟩] at hnone
              exact Option.isNone_iff_eq_none.mp (Option.isSome_eq_false_iff.mp hnone)
          rw [List.filter_cons, if_pos (decide_eq_true hspared), List.filter_cons, if_neg hdrop,
            List.map_cons, List.foldl_cons, hvisit]
          exact ih d hreg
        · rw [List.filter_cons, if_neg (fun h => hspared (of_decide_eq_true h)),
            List.filter_cons, if_neg hdrop]
          exact ih d hreg

theorem loadFromYaml_eq (emit : Node → String) (c : Config W ε) (root : Node) :
    c.loadFromYaml emit root = (matching emit c root).foldl Config.receive c := by
  unfold Config.loadFromYaml matching
  rw [listAllMember_root]
  exact foldl_visit emit c c (fun _ => rfl) (reachable root)

theorem foldl_receive_calls (calls : List (String × String)) (c : Config W ε)
    (hcalls : ∀ call ∈ calls, (c.datas call.1).isSome = true) :
    (calls.foldl Config.receive c).calls = c.calls ++ calls := by
  induction calls generalizing c with
  | nil => rw [List.foldl_nil, List.append_nil]
  | cons call calls ih =>
      obtain ⟨v, hv⟩ := Option.isSome_iff_exists.mp (hcalls call List.mem_cons_self)
      rw [List.foldl_cons, ih, (receive_of_some hv).2.2, List.append_assoc]
      · rfl
      · intro call' hcall'
        rw [receive_isSome]
        exact hcalls call' (List.mem_cons_of_mem _ hcall')

theorem foldl_receive_other (calls : List (String × String)) (c : Config W ε) {name : String}
    (hname : ∀ call ∈ calls, call.1 ≠ name) :
    (calls.foldl Config.receive c).datas name = c.datas name := by
  induction calls generalizing c with
  | nil => rfl
  | cons call calls ih =>
      rw [List.foldl_cons, ih _ fun call' h => hname call' (List.mem_cons_of_mem _ h),
        receive_other c (hname call List.mem_cons_self)]

/-- Calls whose conversion throws might as well not be made. -/
theorem foldl_receive_filter (calls : List (String × String)) (b : Config W ε)
    {c d : Config W ε} (hdatas : c.datas = d.datas) (hworld : c.world = d.world)
    (hconverts : ∀ call, c.converts call = b.converts call) :
    (calls.foldl Config.receive c).datas =
        ((calls.filter b.converts).foldl Config.receive d).datas ∧
      (calls.foldl Config.receive c).world =
        ((calls.filter b.converts).foldl Config.receive d).world := by
  induction calls generalizing c d with
  | nil => exact ⟨hdatas, hworld⟩
  | cons call calls ih =>
      have hnext : ∀ call', (c.receive call).converts call' = b.converts call' := by
        intro call'
        rw [receive_converts, hconverts]
      rw [List.foldl_cons]
      cases hb : b.converts call with
      | true =>
          rw [List.filter_cons_of_pos hb, List.foldl_cons]
          obtain ⟨hd, hw⟩ := receive_congr hdatas hworld call
          exact ih hd hw hnext
      | false =>
          rw [List.filter_cons_of_neg (by rw [hb]; exact Bool.false_ne_true)]
          obtain ⟨hd, hw⟩ := receive_of_error ((hconverts call).trans hb)
          exact ih (hd.trans hdatas) (hw.trans hworld) hnext

/-! ## A document -/

theorem loadFromYaml_calls (emit : Node → String) (c : Config W ε) (root : Node) :
    (c.loadFromYaml emit root).calls = c.calls ++ matching emit c root := by
  rw [loadFromYaml_eq]
  apply foldl_receive_calls
  intro call hcall
  obtain ⟨e, he, rfl⟩ := List.mem_map.mp hcall
  exact (of_decide_eq_true (List.mem_filter.mp he).2).2

/-- `LoadFromYaml` calls `fromString` for exactly the entries that name a variable, with their
texts and in the order of the document, and a conversion that throws has no effect on anything. -/
theorem loadFromYaml_applies (emit : Node → String) (c : Config W ε) (root : Node) :
    (∀ path node, (path, node) ∈ reachable root ↔ At root path node) ∧
      listAllMember "" root =
        ((reachable root).filter fun e => decide (Spared e.1)).map (fun e => (dotted e.1, e.2)) ∧
      (c.loadFromYaml emit root).calls = c.calls ++ matching emit c root ∧
      c.loadFromYaml emit root = (matching emit c root).foldl Config.receive c ∧
      (∀ (d : Config W ε) (call : String × String) v, d.datas call.1 = some v →
        (d.receive call).datas =
            Function.update d.datas call.1 (some (v.fromString call.2 d.world).2.1) ∧
          (d.receive call).world = (v.fromString call.2 d.world).2.2 ∧
          (d.receive call).calls = d.calls ++ [call]) ∧
      (∀ name, (∀ call ∈ matching emit c root, call.1 ≠ name) →
        (c.loadFromYaml emit root).datas name = c.datas name) ∧
      (∀ d : Config W ε, ∀ call, d.converts call = false →
        (d.receive call).datas = d.datas ∧ (d.receive call).world = d.world) ∧
      (c.loadFromYaml emit root).datas =
        (((matching emit c root).filter c.converts).foldl Config.receive c).datas ∧
      (c.loadFromYaml emit root).world =
        (((matching emit c root).filter c.converts).foldl Config.receive c).world := by
  have hfold := loadFromYaml_eq emit c root
  obtain ⟨hdatas, hworld⟩ := foldl_receive_filter (matching emit c root) c (c := c) rfl rfl
    fun _ => rfl
  refine ⟨mem_reachable root, listAllMember_root root, loadFromYaml_calls emit c root, hfold,
    fun d call v hv => receive_of_some hv, ?_, ?_, ?_, ?_⟩
  · intro name hname
    rw [hfold]
    exact foldl_receive_other _ c hname
  · intro d call hcall
    exact receive_of_error hcall
  · rw [hfold]
    exact hdatas
  · rw [hfold]
    exact hworld

/-- A nested key and a dotted key name one variable. -/
example : (listAllMember "" (.map [("tcp", .map [("port", .scalar "80")]), ("tcp.port", .null),
    ("Udp", .map [("port", .null)])])).map Prod.fst = ["", "tcp", "tcp.port", "tcp.port"] := by
  decide

end Sylar.Load
