import Sylar.Config.Load

/-! # Keys in capital letters

`LoadFromYaml` looks names up in lower case, but `ListAllMember` has dropped the names with
capital letters before that. A document is compared with the one whose keys are lower-cased.
-/

namespace Sylar.Load

open Yaml

/-! ## Keys in lower case -/

mutual
def lower (node : Node) : Node :=
  match node with
  | .map entries => .map (lowerEntries entries)
  | .seq items => .seq (lowerItems items)
  | .null => .null
  | .scalar text => .scalar text
termination_by structural node

def lowerEntries (entries : List (String × Node)) : List (String × Node) :=
  match entries with
  | [] => []
  | (key, node) :: rest => (key.toLower, lower node) :: lowerEntries rest
termination_by structural entries

def lowerItems (items : List Node) : List Node :=
  match items with
  | [] => []
  | node :: rest => lower node :: lowerItems rest
termination_by structural items
end

theorem toLower_toList (s : String) : s.toLower.toList = s.toList.map Char.toLower := by
  rw [String.toLower, String.toList_map]

theorem toLower_eq {s t : String} (h : s.toList.map Char.toLower = t.toList) : s.toLower = t :=
  String.toList_inj.mp ((toLower_toList s).trans h)

theorem toLower_append (a b : String) : (a ++ b).toLower = a.toLower ++ b.toLower := by
  apply toLower_eq
  simp only [toLower_toList, String.toList_append, List.map_append]

theorem toLower_eq_empty (s : String) : s.toLower = "" ↔ s = "" := by
  rw [← String.toList_inj, ← String.toList_inj, toLower_toList]
  exact List.map_eq_nil_iff

theorem toLower_member (pre key : String) :
    (member pre key).toLower = member pre.toLower key.toLower := by
  have hdot : ".".toLower = "." := toLower_eq (by decide)
  unfold member
  by_cases hempty : pre = ""
  · rw [if_pos hempty, if_pos ((toLower_eq_empty pre).mpr hempty)]
  · rw [if_neg hempty, if_neg fun h => hempty ((toLower_eq_empty pre).mp h), toLower_append,
      toLower_append, hdot]

theorem dotted_lower (path : List String) :
    dotted (path.map String.toLower) = (dotted path).toLower := by
  have hpath : ∀ pre : String, (path.map String.toLower).foldl member pre.toLower =
      (path.foldl member pre).toLower := by
    induction path with
    | nil => exact fun _ => rfl
    | cons key path ih =>
        intro pre
        rw [List.map_cons, List.foldl_cons, List.foldl_cons, ← toLower_member]
        exact ih (member pre key)
  have hempty : "".toLower = "" := (toLower_eq_empty "").mpr rfl
  have hroot := hpath ""
  rwa [hempty] at hroot

mutual
theorem reachable_lower (node : Node) :
    reachable (lower node) =
      (reachable node).map fun e => (e.1.map String.toLower, lower e.2) := by
  cases node with
  | map entries =>
      rw [lower, reachable, reachable, List.map_cons]
      exact congrArg _ (reachableMembers_lower entries)
  | null | scalar text | seq items => rfl

theorem reachableMembers_lower (entries : List (String × Node)) :
    reachableMembers (lowerEntries entries) =
      (reachableMembers entries).map fun e => (e.1.map String.toLower, lower e.2) := by
  cases entries with
  | nil => rfl
  | cons entry rest =>
      obtain ⟨key, node⟩ := entry
      rw [lowerEntries, reachableMembers, reachableMembers, List.map_append, List.map_map,
        reachable_lower node, reachableMembers_lower rest, List.map_map]
      rfl
end

/-! ## Two documents -/

variable {W ε : Type}

/-- Both documents leave the same variables and make the same calls. -/
def CaseInsensitive (emit : Node → String) (c : Config W ε) (root : Node) : Prop :=
  (c.loadFromYaml emit root).datas = (c.loadFromYaml emit (lower root)).datas ∧
    (c.loadFromYaml emit root).calls = (c.loadFromYaml emit (lower root)).calls

/-- An entry whose lower-cased path names a variable has a path in lower case, and the text
that the variable receives is the same with the keys inside it in lower case. -/
def AlreadyLower (emit : Node → String) (c : Config W ε) (root : Node) : Prop :=
  ∀ e ∈ reachable root, (dotted e.1).toLower ≠ "" →
    (c.datas (dotted e.1).toLower).isSome = true →
      dotted e.1 = (dotted e.1).toLower ∧ textOf emit e.2 = textOf emit (lower e.2)

/-- Of two selections from one list, of which the second selects more, the results are the
same only if nothing more is selected. -/
theorem map_filter_eq_iff {α β : Type*} {p q : α → Bool} {f g : α → β} {l : List α}
    (hpq : ∀ a ∈ l, p a = true → q a = true) :
    (l.filter p).map f = (l.filter q).map g ↔ ∀ a ∈ l, q a = true → p a = true ∧ f a = g a := by
  induction l with
  | nil => simp
  | cons a l ih =>
      have ih := ih fun b hb => hpq b (List.mem_cons_of_mem a hb)
      have hlen : (l.filter p).length ≤ (l.filter q).length := by
        rw [← List.countP_eq_length_filter, ← List.countP_eq_length_filter]
        exact List.countP_mono_left fun b hb => hpq b (List.mem_cons_of_mem a hb)
      rw [List.forall_mem_cons, ← ih]
      cases hp : p a with
      | true =>
          have hq := hpq a List.mem_cons_self hp
          simp [hp, hq]
      | false =>
          cases hq : q a with
          | true =>
              simp only [List.filter_cons, hp, hq, if_true, Bool.false_eq_true, if_false,
                List.map_cons, false_and, forall_const, iff_false]
              intro heq
              have hlength := congrArg List.length heq
              simp only [List.length_map, List.length_cons] at hlength
              omega
          | false => simp [hp, hq]

theorem matching_lower (emit : Node → String) (c : Config W ε) (root : Node) :
    matching emit c (lower root) =
      ((reachable root).filter fun e =>
        decide ((dotted e.1).toLower ≠ "" ∧ (c.datas (dotted e.1).toLower).isSome = true)).map
          fun e => ((dotted e.1).toLower, textOf emit (lower e.2)) := by
  rw [matching, reachable_lower, List.filter_map, List.map_map]
  simp only [Function.comp_def, dotted_lower]

theorem matching_lower_iff (emit : Node → String) (c : Config W ε) (root : Node) :
    matching emit c root = matching emit c (lower root) ↔ AlreadyLower emit c root := by
  rw [matching_lower, matching, map_filter_eq_iff]
  · constructor
    · intro h e he hne hsome
      obtain ⟨-, heq⟩ := h e he (decide_eq_true ⟨hne, hsome⟩)
      exact Prod.mk.inj heq
    · intro h e he hq
      obtain ⟨hne, hsome⟩ := of_decide_eq_true hq
      obtain ⟨hname, htext⟩ := h e he hne hsome
      refine ⟨?_, Prod.ext hname htext⟩
      rw [hname]
      exact hq
  · intro e _ hp
    obtain ⟨hne, hsome⟩ := of_decide_eq_true hp
    have hname := toLower_of_validName (c.named _ hsome)
    rw [hname]
    exact decide_eq_true ⟨hne, hsome⟩

/-- `LoadFromYaml` does not distinguish a document from its lower-cased form exactly if no
capital letter stands where it matters. -/
theorem loadFromYaml_caseInsensitive_iff (emit : Node → String) (c : Config W ε) (root : Node) :
    CaseInsensitive emit c root ↔ AlreadyLower emit c root := by
  rw [← matching_lower_iff]
  constructor
  · rintro ⟨-, hcalls⟩
    rw [loadFromYaml_calls, loadFromYaml_calls] at hcalls
    exact List.append_cancel_left hcalls
  · intro hmatching
    have hload : c.loadFromYaml emit root = c.loadFromYaml emit (lower root) := by
      rw [loadFromYaml_eq, loadFromYaml_eq, hmatching]
    exact ⟨congrArg Config.datas hload, congrArg Config.calls hload⟩

/-- One variable, `system.port`. -/
def portConfig : Config Unit Unit :=
  let empty : Config Unit Unit := ⟨fun _ => none, fun _ h => (by cases h), (), []⟩
  empty.store "system.port" (by decide)
    ⟨Nat, fun a b => decide (a = b),
      fun text => if text = "8000" then .ok 8000 else .error (), 8080, []⟩

/-- `System: {port: 8000}` -/
def capitalRoot : Node := .map [("System", .map [("port", .scalar "8000")])]

/-- The setting is dropped, and in its lower-cased form it is not. -/
theorem capital_key_dropped :
    (portConfig.loadFromYaml (fun _ => "") capitalRoot).calls = [] ∧
      (portConfig.loadFromYaml (fun _ => "") (lower capitalRoot)).calls =
        [("system.port", "8000")] ∧
      ¬ CaseInsensitive (fun _ => "") portConfig capitalRoot := by
  have hsystem : "System".toLower = "system" := toLower_eq (by decide)
  have hport : "port".toLower = "port" := toLower_eq (by decide)
  have hlower : lower capitalRoot = .map [("system", .map [("port", .scalar "8000")])] := by
    simp only [capitalRoot, lower, lowerEntries, hsystem, hport]
  have hcalls : (portConfig.loadFromYaml (fun _ => "") capitalRoot).calls = [] := by
    rw [loadFromYaml_calls]
    decide
  have hcalls' : (portConfig.loadFromYaml (fun _ => "") (lower capitalRoot)).calls =
      [("system.port", "8000")] := by
    rw [hlower, loadFromYaml_calls]
    decide
  refine ⟨hcalls, hcalls', fun h => ?_⟩
  have heq := h.2
  rw [hcalls, hcalls'] at heq
  cases heq

end Sylar.Load
