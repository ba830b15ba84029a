import Mathlib

/-! # Document nodes

Nodes of a YAML document, their access by key and position, and the entries of a map under
construction. A key that is missing is no error: its node is undefined.
-/

namespace Sylar.Yaml

inductive Node where
  | null
  | scalar (text : String)
  | seq (items : List Node)
  | map (entries : List (String × Node))

inductive Error where
  | badSubscript
  | badConversion
  | logicError (what : String)
  deriving DecidableEq, Repr

/-! ## Access -/

/-- `node[key]`; `none` is a node that is not defined. -/
def Node.get (key : String) : Node → Except Error (Option Node)
  | .map entries => .ok (entries.lookup key)
  | .scalar _ => .error .badSubscript
  | .null | .seq _ => .ok none

/-- `node.as<std::string>()` of yaml-cpp up to 0.6; later versions give a null node the text
`null`. -/
def Node.asString : Node → Except Error String
  | .scalar text => .ok text
  | _ => .error .badConversion

/-- `node[0]`, …, `node[node.size() - 1]`; a position that is no key of a map gives an
undefined node, in which no key is defined either. -/
def Node.elements : Node → List Node
  | .seq items => items
  | .map entries =>
      (List.range entries.length).map fun x => (entries.lookup (toString x)).getD .null
  | .scalar _ | .null => []

/-! ## Construction -/

/-- `node[key] = value` on a map. -/
def assign (key : String) (value : Node) : List (String × Node) → List (String × Node)
  | [] => [(key, value)]
  | entry :: entries =>
      if key = entry.1 then (key, value) :: entries else entry :: assign key value entries

def itemsAt (key : String) (entries : List (String × Node)) : List Node :=
  match entries.lookup key with
  | some (.seq items) => items
  | _ => []

/-- `node[key].push_back(value)` on a map whose node at `key` is undefined or a sequence. -/
def pushBack (key : String) (entries : List (String × Node)) (value : Node) :
    List (String × Node) :=
  assign key (.seq (itemsAt key entries ++ [value])) entries

theorem lookup_cons (key : String) (entry : String × Node) (entries : List (String × Node)) :
    (entry :: entries).lookup key = if key = entry.1 then some entry.2 else entries.lookup key := by
  rw [List.lookup_cons]
  by_cases hkey : key = entry.1
  · simp [hkey]
  · simp [hkey, beq_eq_false_iff_ne.mpr hkey]

@[simp] theorem lookup_assign (key key' : String) (value : Node)
    (entries : List (String × Node)) :
    (assign key value entries).lookup key' =
      if key' = key then some value else entries.lookup key' := by
  induction entries with
  | nil => simp [assign, lookup_cons]
  | cons entry entries ih =>
      unfold assign
      by_cases hkey : key = entry.1
      · rw [if_pos hkey, lookup_cons, lookup_cons, ← hkey]
        split <;> rfl
      · rw [if_neg hkey, lookup_cons, ih, lookup_cons]
        by_cases hself : key' = key
        · simp [hself, hkey]
        · simp [hself]

/-- Pushing values in turn extends the sequence, and changes no other key. -/
theorem lookup_pushBacks (key key' : String) (values : List Node)
    (entries : List (String × Node)) :
    (values.foldl (pushBack key) entries).lookup key' =
      if key' = key ∧ values ≠ [] then some (.seq (itemsAt key entries ++ values))
      else entries.lookup key' := by
  induction values generalizing entries with
  | nil => simp
  | cons value values ih =>
      have hitems : itemsAt key (pushBack key entries value) = itemsAt key entries ++ [value] := by
        simp [itemsAt, pushBack]
      rw [List.foldl_cons, ih, hitems, pushBack, lookup_assign, List.append_assoc]
      by_cases hself : key' = key <;> by_cases hvalues : values = [] <;> simp [hself, hvalues]

end Sylar.Yaml
