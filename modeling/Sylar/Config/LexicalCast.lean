import Sylar.Yaml.Notation

/-! # `LexicalCast` of containers

The partial specialisations for containers take the two casts of an element type to the two
casts of a container type, so that a nested type is a composition of them. Every level prints
and parses again. A container without elements leaves its node unwritten, and what is loaded
from the text of such a node is null.
-/

namespace Sylar.LexicalCast

open Yaml

/-! ## The library -/

/-- What `YAML::Load`, a cast and the access through an iterator of the wrong kind throw. -/
inductive Error where
  | parser
  | badLexicalCast
  | invalidNode
  deriving DecidableEq, Repr

/-- `YAML::Load`, and `ss << node` for a node and for one that was never written to. -/
structure YamlCpp where
  load : String → Except Error Node
  emit : Node → String
  blank : String

/-- Loading the text of a node gives back the node; an unwritten one is loaded as null. -/
structure YamlCpp.Lossless (y : YamlCpp) : Prop where
  emit : ∀ node, y.load (y.emit node) = .ok node
  blank : y.load y.blank = .ok .null

/-- The text of a node; `none` is a node that is unwritten or undefined. -/
def YamlCpp.text (y : YamlCpp) : Option Node → String
  | none => y.blank
  | some node => y.emit node

/-- `YAML::Node node` after the calls of `push_back`. -/
def pushed : List Node → Option Node
  | [] => none
  | items => some (.seq items)

/-- `YAML::Node node` after the assignments to `node[key]`. -/
def assigned : List (String × Node) → Option Node
  | [] => none
  | entries => some (.map (entries.foldl (fun es e => assign e.1 e.2 es) []))

/-- `node[0]`, …, `node[node.size() - 1]`; `none` is an undefined node. -/
def positions : Node → List (Option Node)
  | .seq items => items.map some
  | .map entries => (List.range entries.length).map fun x => entries.lookup (toString x)
  | .scalar _ | .null => []

/-- The pairs `it->first.Scalar()` and `it->second` from `node.begin()` on; the elements of a
sequence have no first component. -/
def members : Node → Except Error (List (String × Node))
  | .map entries => .ok entries
  | .seq (_ :: _) => .error .invalidNode
  | .seq [] | .scalar _ | .null => .ok []

/-! ## Types -/

/-- A type of config values with its two casts. An object has an order of iteration, which
its value may not have. -/
structure Castable where
  Obj : Type
  Val : Type
  decEq : DecidableEq Val
  value : Obj → Val
  /-- `LexicalCast<T, std::string>` -/
  toText : Obj → Except Error String
  /-- `LexicalCast<std::string, T>`, up to the order of iteration -/
  fromText : String → Except Error Val

instance (c : Castable) : DecidableEq c.Val := c.decEq

/-- A type that `boost::lexical_cast` prints and reads. -/
def leaf {α : Type} [DecidableEq α] (print : α → String) (read : String → Except Error α) :
    Castable where
  Obj := α
  Val := α
  decEq := inferInstance
  value := id
  toText := fun v => .ok (print v)
  fromText := read

variable (y : YamlCpp)

/-- `for (auto& i : v) node.push_back(YAML::Load(LexicalCast<T, std::string>()(i)));` -/
def Castable.pushAll (c : Castable) (v : List c.Obj) : Except Error String := do
  let nodes ← v.mapM fun i => do y.load (← c.toText i)
  return y.text (pushed nodes)

/-- The loop over `node[i]`, which casts the text of every element. -/
def Castable.elements (c : Castable) (v : String) : Except Error (List c.Val) := do
  let node ← y.load v
  (positions node).mapM fun i => c.fromText (y.text i)

/-- `for (auto& i : v) node[i.first] = YAML::Load(LexicalCast<T, std::string>()(i.second));` -/
def Castable.assignAll (c : Castable) (v : List (String × c.Obj)) : Except Error String := do
  let entries ← v.mapM fun i => do return (i.1, ← y.load (← c.toText i.2))
  return y.text (assigned entries)

/-- The loop over the entries of `node`. -/
def Castable.entries (c : Castable) (v : String) : Except Error (List (String × c.Val)) := do
  let node ← y.load v
  (← members node).mapM fun it => do return (it.1, ← c.fromText (y.emit it.2))

/-- `vec.insert(std::make_pair(key, value))` keeps the entry of a key that is there. -/
def insertKey {β : Type} [DecidableEq β] (vec : Finset (String × β)) (e : String × β) :
    Finset (String × β) :=
  if e.1 ∈ vec.image Prod.fst then vec else insert e vec

/-- The casts of the containers with `push_back`. -/
def sequence (c : Castable) : Castable where
  Obj := List c.Obj
  Val := List c.Val
  decEq := inferInstance
  value := fun v => v.map c.value
  toText := c.pushAll y
  fromText := c.elements y

/-- The casts of the containers with `insert`: no two elements are equal. -/
def distinct (c : Castable) : Castable where
  Obj := { v : List c.Obj // (v.map c.value).Nodup }
  Val := Finset c.Val
  decEq := inferInstance
  value := fun v => (v.1.map c.value).toFinset
  toText := fun v => c.pushAll y v.1
  fromText := fun v => do return (← c.elements y v).foldl (fun vec x => insert x vec) ∅

/-- The casts of the containers with string keys, no two of which are equal. -/
def keyed (c : Castable) : Castable where
  Obj := { v : List (String × c.Obj) // (v.map Prod.fst).Nodup }
  Val := Finset (String × c.Val)
  decEq := inferInstance
  value := fun v => (v.1.map fun e => (e.1, c.value e.2)).toFinset
  toText := fun v => c.assignAll y v.1
  fromText := fun v => do return (← c.entries y v).foldl insertKey ∅

def vector : Castable → Castable := sequence y

def list : Castable → Castable := sequence y

def set : Castable → Castable := distinct y

def unorderedSet : Castable → Castable := distinct y

def map : Castable → Castable := keyed y

def unorderedMap : Castable → Castable := keyed y

/-- The types that are built by nesting containers over one leaf type. -/
inductive Ty where
  | leaf
  | vector (t : Ty)
  | list (t : Ty)
  | set (t : Ty)
  | unorderedSet (t : Ty)
  | map (t : Ty)
  | unorderedMap (t : Ty)
  deriving DecidableEq, Repr

/-- `LexicalCast` of a nested type. -/
def nested (leaf : Castable) : Ty → Castable
  | .leaf => leaf
  | .vector t => vector y (nested leaf t)
  | .list t => list y (nested leaf t)
  | .set t => set y (nested leaf t)
  | .unorderedSet t => unorderedSet y (nested leaf t)
  | .map t => map y (nested leaf t)
  | .unorderedMap t => unorderedMap y (nested leaf t)

/-! ## Round trips -/

/-- What is printed of `o` is read back, also after it was loaded and printed again. -/
def Castable.Returns (c : Castable) (o : c.Obj) : Prop :=
  ∃ text node, c.toText o = .ok text ∧ y.load text = .ok node ∧
    c.fromText text = .ok (c.value o) ∧ c.fromText (y.emit node) = .ok (c.value o)

def Castable.RoundTrips (c : Castable) : Prop := ∀ o, c.Returns y o

structure PlainLeaf {α : Type} (print : α → String) (read : String → Except Error α) : Prop where
  emit : ∀ v, y.emit (.scalar (print v)) = print v
  read : ∀ v, read (print v) = .ok v

variable {y}

theorem leaf_roundTrips (hy : y.Lossless) {α : Type} [DecidableEq α] {print : α → String}
    {read : String → Except Error α} (h : PlainLeaf y print read) :
    (leaf print read).RoundTrips y := by
  intro v
  have hload := hy.emit (.scalar (print v))
  rw [h.emit v] at hload
  refine ⟨print v, .scalar (print v), rfl, hload, h.read v, ?_⟩
  rw [h.emit v]
  exact h.read v

theorem mapM_ok {α β : Type} {f : α → Except Error β} {g : α → β} {l : List α}
    (h : ∀ x ∈ l, f x = .ok (g x)) : l.mapM f = .ok (l.map g) := by
  induction l with
  | nil => rfl
  | cons x l ih =>
      rw [List.mapM_cons, h x List.mem_cons_self, ih fun z hz => h z (List.mem_cons_of_mem x hz)]
      rfl

theorem load_pushed (hy : y.Lossless) (nodes : List Node) :
    ∃ node, y.load (y.text (pushed nodes)) = .ok node ∧ positions node = nodes.map some := by
  cases nodes with
  | nil => exact ⟨.null, hy.blank, rfl⟩
  | cons node rest => exact ⟨.seq (node :: rest), hy.emit _, rfl⟩

/-- The loops of the containers with one element type. -/
theorem pushAll_elements (hy : y.Lossless) {c : Castable} (hc : c.RoundTrips y)
    (v : List c.Obj) :
    ∃ text node, c.pushAll y v = .ok text ∧ y.load text = .ok node ∧
      c.elements y text = .ok (v.map c.value) ∧
      c.elements y (y.emit node) = .ok (v.map c.value) := by
  choose text node htext hload _ hback using hc
  have hnodes : (v.mapM fun i => do y.load (← c.toText i)) = .ok (v.map node) := by
    apply mapM_ok
    intro o _
    rw [htext o]
    exact hload o
  obtain ⟨loaded, hloaded, hpositions⟩ := load_pushed hy (v.map node)
  have hcast : ∀ text, y.load text = .ok loaded → c.elements y text = .ok (v.map c.value) := by
    intro text htext
    have hmap : ((v.map node).map some).mapM (fun i => c.fromText (y.text i)) =
        .ok (v.map c.value) := by
      rw [List.map_map, List.mapM_map]
      apply mapM_ok
      intro o _
      exact hback o
    unfold Castable.elements
    rw [htext]
    dsimp only [bind, Except.bind]
    rw [hpositions]
    exact hmap
  refine ⟨y.text (pushed (v.map node)), loaded, ?_, hloaded, hcast _ hloaded,
    hcast _ (hy.emit loaded)⟩
  unfold Castable.pushAll
  rw [hnodes]
  rfl

theorem sequence_roundTrips (hy : y.Lossless) {c : Castable} (hc : c.RoundTrips y) :
    (sequence y c).RoundTrips y := pushAll_elements hy hc

theorem foldl_insert {β : Type} [DecidableEq β] (l : List β) (vec : Finset β) :
    l.foldl (fun vec x => insert x vec) vec = vec ∪ l.toFinset := by
  induction l generalizing vec with
  | nil => simp
  | cons x l ih =>
      rw [List.foldl_cons, ih, List.toFinset_cons, Finset.union_insert, Finset.insert_union]

theorem distinct_roundTrips (hy : y.Lossless) {c : Castable} (hc : c.RoundTrips y) :
    (distinct y c).RoundTrips y := by
  intro v
  obtain ⟨text, node, htext, hload, hcast, hback⟩ := pushAll_elements hy hc v.1
  refine ⟨text, node, htext, hload, ?_, ?_⟩
  · simp only [distinct, hcast, bind, Except.bind, pure, Except.pure]
    rw [foldl_insert, Finset.empty_union]
  · simp only [distinct, hback, bind, Except.bind, pure, Except.pure]
    rw [foldl_insert, Finset.empty_union]

theorem assign_of_notMem {key : String} {value : Node} {entries : List (String × Node)}
    (h : key ∉ entries.map Prod.fst) : assign key value entries = entries ++ [(key, value)] := by
  induction entries with
  | nil => rfl
  | cons entry entries ih =>
      rw [List.map_cons, List.mem_cons, not_or] at h
      rw [assign, if_neg h.1, ih h.2, List.cons_append]

/-- Assignments to different keys are kept in their order. -/
theorem foldl_assign (entries done : List (String × Node))
    (h : ((done ++ entries).map Prod.fst).Nodup) :
    entries.foldl (fun es e => assign e.1 e.2 es) done = done ++ entries := by
  induction entries generalizing done with
  | nil => simp
  | cons entry entries ih =>
      have hnew : entry.1 ∉ done.map Prod.fst := by
        rw [List.map_append, List.map_cons, List.nodup_middle] at h
        intro hmem
        exact (List.nodup_cons.mp h).1 (List.mem_append_left _ hmem)
      have hsplit : done ++ entry :: entries = done ++ [entry] ++ entries := by simp
      rw [List.foldl_cons, assign_of_notMem hnew, ih, hsplit]
      rw [← hsplit]
      exact h

theorem load_assigned (hy : y.Lossless) {entries : List (String × Node)}
    (h : (entries.map Prod.fst).Nodup) :
    ∃ node, y.load (y.text (assigned entries)) = .ok node ∧ members node = .ok entries := by
  cases entries with
  | nil => exact ⟨.null, hy.blank, rfl⟩
  | cons entry rest =>
      refine ⟨.map (entry :: rest), ?_, rfl⟩
      simp only [assigned, foldl_assign (entry :: rest) [] h, List.nil_append]
      exact hy.emit _

theorem assignAll_entries (hy : y.Lossless) {c : Castable} (hc : c.RoundTrips y)
    {v : List (String × c.Obj)} (hkeys : (v.map Prod.fst).Nodup) :
    ∃ text node, c.assignAll y v = .ok text ∧ y.load text = .ok node ∧
      c.entries y text = .ok (v.map fun e => (e.1, c.value e.2)) ∧
      c.entries y (y.emit node) = .ok (v.map fun e => (e.1, c.value e.2)) := by
  choose text node htext hload _ hback using hc
  have hnodes : (v.mapM fun i => do return (i.1, ← y.load (← c.toText i.2))) =
      .ok (v.map fun e => (e.1, node e.2)) := by
    apply mapM_ok
    intro e _
    simp only [htext, hload, bind, Except.bind, pure, Except.pure]
  have hsame : ((v.map fun e => (e.1, node e.2)).map Prod.fst).Nodup := by
    rw [List.map_map]
    exact hkeys
  obtain ⟨loaded, hloaded, hmembers⟩ := load_assigned hy hsame
  have hcast : ∀ text, y.load text = .ok loaded →
      c.entries y text = .ok (v.map fun e => (e.1, c.value e.2)) := by
    intro text htext
    have hmap : (v.map fun e => (e.1, node e.2)).mapM
        (fun it => do return (it.1, ← c.fromText (y.emit it.2))) =
          .ok (v.map fun e => (e.1, c.value e.2)) := by
      rw [List.mapM_map]
      apply mapM_ok
      intro e _
      simp only [Function.comp_apply, hback, bind, Except.bind, pure, Except.pure]
    unfold Castable.entries
    rw [htext]
    dsimp only [bind, Except.bind]
    rw [hmembers]
    exact hmap
  refine ⟨y.text (assigned (v.map fun e => (e.1, node e.2))), loaded, ?_, hloaded,
    hcast _ hloaded, hcast _ (hy.emit loaded)⟩
  unfold Castable.assignAll
  rw [hnodes]
  rfl

/-- Inserting entries with different keys in turn. -/
theorem foldl_insertKey {β : Type} [DecidableEq β] (l : List (String × β))
    (vec : Finset (String × β)) (hkeys : (l.map Prod.fst).Nodup)
    (hnew : ∀ e ∈ l, e.1 ∉ vec.image Prod.fst) :
    l.foldl insertKey vec = vec ∪ l.toFinset := by
  induction l generalizing vec with
  | nil => simp
  | cons e l ih =>
      obtain ⟨hfirst, hrest⟩ := List.nodup_cons.mp hkeys
      have hinsert : insertKey vec e = insert e vec :=
        if_neg (hnew e List.mem_cons_self)
      rw [List.foldl_cons, hinsert, ih _ hrest, List.toFinset_cons, Finset.union_insert,
        Finset.insert_union]
      intro x hx hmem
      rw [Finset.image_insert, Finset.mem_insert] at hmem
      rcases hmem with hmem | hmem
      · apply hfirst
        rw [← hmem]
        exact List.mem_map_of_mem hx
      · exact hnew x (List.mem_cons_of_mem e hx) hmem

theorem keyed_roundTrips (hy : y.Lossless) {c : Castable} (hc : c.RoundTrips y) :
    (keyed y c).RoundTrips y := by
  intro v
  obtain ⟨text, node, htext, hload, hcast, hback⟩ := assignAll_entries hy hc v.2
  have hkeys : ((v.1.map fun e => (e.1, c.value e.2)).map Prod.fst).Nodup := by
    rw [List.map_map]
    exact v.2
  have hinsert := foldl_insertKey (v.1.map fun e => (e.1, c.value e.2)) ∅ hkeys
    (fun e _ he => by simp at he)
  rw [Finset.empty_union] at hinsert
  refine ⟨text, node, htext, hload, ?_, ?_⟩
  · simp only [keyed, hcast, bind, Except.bind, pure, Except.pure]
    rw [hinsert]
  · simp only [keyed, hback, bind, Except.bind, pure, Except.pure]
    rw [hinsert]

theorem nested_roundTrips (hy : y.Lossless) {c : Castable} (hc : c.RoundTrips y) (t : Ty) :
    (nested y c t).RoundTrips y := by
  induction t with
  | leaf => exact hc
  | vector t ih => exact sequence_roundTrips hy ih
  | list t ih => exact sequence_roundTrips hy ih
  | set t ih => exact distinct_roundTrips hy ih
  | unorderedSet t ih => exact distinct_roundTrips hy ih
  | map t ih => exact keyed_roundTrips hy ih
  | unorderedMap t ih => exact keyed_roundTrips hy ih

/-- What is printed of a value of a nested type is read back as that value. -/
theorem containers_roundTrip (hy : y.Lossless) {α : Type} [DecidableEq α] {print : α → String}
    {read : String → Except Error α} (hleaf : PlainLeaf y print read) (t : Ty)
    (v : (nested y (leaf print read) t).Obj) :
    ((nested y (leaf print read) t).toText v >>= (nested y (leaf print read) t).fromText) =
      .ok ((nested y (leaf print read) t).value v) := by
  obtain ⟨text, _, htext, _, hcast, _⟩ := nested_roundTrips hy (leaf_roundTrips hy hleaf) t v
  rw [htext]
  exact hcast

/-! ## A sample -/

/-- A map of sequences, one of them empty, and the texts of its parts. -/
def sampleTexts : List (Node × String) :=
  [(.null, "~"), (.scalar "1", "1"), (.scalar "0", "0"),
    (.seq [.scalar "1", .scalar "0"], "- 1\n- 0"),
    (.map [("a", .seq [.scalar "1", .scalar "0"]), ("b", .null)], "a:\n  - 1\n  - 0\nb: ~")]

open Classical in
noncomputable def sampleYaml : YamlCpp where
  load := fun text =>
    if text = "" then .ok .null
    else if h : ∃ node, textIn sampleTexts node = text then .ok h.choose
    else .error .parser
  emit := textIn sampleTexts
  blank := ""

theorem sampleYaml_lossless : sampleYaml.Lossless where
  emit := by
    intro node
    have hne : textIn sampleTexts node ≠ "" := textIn_ne_empty (by decide) node
    have hnode : ∃ n, textIn sampleTexts n = textIn sampleTexts node := ⟨node, rfl⟩
    have hchoose := textIn_inj (by decide) (by decide) hnode.choose_spec
    simp only [sampleYaml]
    rw [if_neg hne, dif_pos hnode, hchoose]
  blank := by simp [sampleYaml]

def printBool (b : Bool) : String := if b then "1" else "0"

def readBool (text : String) : Except Error Bool :=
  if text = "1" then .ok true else if text = "0" then .ok false else .error .badLexicalCast

theorem sampleYaml_plain : PlainLeaf sampleYaml printBool readBool where
  emit := by
    intro v
    cases v <;> simp [sampleYaml, textIn, sampleTexts, printBool]
  read := by
    intro v
    cases v <;> rfl

theorem containers_roundTrip_sample :
    ((nested sampleYaml (leaf printBool readBool) (.map (.vector .leaf))).toText
        ⟨[("a", [true, false]), ("b", [])], by decide⟩ >>=
      (nested sampleYaml (leaf printBool readBool) (.map (.vector .leaf))).fromText) =
        .ok [("a", [true, false]), ("b", [])].toFinset :=
  containers_roundTrip sampleYaml_lossless sampleYaml_plain (.map (.vector .leaf))
    ⟨[("a", [true, false]), ("b", [])], by decide⟩

end Sylar.LexicalCast
