import Sylar.Collection.OrderedSet
import Sylar.Config.FromString
import Sylar.Config.LexicalCast
import Sylar.Log.Route

/-! # Documents with a `logs` entry

`g_log_defines` among the other variables, from `LoadFromYaml` over the cast of a set and the
listener to what an event prints. A value that a document does not get past the cast leaves no
trace, and the others act as the history of values of `Log.Route`.
-/

namespace Sylar.Log

open Collection Load Yaml
open LexicalCast (YamlCpp)

/-! ## The variable -/

/-- What `fromString` catches: from the library, from the cast of a definition, or from another
variable. -/
inductive Thrown where
  | library (e : LexicalCast.Error)
  | define (e : Yaml.Error)
  | other (what : String)
  deriving DecidableEq, Repr

/-- `LogDefine::operator<`. -/
def LogDefine.lt (i j : LogDefine) : Bool := decide (i.name < j.name)

theorem LogDefine.compares : Compares LogDefine.lt LogDefine.name := fun _ _ => decide_eq_true_iff

/-- `vec.insert(i)`, which keeps a definition with the name of `i`. -/
def LogDefines.insert (vec : LogDefines) (i : LogDefine) : LogDefines where
  defs := setInsert LogDefine.lt i vec.defs
  ordered := Ordered.setInsert LogDefine.compares vec.ordered

theorem LogDefines.eq_of_defs {v v' : LogDefines} (h : v.defs = v'.defs) : v = v' := by
  cases v
  cases v'
  cases h
  rfl

variable (y : YamlCpp)

/-- The cast of the text of `node[i]`. -/
def readDefine (i : Option Node) : Except Thrown LogDefine := do
  let n ← (y.load (y.text i)).mapError .library
  (LogDefine.fromNode n).mapError .define

/-- `LexicalCast<std::string, std::set<LogDefine>>`. -/
def LogDefines.fromText (v : String) : Except Thrown LogDefines := do
  let node ← (y.load v).mapError .library
  let defs ← (LexicalCast.positions node).mapM (readDefine y)
  return defs.foldl LogDefines.insert .empty

/-- `g_log_defines` with the listener of `LogIniter`; `V` is what the other listeners act on. -/
def logDefinesVar (V : Type) (val : LogDefines) : ConfigVar (Loggers × V) Thrown where
  T := LogDefines
  eq := fun a b => decide (a.defs = b.defs)
  fromStr := LogDefines.fromText y
  val := val
  cbs := [fun old new world => (.ok (), onLoggerConfChanged old new world.1, world.2)]

/-! ## What a document asks for -/

/-- The values that the entries named `logs` are cast to, in the order of the document. -/
def accepted (root : Node) : List LogDefines :=
  ((reachable root).filter fun e => decide (dotted e.1 = "logs")).filterMap fun e =>
    (LogDefines.fromText y (Load.textOf y.emit e.2)).toOption

variable {y} {V : Type}

/-- The listeners of the other variables leave the loggers alone. -/
def Apart (c : Config (Loggers × V) Thrown) : Prop :=
  ∀ name v, name ≠ "logs" → c.datas name = some v →
    ∀ cb ∈ v.cbs, ∀ old new world, (cb old new world).2.1 = world.1

/-- The variable and the loggers follow the values `vs`. -/
structure Follows (y : YamlCpp) (vs : List LogDefines) (c : Config (Loggers × V) Thrown) :
    Prop where
  var : c.datas "logs" = some (logDefinesVar y V (vs.getLastD .empty))
  loggers : c.world.1 = reload Loggers.initial .empty vs
  apart : Apart c

/-- The value that the variable has already changes nothing. -/
theorem listener_self (v : LogDefines) (loggers : Loggers) :
    onLoggerConfChanged v v loggers = loggers := by
  funext name
  cases hfind : v.find name with
  | none => rw [listener_of_find_none loggers hfind, hfind]; rfl
  | some i =>
      obtain ⟨hi, rfl⟩ := LogDefines.mem_of_find hfind
      rw [listener_of_mem loggers hi, LogDefines.changed_eq_false.mpr hfind]
      rfl

theorem notify_apart {T : Type} {old new : T}
    {cbs : List (T → T → Loggers × V → Except Thrown Unit × (Loggers × V))}
    (h : ∀ cb ∈ cbs, ∀ world, (cb old new world).2.1 = world.1) (world : Loggers × V) :
    (notify old new cbs world).2.1 = world.1 := by
  induction cbs generalizing world with
  | nil => rfl
  | cons cb cbs ih =>
      have hfirst := h cb List.mem_cons_self world
      unfold notify
      split
      · rename_i next hnext
        rw [ih fun cb hcb => h cb (List.mem_cons_of_mem _ hcb), ← hfirst, hnext]
      · rename_i e next hnext
        rw [← hfirst, hnext]

theorem fromString_apart {v : ConfigVar (Loggers × V) Thrown}
    (h : ∀ cb ∈ v.cbs, ∀ old new world, (cb old new world).2.1 = world.1) (text : String)
    (world : Loggers × V) : (v.fromString text world).2.2.1 = world.1 := by
  unfold ConfigVar.fromString
  split
  · rename_i val _
    have hnotify := notify_apart (fun cb hcb => h cb hcb v.val val) world
    unfold ConfigVar.setValue
    split
    · rfl
    · split
      · rename_i next hresult
        rw [hresult] at hnotify
        exact hnotify
      · rename_i e next hresult
        rw [hresult] at hnotify
        exact hnotify
  · rfl

theorem setValue_logs (old val : LogDefines) (world : Loggers × V) :
    ((logDefinesVar y V old).setValue val world).2 =
      (logDefinesVar y V val, onLoggerConfChanged old val world.1, world.2) := by
  by_cases hsame : val = old
  · rw [hsame, listener_self]
    exact congrArg Prod.snd (if_pos (decide_eq_true rfl))
  · have hne : (logDefinesVar y V old).eq val old = false :=
      decide_eq_false fun hdefs => hsame (LogDefines.eq_of_defs hdefs)
    rw [setValue_of_ok (v := logDefinesVar y V old) hne rfl]
    rfl

theorem fromString_logs (old : LogDefines) (text : String) (world : Loggers × V) :
    ((logDefinesVar y V old).fromString text world).2 =
      match LogDefines.fromText y text with
      | .ok val => (logDefinesVar y V val, onLoggerConfChanged old val world.1, world.2)
      | .error _ => (logDefinesVar y V old, world) := by
  cases htext : LogDefines.fromText y text with
  | error e =>
      have herror : ((logDefinesVar y V old).fromStr text).isOk = false := by
        change (LogDefines.fromText y text).isOk = false
        rw [htext]
        rfl
      rw [fromString_of_error world herror]
  | ok val =>
      rw [fromString_of_ok (v := logDefinesVar y V old) world htext, setValue_logs]

/-! ## The run -/

/-- The values that a call of `fromString` adds to the history. -/
def added (y : YamlCpp) (call : String × String) : List LogDefines :=
  if call.1 = "logs" then (LogDefines.fromText y call.2).toOption.toList else []

theorem Apart.receive {c : Config (Loggers × V) Thrown} (h : Apart c) (call : String × String) :
    Apart (c.receive call) := by
  intro name v hname hv
  by_cases hcall : call.1 = name
  · cases hold : c.datas call.1 with
    | none =>
        rw [receive_of_none hold] at hv
        exact h name v hname hv
    | some w =>
        obtain ⟨val, hval⟩ := fromString_eq w call.2 c.world
        rw [(receive_of_some hold).1, hcall, Function.update_self, hval] at hv
        cases hv
        exact h call.1 w (hcall ▸ hname) hold
  · rw [receive_other c hcall] at hv
    exact h name v hname hv

theorem Apart.world {c : Config (Loggers × V) Thrown} (h : Apart c) {call : String × String}
    (hcall : call.1 ≠ "logs") : (c.receive call).world.1 = c.world.1 := by
  cases hold : c.datas call.1 with
  | none => rw [receive_of_none hold]
  | some v =>
      rw [(receive_of_some hold).2.1]
      exact fromString_apart (h call.1 v hcall hold) call.2 c.world

theorem Follows.receive {vs : List LogDefines} {c : Config (Loggers × V) Thrown}
    (h : Follows y vs c) (call : String × String) :
    Follows y (vs ++ added y call) (c.receive call) := by
  by_cases hcall : call.1 = "logs"
  · have hvar := h.var
    rw [← hcall] at hvar
    obtain ⟨hdatas, hworld, -⟩ := receive_of_some hvar
    have htext := fromString_logs (y := y) (V := V) (vs.getLastD .empty) call.2 c.world
    rw [added, if_pos hcall]
    cases hval : LogDefines.fromText y call.2 with
    | ok val =>
        rw [hval] at htext
        refine ⟨?_, ?_, h.apart.receive call⟩
        · rw [hdatas, ← hcall, Function.update_self, htext]
          exact congrArg (fun v => some (logDefinesVar y V v)) List.getLastD_concat.symm
        · rw [hworld, htext, h.loggers]
          exact (reload_concat Loggers.initial .empty vs val).symm
    | error e =>
        rw [hval] at htext
        refine ⟨?_, ?_, h.apart.receive call⟩
        · rw [hdatas, ← hcall, Function.update_self, htext]
          exact congrArg (fun vs => some (logDefinesVar y V (vs.getLastD .empty)))
            (List.append_nil vs).symm
        · rw [hworld, htext, h.loggers]
          exact congrArg (reload Loggers.initial .empty) (List.append_nil vs).symm
  · rw [added, if_neg hcall, List.append_nil]
    exact ⟨(receive_other c hcall).trans h.var, (h.apart.world hcall).trans h.loggers,
      h.apart.receive call⟩

theorem Follows.receiveAll {vs : List LogDefines} {c : Config (Loggers × V) Thrown}
    (h : Follows y vs c) (calls : List (String × String)) :
    Follows y (vs ++ calls.flatMap (added y)) (calls.foldl Config.receive c) := by
  induction calls generalizing vs c with
  | nil => simpa using h
  | cons call calls ih =>
      have hnext := ih (h.receive call)
      rwa [List.append_assoc] at hnext

theorem matching_added (c : Config (Loggers × V) Thrown) (hlogs : (c.datas "logs").isSome = true)
    (root : Node) : (matching y.emit c root).flatMap (added y) = accepted y root := by
  unfold matching accepted
  generalize reachable root = es
  induction es with
  | nil => rfl
  | cons e es ih =>
      by_cases hname : dotted e.1 = "logs"
      · have hnamed : dotted e.1 ≠ "" ∧ (c.datas (dotted e.1)).isSome = true := by
          rw [hname]
          exact ⟨by decide, hlogs⟩
        rw [List.filter_cons, if_pos (decide_eq_true hnamed), List.filter_cons,
          if_pos (decide_eq_true hname), List.map_cons, List.flatMap_cons, ih, added,
          if_pos hname, List.filterMap_cons]
        cases (LogDefines.fromText y (Load.textOf y.emit e.2)).toOption <;> rfl
      · have hdrop : ¬ decide (dotted e.1 = "logs") = true := fun h => hname (of_decide_eq_true h)
        rw [List.filter_cons, List.filter_cons, if_neg hdrop, ← ih]
        split
        · rw [List.map_cons, List.flatMap_cons, added, if_neg hname, List.nil_append]
        · rfl

theorem Follows.load {vs : List LogDefines} {c : Config (Loggers × V) Thrown}
    (h : Follows y vs c) (root : Node) :
    Follows y (vs ++ accepted y root) (c.loadFromYaml y.emit root) := by
  rw [loadFromYaml_eq, ← matching_added c (by rw [h.var]; rfl)]
  exact h.receiveAll _

theorem Follows.loadAll {vs : List LogDefines} {c : Config (Loggers × V) Thrown}
    (h : Follows y vs c) (docs : List Node) :
    Follows y (vs ++ docs.flatMap (accepted y)) (docs.foldl (Config.loadFromYaml y.emit) c) := by
  induction docs generalizing vs c with
  | nil => simpa using h
  | cons doc docs ih =>
      have hnext := ih (h.load doc)
      rwa [List.append_assoc] at hnext

/-- After any documents the variable has the last value that got past the cast, and every event
of any name prints what the history of these values says. -/
theorem documents_routed (strftime : String → Nat → String) {c : Config (Loggers × V) Thrown}
    (hvar : c.datas "logs" = some (logDefinesVar y V .empty))
    (hloggers : c.world.1 = Loggers.initial) (hapart : Apart c) (docs : List Node) :
    (docs.foldl (Config.loadFromYaml y.emit) c).datas "logs" =
        some (logDefinesVar y V ((docs.flatMap (accepted y)).getLastD .empty)) ∧
      ∀ name level event,
        (docs.foldl (Config.loadFromYaml y.emit) c).world.1.logLevel strftime name level event =
          some (printed strftime (docs.flatMap (accepted y)) name level
            { event with logger := name }) := by
  have h : Follows y [] c := ⟨hvar, hloggers, hapart⟩
  have hdocs := h.loadAll docs
  rw [List.nil_append] at hdocs
  refine ⟨hdocs.var, fun name level event => ?_⟩
  rw [hdocs.loggers]
  exact (traced _).logLevel strftime name level event

/-! ## A sample -/

def rootNode : Node :=
  .map [("name", .scalar "root"), ("formatter", .scalar "%p %m%n"),
    ("appenders", .seq [.map [("type", .scalar "FileLogAppender"), ("file", .scalar "log.txt")]])]

def systemNode : Node := .map [("name", .scalar "system")]

def namelessNode : Node := .map [("level", .scalar "info")]

def rootText : String :=
  "name: root\nformatter: \"%p %m%n\"\nappenders:\n  - type: FileLogAppender\n    file: log.txt"

def rootItem : String :=
  "- name: root\n  formatter: \"%p %m%n\"\n  appenders:\n    - type: FileLogAppender\n" ++
    "      file: log.txt"

def sampleYaml : YamlCpp where
  load := fun text =>
    if text = rootText then .ok rootNode
    else if text = "name: system" then .ok systemNode
    else if text = "level: info" then .ok namelessNode
    else if text = rootItem ++ "\n- name: system" then .ok (.seq [rootNode, systemNode])
    else if text = rootItem then .ok (.seq [rootNode])
    else if text = "- level: info" then .ok (.seq [namelessNode])
    else .error .parser
  emit := fun node =>
    match node with
    | .scalar text => text
    | .null => "~"
    | .seq [_, _] => rootItem ++ "\n- name: system"
    | .seq [.map [_]] => "- level: info"
    | .seq _ => rootItem
    | .map [("name", _)] => "name: system"
    | .map [_] => "level: info"
    | .map _ => rootText
  blank := ""

/-- Another variable, whose listener counts its calls. -/
def otherVar : ConfigVar (Loggers × Nat) Thrown where
  T := String
  eq := fun a b => decide (a = b)
  fromStr := .ok
  val := ""
  cbs := [fun _ _ world => (.ok (), world.1, world.2 + 1)]

def sampleConfig (y : YamlCpp) : Config (Loggers × Nat) Thrown where
  datas := fun name =>
    if name = "logs" then some (logDefinesVar y Nat .empty)
    else if name = "other" then some otherVar
    else none
  named := by
    intro name hname
    by_cases hlogs : name = "logs"
    · rw [hlogs]
      decide
    · by_cases hother : name = "other"
      · rw [hother]
        decide
      · simp [hlogs, hother] at hname
  world := (Loggers.initial, 0)
  calls := []

/-- The second document has no name for its logger, and the third one drops `system`. -/
def sampleDocs : List Node :=
  [.map [("logs", .seq [rootNode, systemNode])],
    .map [("other", .scalar "1"), ("logs", .seq [namelessNode])],
    .map [("logs", .seq [rootNode])]]

theorem sampleConfig_apart (y : YamlCpp) : Apart (sampleConfig y) := by
  intro name v hname hv cb hcb old new world
  by_cases hother : name = "other"
  · rw [hother] at hv
    cases hv
    rw [List.mem_singleton.mp hcb]
  · simp [sampleConfig, hname, hother] at hv

def sampleEvent : LogEvent := ⟨"main.cpp", 12, 0, 7, 0, 0, "main", "hello", "http"⟩

theorem documents_routed_sample :
    (sampleDocs.foldl (Config.loadFromYaml sampleYaml.emit)
        (sampleConfig sampleYaml)).world.1.logLevel
        (fun _ _ => "") "http" .warn sampleEvent = some [⟨.file, "log.txt", "WARN hello\n"⟩] ∧
      (sampleDocs.foldl (Config.loadFromYaml sampleYaml.emit)
        (sampleConfig sampleYaml)).world.1.logLevel
        (fun _ _ => "") "system" .fatal sampleEvent = some [] := by
  obtain ⟨-, hlog⟩ := documents_routed (fun _ _ => "") rfl rfl (sampleConfig_apart sampleYaml)
    sampleDocs
  rw [hlog, hlog]
  exact ⟨by decide +kernel, by decide +kernel⟩

end Sylar.Log
