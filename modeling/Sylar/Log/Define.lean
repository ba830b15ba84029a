import Sylar.Log.Event
import Sylar.Yaml.Node

/-! # `LogDefine` and its text form

The configuration of one logger, with the two lexical casts. Emitting and loading text is
left to the YAML library, of which only the round trip of a node is used.
-/

namespace Sylar.Log

open Yaml

/-! ## Definitions -/

/-- `type` of a `LogAppenderDefine`: 1 and 2; its default 0 is never read from a text. -/
inductive AppenderType where
  | file | stdout
  deriving DecidableEq, Repr

structure LogAppenderDefine where
  type : AppenderType
  level : Level
  formatter : String
  file : String
  deriving DecidableEq, Repr

structure LogDefine where
  name : String
  level : Level
  formatter : String
  appenders : List LogAppenderDefine
  deriving DecidableEq, Repr

/-! ## From text -/

def textAt (key : String) (node : Node) : Except Error String := do
  match ← node.get key with
  | none => .ok ""
  | some value => value.asString

/-- One round of the loop over `n["appenders"]`; `none` is its `continue`. -/
def LogAppenderDefine.fromNode (a : Node) : Except Error (Option LogAppenderDefine) := do
  match ← a.get "type" with
  | none => .ok none
  | some node =>
      let type ← node.asString
      if type = "FileLogAppender" then
        match ← a.get "file" with
        | none => .ok none
        | some node =>
            let file ← node.asString
            let formatter ← textAt "formatter" a
            .ok (some ⟨.file, .unknow, formatter, file⟩)
      else if type = "StdoutLogAppender" then
        let formatter ← textAt "formatter" a
        .ok (some ⟨.stdout, .unknow, formatter, ""⟩)
      else .ok none

/-- `LexicalCast<std::string, LogDefine>` after `YAML::Load`. -/
def LogDefine.fromNode (n : Node) : Except Error LogDefine := do
  match ← n.get "name" with
  | none => .error (.logicError "log config name is null")
  | some node =>
      let name ← node.asString
      let level ← textAt "level" n
      let formatter ← textAt "formatter" n
      let appenders ←
        match ← n.get "appenders" with
        | none => .ok []
        | some node => node.elements.mapM LogAppenderDefine.fromNode
      .ok ⟨name, Level.fromString level, formatter, appenders.reduceOption⟩

/-- `LexicalCast<std::string, LogDefine>`. -/
def LogDefine.fromText (load : String → Node) (text : String) : Except Error LogDefine :=
  fromNode (load text)

/-! ## To text -/

/-- `node[key] = value`, unless the value is left out. -/
def assignUnless (omitted : Bool) (key value : String) (entries : List (String × Node)) :
    List (String × Node) :=
  if omitted then entries else assign key (.scalar value) entries

/-- `na`. -/
def LogAppenderDefine.toNode (a : LogAppenderDefine) : Node :=
  let na :=
    match a.type with
    | .file => assign "file" (.scalar a.file) (assign "type" (.scalar "FileLogAppender") [])
    | .stdout => assign "type" (.scalar "StdoutLogAppender") []
  let na := assignUnless (a.level = .unknow) "level" a.level.toString na
  .map (assignUnless (a.formatter = "") "formatter" a.formatter na)

/-- `LexicalCast<LogDefine, std::string>` before the node is printed. -/
def LogDefine.toNode (i : LogDefine) : Node :=
  let n := assign "name" (.scalar i.name) []
  let n := assignUnless (i.level = .unknow) "level" i.level.toString n
  let n := assignUnless (i.formatter = "") "formatter" i.formatter n
  .map (i.appenders.foldl (fun n a => pushBack "appenders" n a.toNode) n)

/-- `LexicalCast<LogDefine, std::string>`. -/
def LogDefine.toText (emit : Node → String) (i : LogDefine) : String := emit i.toNode

/-! ## The round trip -/

@[simp] theorem lookup_assignUnless (omitted : Bool) (key key' value : String)
    (entries : List (String × Node)) :
    (assignUnless omitted key value entries).lookup key' =
      if key' = key ∧ omitted = false then some (.scalar value) else entries.lookup key' := by
  cases omitted <;> simp [assignUnless]

/-- What the text of an appender keeps. -/
def LogAppenderDefine.kept (a : LogAppenderDefine) : LogAppenderDefine :=
  ⟨a.type, .unknow, a.formatter, if a.type = .file then a.file else ""⟩

theorem fromNode_toNode_appender (a : LogAppenderDefine) :
    LogAppenderDefine.fromNode a.toNode = .ok (some a.kept) := by
  obtain ⟨type, level, formatter, file⟩ := a
  cases type <;> by_cases hformatter : formatter = "" <;>
    simp [LogAppenderDefine.fromNode, LogAppenderDefine.toNode, LogAppenderDefine.kept, textAt,
      Node.get, Node.asString, hformatter, bind, Except.bind]

theorem elements_mapM (appenders : List LogAppenderDefine) :
    (appenders.map LogAppenderDefine.toNode).mapM LogAppenderDefine.fromNode =
      .ok (appenders.map fun a => some a.kept) := by
  induction appenders with
  | nil => rfl
  | cons a appenders ih =>
      rw [List.map_cons, List.mapM_cons, fromNode_toNode_appender, ih]
      rfl

theorem reduceOption_map_some (appenders : List LogAppenderDefine) :
    (appenders.map fun a => some a.kept).reduceOption = appenders.map LogAppenderDefine.kept := by
  induction appenders with
  | nil => rfl
  | cons a appenders ih =>
      rw [List.map_cons, List.reduceOption_cons_of_some, ih]
      rfl

theorem get_toNode (i : LogDefine) (key : String) :
    i.toNode.get key = .ok
      (if key = "appenders" ∧ i.appenders ≠ [] then
        some (.seq (i.appenders.map LogAppenderDefine.toNode))
      else if key = "formatter" ∧ i.formatter ≠ "" then some (.scalar i.formatter)
      else if key = "level" ∧ i.level ≠ .unknow then some (.scalar i.level.toString)
      else if key = "name" then some (.scalar i.name) else none) := by
  simp only [LogDefine.toNode, Node.get, ← List.foldl_map, lookup_pushBacks]
  simp [itemsAt]

theorem fromString_textAt_level (i : LogDefine) :
    (textAt "level" i.toNode).map Level.fromString = .ok i.level := by
  rw [textAt, get_toNode]
  by_cases hlevel : i.level = .unknow
  · simp [hlevel, bind, Except.bind, Except.map, Level.fromString]
  · simp [hlevel, bind, Except.bind, Except.map, Node.asString]

theorem textAt_formatter (i : LogDefine) : textAt "formatter" i.toNode = .ok i.formatter := by
  rw [textAt, get_toNode]
  by_cases hformatter : i.formatter = "" <;> simp [hformatter, bind, Except.bind, Node.asString]

/-- The cast back returns the definition with what its appenders keep. -/
theorem fromNode_toNode (i : LogDefine) :
    LogDefine.fromNode i.toNode =
      .ok { i with appenders := i.appenders.map LogAppenderDefine.kept } := by
  have hname : i.toNode.get "name" = .ok (some (.scalar i.name)) := by simp [get_toNode]
  have hlevel := fromString_textAt_level i
  cases htext : textAt "level" i.toNode with
  | error e =>
      rw [htext] at hlevel
      cases hlevel
  | ok text =>
      rw [htext] at hlevel
      have hlevel : Level.fromString text = i.level := Except.ok.inj hlevel
      have hformatter := textAt_formatter i
      have happenders : i.toNode.get "appenders" = .ok (if i.appenders = [] then none
          else some (.seq (i.appenders.map LogAppenderDefine.toNode))) := by
        rw [get_toNode]
        by_cases hnil : i.appenders = [] <;> simp [hnil]
      by_cases hnil : i.appenders = []
      · simp [LogDefine.fromNode, hname, htext, hlevel, hformatter, happenders, hnil,
          Node.asString, bind, Except.bind]
      · simp [-List.mapM_map, LogDefine.fromNode, hname, htext, hlevel, hformatter, happenders,
          hnil, Node.asString, Node.elements, elements_mapM, reduceOption_map_some, bind,
          Except.bind]

theorem LogAppenderDefine.kept_eq_self {a : LogAppenderDefine} :
    a.kept = a ↔ a.level = .unknow ∧ (a.type = .stdout → a.file = "") := by
  obtain ⟨type, level, formatter, file⟩ := a
  cases type <;> simp [LogAppenderDefine.kept, eq_comm]

/-- The round trip gives the same definition exactly if no appender has a level of its own. -/
theorem define_roundtrip_iff {emit : Node → String} {load : String → Node} (d : LogDefine)
    (hload : load (emit d.toNode) = d.toNode) :
    LogDefine.fromText load (d.toText emit) = .ok d ↔
      ∀ a ∈ d.appenders, a.level = .unknow ∧ (a.type = .stdout → a.file = "") := by
  have hkept : d.appenders.map LogAppenderDefine.kept = d.appenders ↔
      ∀ a ∈ d.appenders, a.kept = a := by
    rw [← List.map_inj_left, List.map_id']
  rw [LogDefine.fromText, LogDefine.toText, hload, fromNode_toNode, Except.ok.injEq]
  simp only [← LogAppenderDefine.kept_eq_self, ← hkept]
  constructor
  · intro hd
    exact congrArg LogDefine.appenders hd
  · intro happenders
    rw [happenders]

def consoleDefine : LogDefine := ⟨"system", .info, "", [⟨.stdout, .unknow, "%d%T%m%n", ""⟩]⟩

def consoleText : String :=
  "name: system\nlevel: INFO\nappenders:\n  - type: StdoutLogAppender\n    formatter: \"%d%T%m%n\""

theorem define_roundtrip_sample :
    LogDefine.fromText (fun _ => consoleDefine.toNode) (consoleDefine.toText fun _ => consoleText) =
      .ok consoleDefine :=
  (define_roundtrip_iff consoleDefine rfl).mpr (by decide)

def leveledDefine : LogDefine := ⟨"root", .info, "", [⟨.file, .error, "", "log.txt"⟩]⟩

def leveledText : String :=
  "name: root\nlevel: INFO\nappenders:\n  - type: FileLogAppender\n    file: log.txt\n" ++
    "    level: ERROR"

theorem appender_level_lost :
    LogDefine.fromText (fun _ => leveledDefine.toNode) (leveledDefine.toText fun _ => leveledText) =
        .ok ⟨"root", .info, "", [⟨.file, .unknow, "", "log.txt"⟩]⟩ ∧
      LogDefine.fromText (fun _ => leveledDefine.toNode)
        (leveledDefine.toText fun _ => leveledText) ≠ .ok leveledDefine := by
  have hread : LogDefine.fromText (fun _ => leveledDefine.toNode)
      (leveledDefine.toText fun _ => leveledText) =
        .ok ⟨"root", .info, "", [⟨.file, .unknow, "", "log.txt"⟩]⟩ :=
    fromNode_toNode leveledDefine
  refine ⟨hread, fun hsame => ?_⟩
  rw [hread, Except.ok.injEq] at hsame
  revert hsame
  decide

end Sylar.Log
