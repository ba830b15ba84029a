import Sylar.Log.Document

/-! # The dump of the loggers, loaded by a fresh program

`toYamlString` of the appenders, of a logger and of the manager, and a document that has the dump
under `logs`. A removed logger is dumped like one that only has a name, so it comes back to life.
-/

namespace Sylar.Log

open Collection Load Yaml
open LexicalCast (YamlCpp)

/-! ## The dump -/

/-- `LogLevel::ToString` of the level of a logger, which may be no enumerator. -/
def levelString : Nat → String
  | 1 => "DEBUG"
  | 2 => "INFO"
  | 3 => "WARN"
  | 4 => "ERROR"
  | 5 => "FATAL"
  | _ => "UNKNOW"

@[simp] theorem levelString_value (level : Level) : levelString level.value = level.toString := by
  cases level <;> rfl

/-- `StdoutLogAppender::toYamlString` and `FileLogAppender::toYamlString` before printing. -/
def Appender.toNode (a : Appender) : Node :=
  let node :=
    match a.type with
    | .stdout =>
        assignUnless (a.level = .unknow) "level" a.level.toString
          (assign "type" (.scalar "StdoutLogAppender") [])
    | .file =>
        assign "level" (.scalar a.level.toString)
          (assign "file" (.scalar a.file) (assign "type" (.scalar "FileLogAppender") []))
  match a.hasFormatter, a.formatter with
  | true, some formatter => .map (assign "formatter" (.scalar formatter.pattern) node)
  | _, _ => .map node

variable (y : YamlCpp)

/-- `Logger::toYamlString` before printing. -/
def Logger.toNode (name : String) (logger : Logger) : Except LexicalCast.Error Node := do
  let appenders ← logger.appenders.mapM fun i => y.load (y.emit i.toNode)
  let node := assign "name" (.scalar name) []
  let node := assign "level" (.scalar (levelString logger.level)) node
  let node := assign "formatter" (.scalar logger.formatter.pattern) node
  return .map (appenders.foldl (pushBack "appenders") node)

/-- `LoggerManager::toYamlString`; `names` are the keys of `m_loggers`. -/
def Loggers.toYamlString (names : List String) (loggers : Loggers) :
    Except LexicalCast.Error String := do
  let nodes ← names.mapM fun name => do y.load (y.emit (← (loggers name).toNode y name))
  return y.text (LexicalCast.pushed nodes)

/-! ## What the cast reads of it -/

def Appender.readBack (a : Appender) : LogAppenderDefine where
  type := a.type
  level := .unknow
  formatter :=
    match a.hasFormatter, a.formatter with
    | true, some formatter => formatter.pattern
    | _, _ => ""
  file :=
    match a.type with
    | .file => a.file
    | .stdout => ""

def Logger.readBack (name : String) (logger : Logger) : LogDefine :=
  ⟨name, Level.fromString (levelString logger.level), logger.formatter.pattern,
    logger.appenders.map Appender.readBack⟩

/-- The node that `Logger::toYamlString` prints, where nothing is lost on the way. -/
def Logger.node (name : String) (logger : Logger) : Node :=
  .map ((logger.appenders.map Appender.toNode).foldl (pushBack "appenders")
    (assign "formatter" (.scalar logger.formatter.pattern)
      (assign "level" (.scalar (levelString logger.level)) (assign "name" (.scalar name) []))))

theorem fromNode_appender (a : Appender) :
    LogAppenderDefine.fromNode a.toNode = .ok (some a.readBack) := by
  obtain ⟨type, file, level, hasFormatter, formatter⟩ := a
  cases type <;> cases hasFormatter <;> cases formatter <;>
    simp [LogAppenderDefine.fromNode, Appender.toNode, Appender.readBack, textAt, Node.get,
      Node.asString, bind, Except.bind]

variable {y} {V : Type}

theorem toNode_eq (hy : y.Lossless) (name : String) (logger : Logger) :
    logger.toNode y name = .ok (logger.node name) := by
  have happenders : logger.appenders.mapM (fun i => y.load (y.emit i.toNode)) =
      .ok (logger.appenders.map Appender.toNode) :=
    LexicalCast.mapM_ok fun a _ => hy.emit a.toNode
  rw [Logger.toNode, happenders]
  rfl

theorem get_node (name : String) (logger : Logger) (key : String) :
    (logger.node name).get key = .ok
      (if key = "appenders" ∧ logger.appenders ≠ [] then
        some (.seq (logger.appenders.map Appender.toNode))
      else if key = "formatter" then some (.scalar logger.formatter.pattern)
      else if key = "level" then some (.scalar (levelString logger.level))
      else if key = "name" then some (.scalar name) else none) := by
  simp only [Logger.node, Node.get, lookup_pushBacks]
  simp [itemsAt]

theorem mapM_fromNode (appenders : List Appender) :
    (appenders.map Appender.toNode).mapM LogAppenderDefine.fromNode =
      .ok ((appenders.map Appender.readBack).map some) := by
  induction appenders with
  | nil => rfl
  | cons a appenders ih =>
      rw [List.map_cons, List.mapM_cons, fromNode_appender, ih]
      rfl

theorem fromNode_node (name : String) (logger : Logger) :
    LogDefine.fromNode (logger.node name) = .ok (logger.readBack name) := by
  have hname : (logger.node name).get "name" = .ok (some (.scalar name)) := by simp [get_node]
  have hlevel : textAt "level" (logger.node name) = .ok (levelString logger.level) := by
    simp [textAt, get_node, Node.asString, bind, Except.bind]
  have hformatter : textAt "formatter" (logger.node name) = .ok logger.formatter.pattern := by
    simp [textAt, get_node, Node.asString, bind, Except.bind]
  have happenders : (logger.node name).get "appenders" = .ok (if logger.appenders = [] then none
      else some (.seq (logger.appenders.map Appender.toNode))) := by
    rw [get_node]
    by_cases hnil : logger.appenders = [] <;> simp [hnil]
  by_cases hnil : logger.appenders = []
  · simp [LogDefine.fromNode, Logger.readBack, hname, hlevel, hformatter, happenders, hnil,
      Node.asString, bind, Except.bind]
  · simp [-List.mapM_map, -List.map_map, LogDefine.fromNode, Logger.readBack, hname, hlevel,
      hformatter, happenders, hnil, Node.asString, Node.elements, mapM_fromNode,
      List.reduceOption, bind, Except.bind]

/-! ## The document -/

theorem foldl_insert_defs (l : List LogDefine) (vec : LogDefines) :
    (l.foldl LogDefines.insert vec).defs =
      l.foldl (fun l x => setInsert LogDefine.lt x l) vec.defs := by
  induction l generalizing vec with
  | nil => rfl
  | cons i l ih => exact ih (vec.insert i)

theorem foldl_insert_ordered (l : List LogDefine) (h : l.Pairwise fun i j => i.name < j.name) :
    l.foldl LogDefines.insert .empty = ⟨l, h⟩ :=
  LogDefines.eq_of_defs ((foldl_insert_defs l .empty).trans
    (Ordered.setOf_eq LogDefine.compares h))

theorem readDefine_some (hy : y.Lossless) {n : Node} {i : LogDefine}
    (hn : LogDefine.fromNode n = .ok i) : readDefine y (some n) = .ok i := by
  rw [readDefine, YamlCpp.text, hy.emit]
  dsimp only [Except.mapError, bind, Except.bind]
  rw [hn]

/-- The value of a document whose entry `logs` is a sequence of definitions. -/
theorem accepted_of_seq (hy : y.Lossless) {α : Type} {l : List α} {node : α → Node}
    {define : α → LogDefine} (h : ∀ x ∈ l, LogDefine.fromNode (node x) = .ok (define x)) :
    accepted y (.map [("logs", .seq (l.map node))]) =
      [(l.map define).foldl LogDefines.insert .empty] := by
  have hread : ((l.map node).map some).mapM (readDefine y) = .ok (l.map define) := by
    induction l with
    | nil => rfl
    | cons x l ih =>
        rw [List.map_cons, List.map_cons, List.mapM_cons,
          readDefine_some hy (h x List.mem_cons_self),
          ih fun z hz => h z (List.mem_cons_of_mem x hz)]
        rfl
  have htext : LogDefines.fromText y (y.emit (.seq (l.map node))) =
      .ok ((l.map define).foldl LogDefines.insert .empty) := by
    unfold LogDefines.fromText
    rw [hy.emit]
    dsimp only [Except.mapError, LexicalCast.positions, bind, Except.bind]
    rw [hread]
    rfl
  have hlogs : dotted ["logs"] = "logs" := by decide
  have hroot : dotted [] ≠ "logs" := by decide
  simp [accepted, reachable, reachableMembers, hlogs, hroot, Load.textOf, htext, Except.toOption]

/-! ## The dump as a value -/

/-- The value that the dump is read as. -/
def Loggers.readBack (names : List String) (hordered : names.Pairwise (· < ·))
    (loggers : Loggers) : LogDefines where
  defs := names.map fun name => (loggers name).readBack name
  ordered := List.pairwise_map.mpr hordered

theorem accepted_dump (hy : y.Lossless) {names : List String} (hordered : names.Pairwise (· < ·))
    (hne : names ≠ []) (loggers : Loggers) :
    ∃ text node, loggers.toYamlString y names = .ok text ∧ y.load text = .ok node ∧
      accepted y (.map [("logs", node)]) = [loggers.readBack names hordered] := by
  have hnodes : (names.mapM fun name => do y.load (y.emit (← (loggers name).toNode y name))) =
      .ok (names.map fun name => (loggers name).node name) := by
    refine LexicalCast.mapM_ok fun name _ => ?_
    rw [toNode_eq hy]
    exact hy.emit _
  refine ⟨y.emit (.seq (names.map fun name => (loggers name).node name)), _, ?_, hy.emit _, ?_⟩
  · rw [Loggers.toYamlString, hnodes]
    cases names with
    | nil => exact absurd rfl hne
    | cons name names => rfl
  · rw [accepted_of_seq hy fun name _ => fromNode_node name (loggers name), foldl_insert_ordered]
    rfl

/-! ## What comes back -/

theorem LogDefine.usable_of_pattern {i : LogDefine} {pattern : String}
    (h : i.pattern = some pattern) :
    pattern ≠ "" ∧ (LogFormatter.mk pattern).isError = false := by
  unfold LogDefine.pattern at h
  split at h
  · rename_i husable
    cases h
    exact husable
  · cases h

/-- The formatters that the listener leaves can be read back. -/
theorem formatterAfter_usable (name : String) (vs : List LogDefines) :
    (formatterAfter name vs ⟨defaultPattern⟩).pattern ≠ "" ∧
      (formatterAfter name vs ⟨defaultPattern⟩).isError = false := by
  unfold formatterAfter
  cases hlast : lastPattern name vs with
  | none => exact ⟨by decide, by decide +kernel⟩
  | some pattern =>
      obtain ⟨v, -, hv⟩ := List.mem_filterMap.mp (List.mem_of_getLast? hlast)
      obtain ⟨i, -, hi⟩ := Option.bind_eq_some_iff.mp hv
      exact LogDefine.usable_of_pattern hi

theorem sink_readBack {a : LogAppenderDefine} (hlevel : a.level = .unknow)
    (formatter : LogFormatter) :
    (a.appender.attach formatter).readBack.sink formatter = a.sink formatter := by
  obtain ⟨type, level, pattern, file⟩ := a
  obtain rfl : level = .unknow := hlevel
  by_cases hempty : pattern = ""
  · cases type <;>
      simp [LogAppenderDefine.appender, LogAppenderDefine.sink, Appender.readBack,
        Appender.attach, Appender.toFile, Appender.stdout, Appender.setLevel, hempty]
  · cases type <;> cases herror : (LogFormatter.mk pattern).isError <;>
      simp [LogAppenderDefine.appender, LogAppenderDefine.sink, Appender.readBack,
        Appender.attach, Appender.toFile, Appender.stdout, Appender.setLevel,
        Appender.setFormatter, hempty, herror]

section

variable {vs : List LogDefines} {loggers : Loggers} {names : List String} {name : String}
  (hordered : names.Pairwise (· < ·))

theorem find_readBack_of_mem (hname : name ∈ names) :
    (loggers.readBack names hordered).find name = some ((loggers name).readBack name) :=
  LogDefines.find_of_mem (i := (loggers name).readBack name) (List.mem_map_of_mem hname)

theorem find_readBack_of_not_mem (hname : name ∉ names) :
    (loggers.readBack names hordered).find name = none := by
  refine LogDefines.find_eq_none.mpr fun i hi heq => ?_
  obtain ⟨other, hother, rfl⟩ := List.mem_map.mp hi
  exact hname (heq ▸ hother)

theorem Traced.formatter_readBack (h : Traced vs loggers) (hname : name ∈ names) :
    formatterAfter name [loggers.readBack names hordered] ⟨defaultPattern⟩ =
      (loggers name).formatter := by
  have husable := formatterAfter_usable name vs
  rw [← initial_formatter name, ← h.formatter] at husable
  have hpattern : ((loggers name).readBack name).pattern = some (loggers name).formatter.pattern :=
    if_pos husable
  rw [← List.nil_append [_], formatterAfter_concat, LogDefines.patternOf,
    find_readBack_of_mem hordered hname, Option.bind_some, hpattern]
  rfl

theorem standing_singleton (v : LogDefines) (name : String) :
    standing [v] name =
      match v.find name with
      | some i => .defined i
      | none => .unnamed := by
  unfold standing
  rw [List.getLastD_cons, List.getLastD_nil]
  cases hfind : v.find name <;> simp [hfind]

theorem Traced.route_readBack (h : Traced vs loggers) (hname : name ∈ names) (level : Level) :
    route [loggers.readBack names hordered] name level =
      if level.value < (Level.fromString (levelString (loggers name).level)).value then .nowhere
      else if (loggers name).appenders = [] then .root
      else .sinks ((loggers name).appenders.map fun a =>
        a.readBack.sink (loggers name).formatter) := by
  unfold route
  rw [standing_singleton, find_readBack_of_mem hordered hname]
  dsimp only
  rw [h.formatter_readBack hordered hname]
  simp [Logger.readBack, Function.comp_def]

theorem route_readBack_of_not_mem (hname : name ∉ names) (hunnamed : standing vs name = .unnamed)
    (level : Level) : route [loggers.readBack names hordered] name level = route vs name level := by
  unfold route
  rw [standing_singleton, find_readBack_of_not_mem hordered hname, hunnamed]

theorem Traced.route_readBack_of_defined (h : Traced vs loggers) (hname : name ∈ names)
    {i : LogDefine} (hi : standing vs name = .defined i)
    (hlevels : ∀ a ∈ i.appenders, a.level = .unknow) (level : Level) :
    route [loggers.readBack names hordered] name level = route vs name level := by
  have hlogger := h.by_standing name
  rw [hi] at hlogger
  have hsinks : i.appenders.map (fun a => (a.appender.attach
      (formatterAfter name vs ⟨defaultPattern⟩)).readBack.sink
        (formatterAfter name vs ⟨defaultPattern⟩)) =
      i.appenders.map (LogAppenderDefine.sink (formatterAfter name vs ⟨defaultPattern⟩)) :=
    List.map_congr_left fun a ha => sink_readBack (hlevels a ha) _
  rw [h.route_readBack hordered hname, hlogger, route, hi]
  simp only [LogDefine.logger, levelString_value, Level.fromString_toString, List.map_map,
    Function.comp_def, List.map_eq_nil_iff, hsinks]

theorem Traced.route_readBack_of_removed (h : Traced vs loggers) (hname : name ∈ names)
    (hremoved : standing vs name = .removed) (level : Level) :
    route [loggers.readBack names hordered] name level = .root := by
  have hlogger := h.by_standing name
  rw [hremoved] at hlogger
  rw [h.route_readBack hordered hname, hlogger.1, hlogger.2, if_pos rfl]
  exact if_neg (Nat.not_lt_zero _)

theorem Traced.route_readBack_of_unnamed (h : Traced vs loggers) (hname : name ∈ names)
    (hunnamed : standing vs name = .unnamed) (level : Level) :
    route [loggers.readBack names hordered] name level =
      if level = .unknow then .nowhere
      else if name = "root" then .sinks [⟨.stdout, "", .unknow, ⟨defaultPattern⟩⟩]
      else .root := by
  have hlogger := h.by_standing name
  rw [hunnamed] at hlogger
  have hlevel : level.value < Level.debug.value ↔ level = .unknow := by
    cases level <;> simp [Level.value]
  rw [h.route_readBack hordered hname, hlogger, initial_level, initial_formatter, initial_eq,
    levelString_value, Level.fromString_toString]
  refine if_congr hlevel rfl ?_
  by_cases hroot : name = "root"
  · rw [if_pos hroot, if_pos hroot]
    rfl
  · rw [if_neg hroot, if_neg hroot]
    rfl

variable (strftime : String → Nat → String) {vs' : List LogDefines} {level : Level}
  {event : LogEvent}

theorem printed_of_route_root (hname : name ≠ "root") (hroute : route vs name level = .root) :
    printed strftime vs name level event = printed strftime vs "root" level event := by
  unfold printed
  rw [hroute, if_pos rfl]
  dsimp only
  rw [if_neg hname]
  cases route vs "root" level <;> rfl

theorem printed_congr (hroute : route vs' name level = route vs name level)
    (hroot : printed strftime vs' "root" level event = printed strftime vs "root" level event) :
    printed strftime vs' name level event = printed strftime vs name level event := by
  by_cases hname : name = "root"
  · rw [hname]
    exact hroot
  · cases hvs : route vs name level with
    | root =>
        rw [printed_of_route_root strftime hname hvs,
          printed_of_route_root strftime hname (hroute.trans hvs), hroot]
    | nowhere =>
        unfold printed
        rw [hroute, hvs]
    | sinks sinks =>
        unfold printed
        rw [hroute, hvs]

theorem printed_root_congr (hroute : route vs' "root" level = route vs "root" level) :
    printed strftime vs' "root" level event = printed strftime vs "root" level event := by
  unfold printed
  rw [hroute]

/-- `root` comes back in any case: what is removed had no appenders, and the level of the first
appender does not matter beside that of the logger. -/
theorem Traced.printed_root (h : Traced vs loggers) (hname : "root" ∈ names)
    (hlevels : ∀ i, standing vs "root" = .defined i → ∀ a ∈ i.appenders, a.level = .unknow) :
    printed strftime [loggers.readBack names hordered] "root" level event =
      printed strftime vs "root" level event := by
  cases hroot : standing vs "root" with
  | defined i =>
      exact printed_root_congr strftime
        (h.route_readBack_of_defined hordered hname hroot (hlevels i hroot) level)
  | removed =>
      have hvs : route vs "root" level = .nowhere := by
        unfold route
        rw [hroot]
      unfold printed
      rw [h.route_readBack_of_removed hordered hname hroot, hvs]
      rfl
  | unnamed =>
      unfold printed
      rw [h.route_readBack_of_unnamed hordered hname hroot, route, hroot]
      cases level <;> rfl

/-- Every other name comes back exactly as far as it was not removed or `root` prints nothing. -/
theorem Traced.printed_iff (h : Traced vs loggers) (hname : name ∈ names) (hne : name ≠ "root")
    (hroot : printed strftime [loggers.readBack names hordered] "root" level event =
      printed strftime vs "root" level event)
    (hlevels : ∀ i, standing vs name = .defined i → ∀ a ∈ i.appenders, a.level = .unknow) :
    printed strftime [loggers.readBack names hordered] name level event =
        printed strftime vs name level event ↔
      (standing vs name = .removed → printed strftime vs "root" level event = []) := by
  cases hs : standing vs name with
  | defined i =>
      have hroute := h.route_readBack_of_defined hordered hname hs (hlevels i hs) level
      exact iff_of_true (printed_congr strftime hroute hroot) (fun heq => by cases heq)
  | removed =>
      have hroute := h.route_readBack_of_removed hordered hname hs level
      have hsilent : printed strftime vs name level event = [] := by
        unfold printed route
        rw [hs]
      rw [printed_of_route_root strftime hne hroute, hroot, hsilent]
      exact ⟨fun hnone _ => hnone, fun hnone => hnone rfl⟩
  | unnamed =>
      have hroute : route [loggers.readBack names hordered] name level = route vs name level := by
        rw [h.route_readBack_of_unnamed hordered hname hs, route, hs, if_neg hne, if_neg hne]
      exact iff_of_true (printed_congr strftime hroute hroot) (fun heq => by cases heq)

end

/-! ## What the values of documents are like -/

theorem of_bind_ok {ε α β : Type} {x : Except ε α} {f : α → Except ε β} {b : β}
    (h : x >>= f = .ok b) : ∃ a, x = .ok a ∧ f a = .ok b := by
  cases x with
  | error e => cases h
  | ok a => exact ⟨a, rfl, h⟩

theorem exists_of_mem_mapM {ε α β : Type} {f : α → Except ε β} {l : List α} {l' : List β}
    (h : l.mapM f = .ok l') {b : β} (hb : b ∈ l') : ∃ a ∈ l, f a = .ok b := by
  induction l generalizing l' with
  | nil =>
      cases h
      cases hb
  | cons a l ih =>
      rw [List.mapM_cons] at h
      obtain ⟨first, hfirst, h⟩ := of_bind_ok h
      obtain ⟨rest, hrest, h⟩ := of_bind_ok h
      cases h
      obtain rfl | hb := List.mem_cons.mp hb
      · exact ⟨a, List.mem_cons_self, hfirst⟩
      · obtain ⟨a', ha', heq⟩ := ih hrest hb
        exact ⟨a', List.mem_cons_of_mem a ha', heq⟩

theorem level_of_fromNode {n : Node} {a : LogAppenderDefine}
    (h : LogAppenderDefine.fromNode n = .ok (some a)) : a.level = .unknow := by
  obtain ⟨type, -, h⟩ := of_bind_ok h
  cases type with
  | none => cases h
  | some node =>
      obtain ⟨type, -, h⟩ := of_bind_ok h
      by_cases hfile : type = "FileLogAppender"
      · rw [if_pos hfile] at h
        obtain ⟨file, -, h⟩ := of_bind_ok h
        cases file with
        | none => cases h
        | some node =>
            obtain ⟨file, -, h⟩ := of_bind_ok h
            obtain ⟨formatter, -, h⟩ := of_bind_ok h
            cases h
            rfl
      · rw [if_neg hfile] at h
        by_cases hstdout : type = "StdoutLogAppender"
        · rw [if_pos hstdout] at h
          obtain ⟨formatter, -, h⟩ := of_bind_ok h
          cases h
          rfl
        · rw [if_neg hstdout] at h
          cases h

theorem levels_of_fromNode {n : Node} {i : LogDefine} (h : LogDefine.fromNode n = .ok i) :
    ∀ a ∈ i.appenders, a.level = .unknow := by
  obtain ⟨name, -, h⟩ := of_bind_ok h
  cases name with
  | none => cases h
  | some node =>
      obtain ⟨name, -, h⟩ := of_bind_ok h
      obtain ⟨level, -, h⟩ := of_bind_ok h
      obtain ⟨formatter, -, h⟩ := of_bind_ok h
      obtain ⟨defined, -, h⟩ := of_bind_ok h
      intro a ha
      cases defined with
      | none =>
          cases h
          cases ha
      | some node =>
          obtain ⟨appenders, happenders, h⟩ := of_bind_ok h
          cases h
          have hmem := List.reduceOption_mem_iff.mp ha
          obtain ⟨n, -, hn⟩ := exists_of_mem_mapM happenders hmem
          exact level_of_fromNode hn

theorem mem_foldl_insert {l : List LogDefine} {vec : LogDefines} {i : LogDefine}
    (hi : i ∈ (l.foldl LogDefines.insert vec).defs) : i ∈ l ∨ i ∈ vec.defs := by
  induction l generalizing vec with
  | nil => exact .inr hi
  | cons j l ih =>
      obtain hl | hvec := ih hi
      · exact .inl (List.mem_cons_of_mem j hl)
      · obtain rfl | hvec := eq_or_mem_of_setInsert hvec
        · exact .inl List.mem_cons_self
        · exact .inr hvec

theorem levels_of_accepted {root : Node} {v : LogDefines} (hv : v ∈ accepted y root) :
    ∀ i ∈ v.defs, ∀ a ∈ i.appenders, a.level = .unknow := by
  intro i hi
  obtain ⟨e, -, hv⟩ := List.mem_filterMap.mp hv
  cases htext : LogDefines.fromText y (Load.textOf y.emit e.2) with
  | error e =>
      rw [htext] at hv
      cases hv
  | ok v' =>
      rw [htext] at hv
      cases hv
      obtain ⟨node, -, hcast⟩ := of_bind_ok htext
      obtain ⟨defs, hdefs, hfold⟩ := of_bind_ok hcast
      cases hfold
      obtain hi | hi := mem_foldl_insert hi
      · obtain ⟨n, -, hn⟩ := exists_of_mem_mapM hdefs hi
        obtain ⟨n, -, hn⟩ := of_bind_ok hn
        cases hdefine : LogDefine.fromNode n with
        | error e =>
            rw [hdefine] at hn
            cases hn
        | ok define =>
            rw [hdefine] at hn
            cases hn
            exact levels_of_fromNode hdefine
      · cases hi

/-! ## The round trip -/

def RootSilent (vs : List LogDefines) : Prop :=
  match standing vs "root" with
  | .defined i => i.appenders = []
  | .removed => True
  | .unnamed => False

/-- No other name than `root` is removed, or `root`, where such a name goes after a dump, prints
nothing. -/
def Restorable (vs : List LogDefines) : Prop :=
  (∀ name, name ≠ "root" → standing vs name ≠ .removed) ∨ RootSilent vs

theorem rootSilent_iff (strftime : String → Nat → String) {vs : List LogDefines}
    (hlevels : ∀ i, standing vs "root" = .defined i → ∀ a ∈ i.appenders, a.level = .unknow)
    (event : LogEvent) :
    RootSilent vs ↔ ∀ level, printed strftime vs "root" level event = [] := by
  unfold RootSilent printed route
  cases hroot : standing vs "root" with
  | defined i =>
      dsimp only
      constructor
      · intro hnone level
        by_cases hlevel : level.value < i.level.value
        · rw [if_pos hlevel]
        · rw [if_neg hlevel, if_pos hnone]
          rfl
      · intro hsilent
        by_contra hsome
        have hlevel : ¬ Level.fatal.value < i.level.value := by cases i.level <;> decide
        have hfatal := hsilent .fatal
        rw [if_neg hlevel, if_neg hsome] at hfatal
        dsimp only at hfatal
        obtain ⟨a, ha⟩ := List.exists_mem_of_ne_nil _ hsome
        have hprint := List.flatMap_eq_nil_iff.mp hfatal _ (List.mem_map_of_mem ha)
        have hsink : (a.sink (formatterAfter "root" vs ⟨defaultPattern⟩)).level = .unknow :=
          hlevels i hroot a ha
        rw [Sink.print, hsink] at hprint
        cases hprint
  | removed => simp
  | unnamed =>
      refine iff_of_false id fun hsilent => ?_
      have hfatal := hsilent .fatal
      cases hfatal

theorem find_of_standing {vs : List LogDefines} {name : String} {i : LogDefine}
    (h : standing vs name = .defined i) : ∃ v ∈ vs, v.find name = some i := by
  have hfind : (vs.getLastD LogDefines.empty).find name = some i := by
    unfold standing at h
    split at h
    · rename_i hfind
      cases h
      exact hfind
    · split at h <;> cases h
  rw [List.getLastD_eq_getLast?] at hfind
  cases hlast : vs.getLast? with
  | none =>
      rw [hlast] at hfind
      cases hfind
  | some v =>
      rw [hlast] at hfind
      exact ⟨v, List.mem_of_getLast? hlast, hfind⟩

theorem standing_of_forall_none {vs : List LogDefines} {name : String}
    (h : ∀ v ∈ vs, v.find name = none) : standing vs name = .unnamed := by
  have hany : (vs.any fun v => (v.find name).isSome) = false :=
    List.any_eq_false.mpr fun v hv => by simp [h v hv]
  rw [standing, last_find_eq_none h, hany]
  rfl

theorem Traced.restores_iff (strftime : String → Nat → String) {vs : List LogDefines}
    {loggers : Loggers} {names : List String} (hordered : names.Pairwise (· < ·))
    (h : Traced vs loggers) (hroot : "root" ∈ names)
    (hnames : ∀ v ∈ vs, ∀ i ∈ v.defs, i.name ∈ names)
    (hlevels : ∀ v ∈ vs, ∀ i ∈ v.defs, ∀ a ∈ i.appenders, a.level = .unknow) :
    (∀ name level (event : LogEvent),
        printed strftime [loggers.readBack names hordered] name level
            { event with logger := name } =
          printed strftime vs name level { event with logger := name }) ↔ Restorable vs := by
  have hdefined : ∀ name i, standing vs name = .defined i → ∀ a ∈ i.appenders,
      a.level = .unknow := by
    intro name i hi
    obtain ⟨v, hv, hfind⟩ := find_of_standing hi
    exact hlevels v hv i (LogDefines.mem_of_find hfind).1
  have hothers : ∀ name, name ∉ names → standing vs name = .unnamed := by
    intro name hname
    refine standing_of_forall_none fun v hv => LogDefines.find_eq_none.mpr fun i hi heq => ?_
    exact hname (heq ▸ hnames v hv i hi)
  have hrootSame : ∀ level event,
      printed strftime [loggers.readBack names hordered] "root" level event =
        printed strftime vs "root" level event := fun _ _ =>
    h.printed_root hordered strftime hroot (hdefined "root")
  constructor
  · intro hsame
    by_cases hnone : ∀ name, name ≠ "root" → standing vs name ≠ .removed
    · exact .inl hnone
    · obtain ⟨name, hname⟩ := not_forall.mp hnone
      obtain ⟨hne, hremoved⟩ := Classical.not_imp.mp hname
      have hremoved := not_not.mp hremoved
      have hmem : name ∈ names := by
        by_contra hnot
        rw [hothers name hnot] at hremoved
        cases hremoved
      refine .inr ((rootSilent_iff strftime (hdefined "root")
        { sampleEvent with logger := name }).mpr fun level => ?_)
      exact (h.printed_iff hordered strftime hmem hne (hrootSame level _) (hdefined name)).mp
        (hsame name level sampleEvent) hremoved
  · intro hrestorable name level event
    by_cases hne : name = "root"
    · rw [hne]
      exact hrootSame level _
    · by_cases hmem : name ∈ names
      · refine (h.printed_iff hordered strftime hmem hne (hrootSame level _) (hdefined name)).mpr
          fun hremoved => ?_
        obtain hnone | hsilent := hrestorable
        · exact absurd hremoved (hnone name hne)
        · exact (rootSilent_iff strftime (hdefined "root") _).mp hsilent level
      · exact printed_congr strftime
          (route_readBack_of_not_mem hordered hmem (hothers name hmem) level) (hrootSame level _)

/-- The dump of the loggers can be loaded, and a fresh program that loads it prints every event as
the dumped one does exactly if no logger is restored that was removed. -/
theorem dump_restores_iff (hy : y.Lossless) (strftime : String → Nat → String)
    {c : Config (Loggers × V) Thrown} (hvar : c.datas "logs" = some (logDefinesVar y V .empty))
    (hloggers : c.world.1 = Loggers.initial) (hapart : Apart c) (docs : List Node)
    {names : List String} (hordered : names.Pairwise (· < ·)) (hroot : "root" ∈ names)
    (hnames : ∀ v ∈ docs.flatMap (accepted y), ∀ i ∈ v.defs, i.name ∈ names) :
    ∃ text node,
      (docs.foldl (Config.loadFromYaml y.emit) c).world.1.toYamlString y names = .ok text ∧
      y.load text = .ok node ∧
      ((∀ name level event,
          (c.loadFromYaml y.emit (.map [("logs", node)])).world.1.logLevel strftime name level
              event =
            (docs.foldl (Config.loadFromYaml y.emit) c).world.1.logLevel strftime name level
              event) ↔
        Restorable (docs.flatMap (accepted y))) := by
  have hstart : Follows y [] c := ⟨hvar, hloggers, hapart⟩
  have hdocs := hstart.loadAll docs
  obtain ⟨text, node, htext, hnode, hdump⟩ :=
    accepted_dump hy hordered (List.ne_nil_of_mem hroot)
      (docs.foldl (Config.loadFromYaml y.emit) c).world.1
  have hfresh := hstart.load (.map [("logs", node)])
  rw [hdump] at hfresh
  refine ⟨text, node, htext, hnode, ?_⟩
  rw [List.nil_append] at hdocs hfresh
  have hlevels : ∀ v ∈ docs.flatMap (accepted y), ∀ i ∈ v.defs, ∀ a ∈ i.appenders,
      a.level = .unknow := by
    intro v hv
    obtain ⟨doc, -, hv⟩ := List.mem_flatMap.mp hv
    exact levels_of_accepted hv
  have htraced : Traced (docs.flatMap (accepted y))
      (docs.foldl (Config.loadFromYaml y.emit) c).world.1 := hdocs.loggers ▸ traced _
  have htraced' := traced [(docs.foldl (Config.loadFromYaml y.emit) c).world.1.readBack names
    hordered]
  rw [← hfresh.loggers] at htraced'
  simp only [htraced.logLevel, htraced'.logLevel, Option.some.injEq]
  generalize docs.flatMap (accepted y) = vs at *
  exact htraced.restores_iff strftime hordered hroot hnames hlevels

/-! ## A sample -/

open Classical in
noncomputable def tableYaml (texts : List (Node × String)) : YamlCpp where
  load := fun text =>
    if text = "" then .ok .null
    else if h : ∃ node, textIn texts node = text then .ok h.choose
    else .error .parser
  emit := textIn texts
  blank := ""

theorem tableYaml_lossless {texts : List (Node × String)} (hne : ∀ e ∈ texts, e.2 ≠ "")
    (hnodup : (texts.map Prod.snd).Nodup) (hcomment : ∀ e ∈ texts, e.2.toList.head? ≠ some '#') :
    (tableYaml texts).Lossless where
  emit := by
    intro node
    have hnode : ∃ n, textIn texts n = textIn texts node := ⟨node, rfl⟩
    have hchoose := textIn_inj hnodup hcomment hnode.choose_spec
    simp only [tableYaml]
    rw [if_neg (textIn_ne_empty hne node), dif_pos hnode, hchoose]
  blank := by simp [tableYaml]

def consoleNode : Node := .map [("type", .scalar "StdoutLogAppender")]

def rootEntry : Node :=
  .map [("name", .scalar "root"), ("formatter", .scalar "%m"), ("appenders", .seq [consoleNode])]

def systemEntry : Node := .map [("name", .scalar "system"), ("formatter", .scalar "%m")]

def rootDump : Node :=
  .map [("name", .scalar "root"), ("level", .scalar "UNKNOW"), ("formatter", .scalar "%m"),
    ("appenders", .seq [consoleNode])]

def systemDump : Node :=
  .map [("name", .scalar "system"), ("level", .scalar "UNKNOW"), ("formatter", .scalar "%m")]

def dumpTexts : List (Node × String) :=
  [(consoleNode, "type: StdoutLogAppender"),
    (rootEntry, "name: root\nformatter: \"%m\"\nappenders:\n  - type: StdoutLogAppender"),
    (systemEntry, "name: system\nformatter: \"%m\""),
    (.seq [rootEntry, systemEntry], "- name: root\n  formatter: \"%m\"\n  appenders:\n" ++
      "    - type: StdoutLogAppender\n- name: system\n  formatter: \"%m\""),
    (.seq [rootEntry],
      "- name: root\n  formatter: \"%m\"\n  appenders:\n    - type: StdoutLogAppender"),
    (rootDump, "name: root\nlevel: UNKNOW\nformatter: \"%m\"\nappenders:\n" ++
      "  - type: StdoutLogAppender"),
    (systemDump, "name: system\nlevel: UNKNOW\nformatter: \"%m\""),
    (.seq [rootDump, systemDump], "- name: root\n  level: UNKNOW\n  formatter: \"%m\"\n" ++
      "  appenders:\n    - type: StdoutLogAppender\n" ++
      "- name: system\n  level: UNKNOW\n  formatter: \"%m\"")]

theorem dumpTexts_lossless : (tableYaml dumpTexts).Lossless :=
  tableYaml_lossless (by decide) (by decide +kernel) (by decide +kernel)

/-- `system` is configured, and dropped by the next document. -/
def droppedDocs : List Node :=
  [.map [("logs", .seq [rootEntry, systemEntry])], .map [("logs", .seq [rootEntry])]]

def rootDefine : LogDefine := ⟨"root", .unknow, "%m", [⟨.stdout, .unknow, "", ""⟩]⟩

def systemDefine : LogDefine := ⟨"system", .unknow, "%m", []⟩

theorem accepted_dropped :
    droppedDocs.flatMap (accepted (tableYaml dumpTexts)) =
      [⟨[rootDefine, systemDefine], by decide⟩, ⟨[rootDefine], by decide⟩] := by
  have hroot : LogDefine.fromNode rootEntry = .ok rootDefine := rfl
  have hsystem : LogDefine.fromNode systemEntry = .ok systemDefine := rfl
  have hboth := @accepted_of_seq _ dumpTexts_lossless _
    [(rootEntry, rootDefine), (systemEntry, systemDefine)] Prod.fst Prod.snd
    (by simp [hroot, hsystem])
  have hfirst := @accepted_of_seq _ dumpTexts_lossless _ [(rootEntry, rootDefine)] Prod.fst
    Prod.snd (by simp [hroot])
  have hdocs : droppedDocs.flatMap (accepted (tableYaml dumpTexts)) =
      [[rootDefine, systemDefine].foldl LogDefines.insert .empty,
        [rootDefine].foldl LogDefines.insert .empty] := by
    rw [droppedDocs, List.flatMap_cons, List.flatMap_cons]
    exact congrArg₂ (fun l l' => l ++ (l' ++ [])) hboth hfirst
  rw [hdocs, foldl_insert_ordered _ (by decide), foldl_insert_ordered _ (by decide)]

theorem dump_restores_iff_sample :
    ∃ text node,
      (droppedDocs.foldl (Config.loadFromYaml (tableYaml dumpTexts).emit)
        (sampleConfig (tableYaml dumpTexts))).world.1.toYamlString (tableYaml dumpTexts)
          ["root", "system"] = .ok text ∧
      (tableYaml dumpTexts).load text = .ok node ∧
      ¬ ∀ name level event,
        ((sampleConfig (tableYaml dumpTexts)).loadFromYaml (tableYaml dumpTexts).emit
            (.map [("logs", node)])).world.1.logLevel (fun _ _ => "") name level event =
          (droppedDocs.foldl (Config.loadFromYaml (tableYaml dumpTexts).emit)
            (sampleConfig (tableYaml dumpTexts))).world.1.logLevel (fun _ _ => "") name level
              event := by
  have hordered : ["root", "system"].Pairwise (· < ·) := by decide
  have hnames : ∀ v ∈ droppedDocs.flatMap (accepted (tableYaml dumpTexts)), ∀ i ∈ v.defs,
      i.name ∈ ["root", "system"] := by
    rw [accepted_dropped]
    decide
  obtain ⟨text, node, htext, hnode, hrestores⟩ :=
    dump_restores_iff dumpTexts_lossless (fun _ _ => "") rfl rfl
      (sampleConfig_apart (tableYaml dumpTexts)) droppedDocs hordered List.mem_cons_self hnames
  refine ⟨text, node, htext, hnode, fun hsame => ?_⟩
  have hrestorable := hrestores.mp hsame
  rw [accepted_dropped] at hrestorable
  obtain hnone | hsilent := hrestorable
  · exact hnone "system" (by decide) rfl
  · exact List.cons_ne_nil _ _ hsilent

end Sylar.Log
