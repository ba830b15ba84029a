import Sylar.Collection.Update
import Sylar.Log.Define
import Sylar.Log.Formatter

/-! # Loggers and the listener of `logs`

The change listener of the `logs` variable, on the loggers of the manager. An appender keeps
what a definition sets; the stream of a file appender is left out.
-/

namespace Sylar.Log

open Collection

/-! ## Loggers -/

/-- `LogAppender`; `formatter` is `m_formatter`, null before one is set. -/
structure Appender where
  type : AppenderType
  file : String
  level : Level
  hasFormatter : Bool
  formatter : Option LogFormatter
  deriving DecidableEq, Repr

/-- `new StdoutLogAppender`. -/
def Appender.stdout : Appender := ⟨.stdout, "", .debug, false, none⟩

/-- `new FileLogAppender(file)`. -/
def Appender.toFile (file : String) : Appender := ⟨.file, file, .debug, false, none⟩

def Appender.setLevel (a : Appender) (level : Level) : Appender := { a with level := level }

def Appender.setFormatter (a : Appender) (formatter : Option LogFormatter) : Appender :=
  { a with formatter := formatter, hasFormatter := formatter.isSome }

/-- `Logger`; its level is a number, for the listener stores one that no enumerator has. -/
structure Logger where
  level : Nat
  formatter : LogFormatter
  appenders : List Appender
  deriving DecidableEq, Repr

def defaultPattern : String :=
  "%d\x7b%Y-%m-%d %H:%M:%S\x7d%T%t%T%N%T%F%T[%p]%T[%c]%T%f:%l%T%m%n"

def Logger.new : Logger := ⟨Level.debug.value, ⟨defaultPattern⟩, []⟩

def Logger.setLevel (logger : Logger) (level : Nat) : Logger := { logger with level := level }

/-- `if (!appender->getFormatter()) appender->m_formatter = m_formatter`. -/
def Appender.attach (a : Appender) (formatter : LogFormatter) : Appender :=
  if a.formatter.isNone then { a with formatter := some formatter } else a

def Logger.addAppender (logger : Logger) (a : Appender) : Logger :=
  { logger with appenders := logger.appenders ++ [a.attach logger.formatter] }

def Logger.clearAppenders (logger : Logger) : Logger := { logger with appenders := [] }

def Logger.setFormatter (logger : Logger) (val : LogFormatter) : Logger :=
  { logger with
    formatter := val
    appenders := logger.appenders.map fun i =>
      if i.hasFormatter then i else { i with formatter := some val } }

/-- `Logger::setFormatter(const std::string&)`. -/
def Logger.setPattern (logger : Logger) (val : String) : Logger :=
  let newVal : LogFormatter := ⟨val⟩
  if newVal.isError then logger else logger.setFormatter newVal

/-- `m_loggers`, by name; a name that was not used yet has the logger that `getLogger` makes. -/
abbrev Loggers := String → Logger

/-- `LoggerManager::LoggerManager`. -/
def Loggers.initial : Loggers :=
  Function.update (fun _ => Logger.new) "root" (Logger.new.addAppender Appender.stdout)

/-! ## The listener -/

/-- `std::set<LogDefine>`, ordered by name. -/
structure LogDefines where
  defs : List LogDefine
  ordered : defs.Pairwise fun i j => i.name < j.name

def LogDefines.empty : LogDefines := ⟨[], .nil⟩

/-- `find` of a definition with this name: the order compares names only. -/
def LogDefines.find (defines : LogDefines) (name : String) : Option LogDefine :=
  defines.defs.find? fun it => it.name = name

def LogAppenderDefine.appender (a : LogAppenderDefine) : Appender :=
  let ap :=
    match a.type with
    | .file => Appender.toFile a.file
    | .stdout => Appender.stdout
  let ap := ap.setLevel a.level
  if a.formatter ≠ "" then
    let fmt : LogFormatter := ⟨a.formatter⟩
    if fmt.isError = false then ap.setFormatter (some fmt) else ap
  else ap

/-- One round of `for (auto& i : new_value)` for a new or changed definition. -/
def Logger.configure (logger : Logger) (i : LogDefine) : Logger :=
  let logger := logger.setLevel i.level.value
  let logger := if i.formatter ≠ "" then logger.setPattern i.formatter else logger
  i.appenders.foldl (fun logger a => logger.addAppender a.appender) logger.clearAppenders

/-- One round of `for (auto& i : old_value)` for a removed definition. -/
def Logger.remove (logger : Logger) : Logger := (logger.setLevel 100).clearAppenders

/-- `it == old_value.end() || !(i == *it)`. -/
def LogDefines.changed (oldValue : LogDefines) (i : LogDefine) : Bool :=
  match oldValue.find i.name with
  | none => true
  | some it => !decide (i = it)

/-- The listener of `LogIniter`. -/
def onLoggerConfChanged (oldValue newValue : LogDefines) (loggers : Loggers) : Loggers :=
  let loggers := newValue.defs.foldl (fun loggers i =>
    if oldValue.changed i then
      Function.update loggers i.name ((loggers i.name).configure i)
    else loggers) loggers
  oldValue.defs.foldl (fun loggers i =>
    if (newValue.find i.name).isNone then Function.update loggers i.name (loggers i.name).remove
    else loggers) loggers

def reload (loggers : Loggers) (oldValue : LogDefines) : List LogDefines → Loggers
  | [] => loggers
  | v :: vs => reload (onLoggerConfChanged oldValue v loggers) v vs

/-! ## What a round leaves -/

/-- The formatter string of a definition if the listener uses it: not empty, and no error. -/
def LogDefine.pattern (i : LogDefine) : Option String :=
  if i.formatter ≠ "" ∧ (LogFormatter.mk i.formatter).isError = false then some i.formatter
  else none

def LogDefine.logger (i : LogDefine) (formatter : LogFormatter) : Logger :=
  ⟨i.level.value, formatter, i.appenders.map fun a => a.appender.attach formatter⟩

theorem foldl_addAppender (appenders : List LogAppenderDefine) (logger : Logger) :
    appenders.foldl (fun logger a => logger.addAppender a.appender) logger =
      { logger with
        appenders := logger.appenders ++
          appenders.map fun a => a.appender.attach logger.formatter } := by
  induction appenders generalizing logger with
  | nil => simp
  | cons a appenders ih =>
      rw [List.foldl_cons, ih]
      simp [Logger.addAppender]

theorem configure_eq (logger : Logger) (i : LogDefine) :
    logger.configure i = i.logger ((i.pattern.map LogFormatter.mk).getD logger.formatter) := by
  simp only [Logger.configure, foldl_addAppender]
  by_cases hempty : i.formatter = ""
  · simp [hempty, LogDefine.pattern, LogDefine.logger, Logger.clearAppenders, Logger.setLevel]
  · cases herror : (LogFormatter.mk i.formatter).isError <;>
      simp [hempty, herror, LogDefine.pattern, LogDefine.logger, Logger.clearAppenders,
        Logger.setLevel, Logger.setPattern, Logger.setFormatter]

theorem LogDefines.names_ne (defines : LogDefines) :
    defines.defs.Pairwise fun i j => i.name ≠ j.name :=
  defines.ordered.imp fun hlt => ne_of_lt hlt

theorem LogDefines.find_of_mem {defines : LogDefines} {i : LogDefine} (hi : i ∈ defines.defs) :
    defines.find i.name = some i :=
  find?_key_of_mem defines.names_ne hi

theorem LogDefines.find_eq_none {defines : LogDefines} {name : String} :
    defines.find name = none ↔ ∀ i ∈ defines.defs, i.name ≠ name := by
  simp [LogDefines.find]

theorem LogDefines.mem_of_find {defines : LogDefines} {name : String} {i : LogDefine}
    (hfind : defines.find name = some i) : i ∈ defines.defs ∧ i.name = name :=
  ⟨List.mem_of_find?_eq_some hfind, by simpa using List.find?_some hfind⟩

theorem LogDefines.changed_eq_false {oldValue : LogDefines} {i : LogDefine} :
    oldValue.changed i = false ↔ oldValue.find i.name = some i := by
  cases hfind : oldValue.find i.name with
  | none => simp [LogDefines.changed, hfind]
  | some it =>
      simp only [LogDefines.changed, hfind, Option.some.injEq]
      rw [Bool.not_eq_eq_eq_not, Bool.not_false, decide_eq_true_eq, eq_comm]

/-- The listener as two loops over entries of their own. -/
theorem onLoggerConfChanged_eq (oldValue newValue : LogDefines) (loggers : Loggers) :
    onLoggerConfChanged oldValue newValue loggers =
      updateAll LogDefine.name (fun _ logger => logger.remove)
        (oldValue.defs.filter fun i => (newValue.find i.name).isNone)
        (updateAll LogDefine.name (fun i logger => logger.configure i)
          (newValue.defs.filter oldValue.changed) loggers) := by
  simp only [onLoggerConfChanged, updateAll, List.foldl_filter]

theorem listener_of_mem {oldValue newValue : LogDefines} {i : LogDefine} (loggers : Loggers)
    (hi : i ∈ newValue.defs) :
    onLoggerConfChanged oldValue newValue loggers i.name =
      if oldValue.changed i then (loggers i.name).configure i else loggers i.name := by
  have hkept : ∀ j ∈ oldValue.defs.filter fun i => (newValue.find i.name).isNone,
      j.name ≠ i.name := by
    intro j hj hname
    have hnone := (List.mem_filter.mp hj).2
    rw [hname, LogDefines.find_of_mem hi] at hnone
    cases hnone
  rw [onLoggerConfChanged_eq, updateAll_of_forall_ne _ hkept]
  cases hchanged : oldValue.changed i with
  | true =>
      exact updateAll_of_mem loggers (newValue.names_ne.filter _)
        (List.mem_filter.mpr ⟨hi, hchanged⟩)
  | false =>
      refine updateAll_of_forall_ne loggers fun j hj hname => ?_
      obtain ⟨hj, hother⟩ := List.mem_filter.mp hj
      have hsame := LogDefines.find_of_mem hj
      rw [hname, LogDefines.find_of_mem hi] at hsame
      cases hsame
      rw [hchanged] at hother
      cases hother

theorem listener_formatter_of_not_mem {oldValue newValue : LogDefines} {name : String}
    (loggers : Loggers) (hname : newValue.find name = none) :
    (onLoggerConfChanged oldValue newValue loggers name).formatter =
      (loggers name).formatter := by
  have hnew : updateAll LogDefine.name (fun i logger => logger.configure i)
      (newValue.defs.filter oldValue.changed) loggers name = loggers name :=
    updateAll_of_forall_ne loggers fun j hj =>
      LogDefines.find_eq_none.mp hname j (List.mem_filter.mp hj).1
  rw [onLoggerConfChanged_eq]
  by_cases hold : ∃ i ∈ oldValue.defs, i.name = name
  · obtain ⟨i, hi, rfl⟩ := hold
    rw [updateAll_of_mem _ (oldValue.names_ne.filter _)
      (List.mem_filter.mpr ⟨hi, by rw [hname]; rfl⟩), hnew]
    rfl
  · rw [updateAll_of_forall_ne _ fun j hj heq => hold ⟨j, (List.mem_filter.mp hj).1, heq⟩, hnew]

/-! ## What a sequence of values leaves -/

def LogDefines.patternOf (defines : LogDefines) (name : String) : Option String :=
  (defines.find name).bind LogDefine.pattern

def lastPattern (name : String) (vs : List LogDefines) : Option String :=
  (vs.filterMap fun v => v.patternOf name).getLast?

theorem lastPattern_concat (name : String) (vs : List LogDefines) (v : LogDefines) :
    lastPattern name (vs ++ [v]) = (v.patternOf name).or (lastPattern name vs) := by
  cases hpattern : v.patternOf name <;> simp [lastPattern, hpattern]

def formatterAfter (name : String) (vs : List LogDefines) (initial : LogFormatter) :
    LogFormatter :=
  ((lastPattern name vs).map LogFormatter.mk).getD initial

@[simp] theorem formatterAfter_nil (name : String) (initial : LogFormatter) :
    formatterAfter name [] initial = initial := rfl

theorem formatterAfter_concat (name : String) (vs : List LogDefines) (v : LogDefines)
    (initial : LogFormatter) :
    formatterAfter name (vs ++ [v]) initial =
      ((v.patternOf name).map LogFormatter.mk).getD (formatterAfter name vs initial) := by
  cases hpattern : v.patternOf name <;> simp [formatterAfter, lastPattern_concat, hpattern]

/-- The loggers after the values `vs`, of which `v` is the last. -/
structure Settled (initial : Loggers) (vs : List LogDefines) (v : LogDefines)
    (loggers : Loggers) : Prop where
  formatter : ∀ name,
    (loggers name).formatter = formatterAfter name vs (initial name).formatter
  configured : ∀ i ∈ v.defs, loggers i.name =
    i.logger ((i.pattern.map LogFormatter.mk).getD (loggers i.name).formatter)

theorem Settled.empty (loggers : Loggers) : Settled loggers [] LogDefines.empty loggers where
  formatter := fun _ => rfl
  configured := fun _ hi => absurd hi List.not_mem_nil

/-- What the listener leaves at a definition of the new value. -/
theorem Settled.listener_of_mem {initial loggers : Loggers} {vs : List LogDefines}
    {v v' : LogDefines} {i : LogDefine} (h : Settled initial vs v loggers) (hi : i ∈ v'.defs) :
    onLoggerConfChanged v v' loggers i.name =
      i.logger ((i.pattern.map LogFormatter.mk).getD (loggers i.name).formatter) := by
  rw [Log.listener_of_mem loggers hi]
  cases hchanged : v.changed i with
  | true => exact configure_eq _ i
  | false =>
      -- an unchanged definition was configured when it came
      have hsame := LogDefines.changed_eq_false.mp hchanged
      exact h.configured i (LogDefines.mem_of_find hsame).1

theorem Settled.listener {initial loggers : Loggers} {vs : List LogDefines} {v : LogDefines}
    (h : Settled initial vs v loggers) (v' : LogDefines) :
    Settled initial (vs ++ [v']) v' (onLoggerConfChanged v v' loggers) where
  formatter := by
    intro name
    rw [formatterAfter_concat, ← h.formatter, LogDefines.patternOf]
    cases hfind : v'.find name with
    | none => exact listener_formatter_of_not_mem loggers hfind
    | some i =>
        obtain ⟨hi, rfl⟩ := LogDefines.mem_of_find hfind
        rw [h.listener_of_mem hi]
        rfl
  configured := by
    intro i hi
    rw [h.listener_of_mem hi]
    cases hpattern : i.pattern <;> rfl

theorem Settled.reload {initial loggers : Loggers} {vs : List LogDefines} {v : LogDefines}
    (h : Settled initial vs v loggers) (vs' : List LogDefines) :
    Settled initial (vs ++ vs') (vs'.getLastD v) (reload loggers v vs') := by
  induction vs' generalizing vs v loggers with
  | nil => simpa [Log.reload] using h
  | cons v' vs' ih =>
      have hnext := ih (h.listener v')
      rwa [List.append_assoc, List.singleton_append, ← List.getLastD_cons (a := v)] at hnext

/-- A definition of the last value, by the values before it. -/
theorem Settled.at_last {initial loggers : Loggers} {vs : List LogDefines} {v : LogDefines}
    {i : LogDefine} (h : Settled initial (vs ++ [v]) v loggers) (hi : i ∈ v.defs) :
    loggers i.name = i.logger ((i.pattern.map LogFormatter.mk).getD
      (formatterAfter i.name vs (initial i.name).formatter)) := by
  rw [h.configured i hi, h.formatter, formatterAfter_concat, LogDefines.patternOf,
    LogDefines.find_of_mem hi, Option.bind_some]
  cases hpattern : i.pattern <;> rfl

/-! ## Reloading against a fresh start -/

structure AppenderSettings where
  type : AppenderType
  file : String
  level : Level
  formatter : Option String
  deriving DecidableEq, Repr

/-- What a logger does with an event, its formatters by their patterns. -/
structure LoggerSettings where
  level : Nat
  formatter : String
  appenders : List AppenderSettings
  deriving DecidableEq, Repr

def Appender.settings (a : Appender) : AppenderSettings :=
  ⟨a.type, a.file, a.level, a.formatter.map LogFormatter.pattern⟩

def Logger.settings (logger : Logger) : LoggerSettings :=
  ⟨logger.level, logger.formatter.pattern, logger.appenders.map Appender.settings⟩

theorem LogDefine.settings_inj {i : LogDefine} {formatter formatter' : LogFormatter} :
    (i.logger formatter).settings = (i.logger formatter').settings ↔ formatter = formatter' := by
  constructor
  · intro hsame
    have hpattern := congrArg LoggerSettings.formatter hsame
    obtain ⟨pattern⟩ := formatter
    obtain ⟨pattern'⟩ := formatter'
    exact congrArg LogFormatter.mk hpattern
  · intro heq
    rw [heq]

/-- After any values the loggers named in the last one are those of a fresh start exactly if
each has a formatter of its own there, or was left with the one it began with. -/
theorem reload_fresh_iff (loggers : Loggers) (vs : List LogDefines) (v : LogDefines) :
    (∀ i ∈ v.defs, (reload loggers LogDefines.empty (vs ++ [v]) i.name).settings =
        (reload loggers LogDefines.empty [v] i.name).settings) ↔
      ∀ i ∈ v.defs, i.pattern.isSome ∨
        ∀ pattern, lastPattern i.name vs = some pattern →
          LogFormatter.mk pattern = (loggers i.name).formatter := by
  have hlast := (Settled.empty loggers).reload (vs ++ [v])
  have hfresh := (Settled.empty loggers).reload [v]
  rw [List.nil_append, List.getLastD_concat] at hlast
  refine forall₂_congr fun i hi => ?_
  rw [hlast.at_last hi, hfresh.at_last hi, LogDefine.settings_inj]
  cases hpattern : i.pattern with
  | some pattern => simp
  | none =>
      rw [Option.map_none, Option.getD_none, Option.getD_none, formatterAfter_nil]
      cases hbefore : lastPattern i.name vs <;> simp [formatterAfter, hbefore]

/-- The values of `conf/test.yml` and `conf/log2.yml`. -/
def testDefines : LogDefines where
  defs := [
    ⟨"root", .info, "%d%T%m%n", [⟨.file, .unknow, "", "root.txt"⟩, ⟨.stdout, .unknow, "", ""⟩]⟩,
    ⟨"system", .debug, "%d%T%m%n",
      [⟨.file, .unknow, "%d%T[%p]%T%m%n", "system.txt"⟩, ⟨.stdout, .unknow, "", ""⟩]⟩]
  ordered := by decide

def log2Defines : LogDefines where
  defs := [⟨"root", .info, "", [⟨.file, .unknow, "", "mutex.txt"⟩]⟩]
  ordered := List.pairwise_singleton _ _

/-- The second value has no formatter for `root`, so the one of the first stays in use. -/
theorem formatter_outlives_reload :
    (reload Loggers.initial LogDefines.empty [testDefines, log2Defines] "root").settings =
        ⟨2, "%d%T%m%n", [⟨.file, "mutex.txt", .unknow, some "%d%T%m%n"⟩]⟩ ∧
      (reload Loggers.initial LogDefines.empty [log2Defines] "root").settings =
        ⟨2, defaultPattern, [⟨.file, "mutex.txt", .unknow, some defaultPattern⟩]⟩ ∧
      ¬ ∀ i ∈ log2Defines.defs,
        (reload Loggers.initial LogDefines.empty [testDefines, log2Defines] i.name).settings =
          (reload Loggers.initial LogDefines.empty [log2Defines] i.name).settings := by
  refine ⟨by decide +kernel, by decide +kernel, fun hsame => ?_⟩
  have hroot := hsame _ List.mem_cons_self
  revert hroot
  decide +kernel

end Sylar.Log
