import Sylar.Log.Reload

/-! # What an event prints after any configuration

`Logger::log`, with its way to `m_root`, and the appenders. An output is the text that an appender
passes to its stream. Whatever values `logs` took, an event of any name goes where the history of
these values says: to the appenders of the last definition, where those of `root` go, or nowhere.
-/

namespace Sylar.Log

open Collection

variable (strftime : String → Nat → String)

/-! ## The calls -/

structure Output where
  type : AppenderType
  file : String
  text : String
  deriving DecidableEq, Repr

/-- `StdoutLogAppender::log` and `FileLogAppender::log`; `none` is a null `m_formatter`. -/
def Appender.log (a : Appender) (level : Level) (event : LogEvent) : Option (List Output) :=
  if a.level.value ≤ level.value then
    a.formatter.map fun formatter => [⟨a.type, a.file, formatter.format strftime level event⟩]
  else some []

/-- `for (auto& i : m_appenders) i->log(self, level, event);` -/
def Logger.logAll (logger : Logger) (level : Level) (event : LogEvent) : Option (List Output) := do
  let outs ← logger.appenders.mapM fun i => i.log strftime level event
  return outs.flatten

/-- `Logger::log`; `roots` are the loggers that `m_root` leads to. -/
def Logger.log (level : Level) (event : LogEvent) (logger : Logger) (roots : List Logger) :
    Option (List Output) :=
  if logger.level ≤ level.value then
    if logger.appenders ≠ [] then logger.logAll strftime level event
    else
      match roots with
      | [] => some []
      | root :: roots => root.log level event roots
  else some []
termination_by structural roots

/-- `m_root`: null for the root logger, and the root logger for those that `getLogger` makes. -/
def Loggers.roots (loggers : Loggers) (name : String) : List Logger :=
  if name = "root" then [] else [loggers "root"]

/-- A statement `SYLAR_LOG_LEVEL(SYLAR_LOG_NAME(name), level) << ..`, with the test of the macro;
the destructor of `LogEventWrap` logs the event. -/
def Loggers.logLevel (loggers : Loggers) (name : String) (level : Level) (event : LogEvent) :
    Option (List Output) :=
  if (loggers name).level ≤ level.value then
    (loggers name).log strftime level { event with logger := name } (loggers.roots name)
  else some []

/-! ## Where events are to go -/

/-- What an appender is there for: the events from a level on, printed with a formatter. -/
structure Sink where
  type : AppenderType
  file : String
  level : Level
  formatter : LogFormatter
  deriving DecidableEq, Repr

def Sink.print (sink : Sink) (level : Level) (event : LogEvent) : List Output :=
  if sink.level.value ≤ level.value then
    [⟨sink.type, sink.file, sink.formatter.format strftime level event⟩]
  else []

/-- The sink of an appender that takes `inherited` where it has no valid formatter of its own. -/
def LogAppenderDefine.sink (inherited : LogFormatter) (a : LogAppenderDefine) : Sink where
  type := a.type
  file := match a.type with
    | .file => a.file
    | .stdout => ""
  level := a.level
  formatter :=
    if a.formatter ≠ "" ∧ (LogFormatter.mk a.formatter).isError = false then ⟨a.formatter⟩
    else inherited

/-- What the values of `logs` say of a name. -/
inductive Standing where
  /-- The last value has a definition. -/
  | defined (i : LogDefine)
  /-- Only values before the last have one. -/
  | removed
  | unnamed

def standing (vs : List LogDefines) (name : String) : Standing :=
  match (vs.getLastD LogDefines.empty).find name with
  | some i => .defined i
  | none => if vs.any fun v => (v.find name).isSome then .removed else .unnamed

inductive Route where
  | nowhere
  | sinks (sinks : List Sink)
  | root
  deriving DecidableEq, Repr

/-- A name without a definition logs from `DEBUG` on, and a removed one not at all. -/
def route (vs : List LogDefines) (name : String) (level : Level) : Route :=
  match standing vs name with
  | .defined i =>
      if level.value < i.level.value then .nowhere
      else if i.appenders = [] then .root
      else
        .sinks (i.appenders.map (LogAppenderDefine.sink (formatterAfter name vs ⟨defaultPattern⟩)))
  | .removed => .nowhere
  | .unnamed =>
      if level = .unknow then .nowhere
      else if name = "root" then .sinks [⟨.stdout, "", .debug, ⟨defaultPattern⟩⟩]
      else .root

def printed (vs : List LogDefines) (name : String) (level : Level) (event : LogEvent) :
    List Output :=
  match route vs name level with
  | .nowhere => []
  | .sinks sinks => sinks.flatMap fun sink => sink.print strftime level event
  | .root =>
      if name = "root" then []
      else
        match route vs "root" level with
        | .sinks sinks => sinks.flatMap fun sink => sink.print strftime level event
        | _ => []

/-! ## The loggers by the history -/

theorem listener_of_find_none {oldValue newValue : LogDefines} {name : String} (loggers : Loggers)
    (hname : newValue.find name = none) :
    onLoggerConfChanged oldValue newValue loggers name =
      if (oldValue.find name).isSome then (loggers name).remove else loggers name := by
  have hnew : updateAll LogDefine.name (fun i logger => logger.configure i)
      (newValue.defs.filter oldValue.changed) loggers name = loggers name :=
    updateAll_of_forall_ne loggers fun j hj =>
      LogDefines.find_eq_none.mp hname j (List.mem_filter.mp hj).1
  rw [onLoggerConfChanged_eq]
  cases hold : oldValue.find name with
  | none =>
      rw [updateAll_of_forall_ne _ fun j hj =>
        LogDefines.find_eq_none.mp hold j (List.mem_filter.mp hj).1, hnew]
      rfl
  | some i =>
      obtain ⟨hi, rfl⟩ := LogDefines.mem_of_find hold
      rw [updateAll_of_mem _ (oldValue.names_ne.filter _)
        (List.mem_filter.mpr ⟨hi, by rw [hname]; rfl⟩), hnew]
      rfl

theorem reload_concat (loggers : Loggers) (oldValue : LogDefines) (vs : List LogDefines)
    (v : LogDefines) :
    reload loggers oldValue (vs ++ [v]) =
      onLoggerConfChanged (vs.getLastD oldValue) v (reload loggers oldValue vs) := by
  induction vs generalizing loggers oldValue with
  | nil => rfl
  | cons v' vs ih =>
      rw [List.cons_append, reload, ih, reload, List.getLastD_cons]

theorem last_find_eq_none {vs : List LogDefines} {name : String}
    (h : ∀ v ∈ vs, v.find name = none) : (vs.getLastD LogDefines.empty).find name = none := by
  cases hlast : vs.getLast? with
  | none => rw [List.getLastD_eq_getLast?, hlast, Option.getD_none]; rfl
  | some v =>
      rw [List.getLastD_eq_getLast?, hlast, Option.getD_some]
      exact h v (List.mem_of_getLast? hlast)

/-- The loggers after the values `vs`, for every name. -/
structure Traced (vs : List LogDefines) (loggers : Loggers) : Prop
    extends Settled Loggers.initial vs (vs.getLastD LogDefines.empty) loggers where
  removed : ∀ name, (vs.getLastD LogDefines.empty).find name = none →
    (∃ v ∈ vs, (v.find name).isSome) → (loggers name).level = 100 ∧ (loggers name).appenders = []
  unnamed : ∀ name, (∀ v ∈ vs, v.find name = none) → loggers name = Loggers.initial name

theorem Traced.listener {vs : List LogDefines} {loggers : Loggers} (h : Traced vs loggers)
    (v : LogDefines) :
    Traced (vs ++ [v])
      (onLoggerConfChanged (vs.getLastD LogDefines.empty) v loggers) where
  toSettled := by
    rw [List.getLastD_concat]
    exact h.toSettled.listener v
  removed := by
    intro name hlast hnamed
    rw [List.getLastD_concat] at hlast
    rw [listener_of_find_none loggers hlast]
    cases hold : (vs.getLastD LogDefines.empty).find name with
    | some i => exact ⟨rfl, rfl⟩
    | none =>
        refine h.removed name hold ?_
        obtain ⟨w, hw, hsome⟩ := hnamed
        obtain hw | hw := List.mem_append.mp hw
        · exact ⟨w, hw, hsome⟩
        · rw [List.mem_singleton.mp hw, hlast] at hsome
          cases hsome
  unnamed := by
    intro name hnone
    have hlast := hnone v (List.mem_append_right vs (List.mem_singleton_self v))
    have hbefore : ∀ w ∈ vs, w.find name = none := fun w hw =>
      hnone w (List.mem_append_left [v] hw)
    rw [listener_of_find_none loggers hlast, last_find_eq_none hbefore]
    exact h.unnamed name hbefore

theorem traced (vs : List LogDefines) :
    Traced vs (reload Loggers.initial LogDefines.empty vs) := by
  induction vs using List.reverseRecOn with
  | nil =>
      exact {
        toSettled := .empty _
        removed := fun name _ hnamed => by
          obtain ⟨v, hv, -⟩ := hnamed
          cases hv
        unnamed := fun _ _ => rfl }
  | append_singleton vs v ih =>
      rw [reload_concat]
      exact ih.listener v

theorem initial_eq (name : String) :
    Loggers.initial name =
      if name = "root" then Logger.new.addAppender Appender.stdout else Logger.new :=
  Function.update_apply _ _ _ _

theorem initial_level (name : String) : (Loggers.initial name).level = Level.debug.value := by
  rw [initial_eq]
  split <;> rfl

theorem initial_formatter (name : String) :
    (Loggers.initial name).formatter = ⟨defaultPattern⟩ := by
  rw [initial_eq]
  split <;> rfl

theorem Traced.by_standing {vs : List LogDefines} {loggers : Loggers} (h : Traced vs loggers)
    (name : String) :
    match standing vs name with
    | .defined i => loggers name = i.logger (formatterAfter name vs ⟨defaultPattern⟩)
    | .removed => (loggers name).level = 100 ∧ (loggers name).appenders = []
    | .unnamed => loggers name = Loggers.initial name := by
  unfold standing
  cases hfind : (vs.getLastD LogDefines.empty).find name with
  | some i =>
      obtain ⟨hi, rfl⟩ := LogDefines.mem_of_find hfind
      have hconfigured := h.configured i hi
      have hformatter := congrArg Logger.formatter hconfigured
      -- the formatter it was configured with is the one it has
      rw [hconfigured, ← initial_formatter i.name, ← h.formatter]
      exact congrArg i.logger hformatter.symm
  | none =>
      cases hnamed : vs.any fun v => (v.find name).isSome with
      | true => exact h.removed name hfind (List.any_eq_true.mp hnamed)
      | false =>
          refine h.unnamed name fun v hv => ?_
          simpa using List.any_eq_false.mp hnamed v hv

/-! ## Where events go -/

/-- The appender does what the sink is there for; its formatter is not null. -/
structure Appender.Serves (ap : Appender) (sink : Sink) : Prop where
  type : ap.type = sink.type
  file : ap.file = sink.file
  level : ap.level = sink.level
  formatter : ap.formatter = some sink.formatter

theorem serves_attach (a : LogAppenderDefine) (formatter : LogFormatter) :
    (a.appender.attach formatter).Serves (a.sink formatter) := by
  obtain ⟨type, lowest, pattern, file⟩ := a
  by_cases hempty : pattern = ""
  · cases type <;> constructor <;>
      simp [LogAppenderDefine.appender, LogAppenderDefine.sink, Appender.attach,
        Appender.toFile, Appender.stdout, Appender.setLevel, hempty]
  · cases type <;> cases herror : (LogFormatter.mk pattern).isError <;> constructor <;>
      simp [LogAppenderDefine.appender, LogAppenderDefine.sink, Appender.attach, Appender.toFile,
        Appender.stdout, Appender.setLevel, Appender.setFormatter, hempty, herror]

theorem Appender.Serves.log {ap : Appender} {sink : Sink} (h : ap.Serves sink) (level : Level)
    (event : LogEvent) : ap.log strftime level event = some (sink.print strftime level event) := by
  unfold Appender.log Sink.print
  rw [h.type, h.file, h.level, h.formatter]
  split <;> rfl

theorem mapM_log_of_serves {appenders : List Appender} {sinks : List Sink}
    (h : List.Forall₂ Appender.Serves appenders sinks) (level : Level) (event : LogEvent) :
    appenders.mapM (fun i => i.log strftime level event) =
      some (sinks.map fun sink => sink.print strftime level event) := by
  induction h with
  | nil => rfl
  | cons hserves _ ih =>
      rw [List.mapM_cons, hserves.log, ih]
      rfl

theorem logAll_of_serves {logger : Logger} {sinks : List Sink}
    (h : List.Forall₂ Appender.Serves logger.appenders sinks) (level : Level) (event : LogEvent) :
    logger.logAll strftime level event =
      some (sinks.flatMap fun sink => sink.print strftime level event) := by
  rw [Logger.logAll, mapM_log_of_serves strftime h, List.flatMap_def]
  rfl

theorem log_of_lt {logger : Logger} {level : Level} (h : level.value < logger.level)
    (event : LogEvent) (roots : List Logger) :
    logger.log strftime level event roots = some [] := by
  unfold Logger.log
  rw [if_neg (not_le.mpr h)]

theorem log_of_le {logger : Logger} {level : Level} (h : logger.level ≤ level.value)
    {sinks : List Sink} (hserves : List.Forall₂ Appender.Serves logger.appenders sinks)
    (event : LogEvent) (roots : List Logger) :
    logger.log strftime level event roots =
      if sinks = [] then
        match roots with
        | [] => some []
        | root :: roots => root.log strftime level event roots
      else some (sinks.flatMap fun sink => sink.print strftime level event) := by
  have hnil : logger.appenders = [] ↔ sinks = [] := by
    rw [← List.length_eq_zero_iff, hserves.length_eq, List.length_eq_zero_iff]
  conv_lhs => unfold Logger.log
  rw [if_pos h, logAll_of_serves strftime hserves, ite_not, if_congr hnil rfl rfl]

theorem value_lt_removed (level : Level) : level.value < 100 := by cases level <;> decide

/-- A logger asks its own appenders, or those that `m_root` leads to, or nobody. -/
theorem Traced.log_route {vs : List LogDefines} {loggers : Loggers} (h : Traced vs loggers)
    (name : String) (level : Level) (event : LogEvent) (roots : List Logger) :
    (loggers name).log strftime level event roots =
      match route vs name level with
      | .nowhere => some []
      | .sinks sinks => some (sinks.flatMap fun sink => sink.print strftime level event)
      | .root =>
          match roots with
          | [] => some []
          | root :: roots => root.log strftime level event roots := by
  have hstanding := h.by_standing name
  unfold route
  cases hs : standing vs name with
  | defined i =>
      rw [hs] at hstanding
      rw [hstanding]
      dsimp only
      by_cases hlevel : level.value < i.level.value
      · rw [if_pos hlevel]
        exact log_of_lt strftime hlevel event roots
      · have hserves : List.Forall₂ Appender.Serves
            (i.logger (formatterAfter name vs ⟨defaultPattern⟩)).appenders
            (i.appenders.map (LogAppenderDefine.sink (formatterAfter name vs ⟨defaultPattern⟩))) :=
          List.forall₂_map_left_iff.mpr (List.forall₂_map_right_iff.mpr
            (List.forall₂_same.mpr fun a _ => serves_attach a _))
        rw [if_neg hlevel, log_of_le strftime (not_lt.mp hlevel) hserves]
        by_cases hnone : i.appenders = []
        · simp [hnone]
        · simp [hnone]
  | removed =>
      rw [hs] at hstanding
      exact log_of_lt strftime (hstanding.1 ▸ value_lt_removed level) event roots
  | unnamed =>
      rw [hs] at hstanding
      dsimp only at hstanding ⊢
      rw [hstanding]
      by_cases hlevel : level = .unknow
      · rw [if_pos hlevel, hlevel]
        exact log_of_lt strftime (initial_level name ▸ Nat.zero_lt_one) event roots
      · have hle : (Loggers.initial name).level ≤ level.value := by
          rw [initial_level]
          cases level <;> first | exact absurd rfl hlevel | decide
        rw [if_neg hlevel]
        by_cases hroot : name = "root"
        · have hserves : List.Forall₂ Appender.Serves (Loggers.initial name).appenders
              [⟨.stdout, "", .debug, ⟨defaultPattern⟩⟩] := by
            rw [initial_eq, if_pos hroot]
            exact .cons ⟨rfl, rfl, rfl, rfl⟩ .nil
          rw [if_pos hroot, log_of_le strftime hle hserves, if_neg (List.cons_ne_nil _ _)]
        · have hserves : List.Forall₂ Appender.Serves (Loggers.initial name).appenders [] := by
            rw [initial_eq, if_neg hroot]
            exact .nil
          rw [if_neg hroot, log_of_le strftime hle hserves, if_pos rfl]

/-- The test of the macro is the one that `Logger::log` makes again. -/
theorem logLevel_eq (loggers : Loggers) (name : String) (level : Level) (event : LogEvent) :
    loggers.logLevel strftime name level event =
      (loggers name).log strftime level { event with logger := name } (loggers.roots name) := by
  unfold Loggers.logLevel
  by_cases hlevel : (loggers name).level ≤ level.value
  · rw [if_pos hlevel]
  · rw [if_neg hlevel, log_of_lt strftime (not_le.mp hlevel)]

theorem Traced.logLevel {vs : List LogDefines} {loggers : Loggers} (h : Traced vs loggers)
    (name : String) (level : Level) (event : LogEvent) :
    loggers.logLevel strftime name level event =
      some (printed strftime vs name level { event with logger := name }) := by
  have hlog := h.log_route strftime name level { event with logger := name }
  have hroot := h.log_route strftime "root" level { event with logger := name } []
  rw [logLevel_eq, hlog, printed]
  cases hroute : route vs name level with
  | nowhere => rfl
  | sinks sinks => rfl
  | root =>
      dsimp only
      unfold Loggers.roots
      by_cases hname : name = "root"
      · rw [if_pos hname, if_pos hname]
      · rw [if_neg hname, if_neg hname]
        dsimp only
        rw [hroot]
        cases route vs "root" level <;> rfl

/-- After any values every event of any name prints what the history of the values says, and no
null formatter is met on the way. -/
theorem events_routed (vs : List LogDefines) (name : String) (level : Level) (event : LogEvent) :
    (reload Loggers.initial LogDefines.empty vs).logLevel strftime name level event =
      some (printed strftime vs name level { event with logger := name }) :=
  (traced vs).logLevel strftime name level event

/-- The removed `system` is silent, while a name that no value has goes to the file of `root`. -/
example (event : LogEvent) :
    printed strftime [testDefines, log2Defines] "system" .fatal event = [] ∧
      route [testDefines, log2Defines] "http" .fatal = .root ∧
      route [testDefines, log2Defines] "root" .fatal =
        .sinks [⟨.file, "mutex.txt", .unknow, ⟨"%d%T%m%n"⟩⟩] :=
  ⟨rfl, rfl, by decide +kernel⟩

end Sylar.Log
