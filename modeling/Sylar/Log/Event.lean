import Mathlib

/-! # Levels, events and format items

`LogLevel`, `LogEvent` and the classes derived from `LogFormatter::FormatItem`. Times are
shown through `strftime`, which is a parameter.
-/

namespace Sylar.Log

/-! ## Levels -/

inductive Level where
  | unknow | debug | info | warn | error | fatal
  deriving DecidableEq, Repr

/-- The enumerator's value; a `Logger` can hold others. -/
def Level.value : Level → Nat
  | .unknow => 0
  | .debug => 1
  | .info => 2
  | .warn => 3
  | .error => 4
  | .fatal => 5

def Level.toString : Level → String
  | .debug => "DEBUG"
  | .info => "INFO"
  | .warn => "WARN"
  | .error => "ERROR"
  | .fatal => "FATAL"
  | .unknow => "UNKNOW"

def Level.fromString (str : String) : Level :=
  if str = "debug" then .debug
  else if str = "info" then .info
  else if str = "warn" then .warn
  else if str = "error" then .error
  else if str = "fatal" then .fatal
  else if str = "DEBUG" then .debug
  else if str = "INFO" then .info
  else if str = "WARN" then .warn
  else if str = "ERROR" then .error
  else if str = "FATAL" then .fatal
  else .unknow

@[simp] theorem Level.fromString_toString (level : Level) : fromString level.toString = level := by
  cases level <;> decide

/-! ## Events -/

/-- `LogEvent`; `logger` is the name of its logger. -/
structure LogEvent where
  file : String
  line : Int
  elapse : Nat
  threadId : Nat
  fiberId : Nat
  time : Nat
  threadName : String
  content : String
  logger : String
  deriving DecidableEq, Repr

/-! ## Format items -/

/-- The item classes that `s_format_items` constructs. -/
inductive ItemClass where
  | message | level | elapse | name | threadId | newLine | dateTime | filename | line | tab
  | fiberId | threadName
  deriving DecidableEq, Repr

/-- `new C(fmt)` for an item class, or a `StringFormatItem`. -/
inductive FormatItem where
  | item (cls : ItemClass) (fmt : String)
  | string (str : String)
  deriving DecidableEq, Repr

/-- `FormatItem::format`. Only `DateTimeFormatItem` keeps what it is constructed with. -/
def FormatItem.format (strftime : String → Nat → String) (level : Level) (event : LogEvent) :
    FormatItem → String
  | .item .message _ => event.content
  | .item .level _ => level.toString
  | .item .elapse _ => ToString.toString event.elapse
  | .item .name _ => event.logger
  | .item .threadId _ => ToString.toString event.threadId
  | .item .newLine _ => "\n"
  | .item .dateTime fmt => strftime (if fmt = "" then "%Y-%m-%d %H:%M:%S" else fmt) event.time
  | .item .filename _ => event.file
  | .item .line _ => ToString.toString event.line
  | .item .tab _ => "\t"
  | .item .fiberId _ => ToString.toString event.fiberId
  | .item .threadName _ => event.threadName
  | .string str => str

end Sylar.Log
