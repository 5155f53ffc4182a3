import Mathlib.Data.String.Basic
import Mathlib.Logic.Function.Basic
import Rsylar.Foundations.OrderedSet

/-!
# Loggers and their configuration

The listener of the `logs` variable brings the loggers from the old set of definitions to the new
one: it configures those whose definition is new or has changed and clears those that have none any
more. A value of the variable is a set ordered by the names of its definitions. A logger is known by
its name, and a formatter by its pattern. Whether the program runs with the option `d` is
a parameter.

The level and the appenders of a logger are set anew whenever its definition changes. Its formatter
is set only by a definition that has one, so a pattern of an earlier definition may outlive it
(`formerPattern`).
-/

set_option autoImplicit false
set_option relaxedAutoImplicit false

namespace Rsylar

open OrderedSet

inductive LogLevel
  | unknow
  | debug
  | info
  | warn
  | error
  | fatal
deriving DecidableEq

/-! ### Patterns -/

namespace LogFormatter

/-- What follows the brace that ends a format, `none` when there is none. -/
def scanFormat : List Char → Option (List Char)
  | [] => none
  | c :: cs => if c = '}' then some cs else scanFormat cs

/-- The name of the item that follows a `%`, and the rest of the pattern. -/
def scanName (str : List Char) : List Char → Option (List Char × List Char)
  | [] => some (str, [])
  | c :: cs =>
    if ¬c.isAlpha ∧ c ≠ '{' ∧ c ≠ '}' then some (str, c :: cs)
    else if c = '{' then (scanFormat cs).map fun rest ↦ (str, rest)
    else scanName (str ++ [c]) cs

def formatItems : List (List Char) :=
  ["m", "p", "r", "c", "t", "n", "d", "f", "l", "T", "F", "N"].map String.toList

/-- The loop of `init` with `fuel` characters left. Of two `%` only the first is skipped. -/
def hasError : ℕ → List Char → Bool
  | fuel + 1, '%' :: '%' :: cs => hasError fuel ('%' :: cs)
  | fuel + 1, '%' :: cs =>
    match scanName [] cs with
    | some (str, rest) => !formatItems.contains str || hasError fuel rest
    | none => true
  | fuel + 1, _ :: cs => hasError fuel cs
  | _, _ => false

def isError (pattern : String) : Bool := hasError pattern.length pattern.toList

end LogFormatter

/-- The pattern of the formatter that a logger is made with. -/
def defaultPattern : String :=
  "%d\x7b%Y-%m-%d %H:%M:%S\x7d%T%t%T%N:%F%T[%p]%T[%c]%T%f:%l%T%m%n"

/-! ### Loggers -/

inductive LogAppenderType
  | file
  | stdout
deriving DecidableEq

structure LogAppender where
  type : LogAppenderType
  file : String := ""
  level : LogLevel := .debug
  hasFormatter : Bool := false
  formatter : Option String := none
deriving DecidableEq

def LogAppender.setFormatter (a : LogAppender) (val : String) : LogAppender :=
  { a with formatter := some val, hasFormatter := true }

structure Logger where
  level : LogLevel := .debug
  formatter : String := defaultPattern
  appenders : List LogAppender := []
deriving DecidableEq

namespace Logger

def setLevel (l : Logger) (val : LogLevel) : Logger := { l with level := val }

/-- Appenders without a formatter of their own follow. A pattern with an error is not taken. -/
def setFormatter (l : Logger) (val : String) : Logger :=
  if LogFormatter.isError val then l
  else
    { l with
      formatter := val
      appenders := l.appenders.map fun a ↦
        if a.hasFormatter then a else { a with formatter := some val } }

def addAppender (l : Logger) (a : LogAppender) : Logger :=
  { l with
    appenders := l.appenders ++
      [if a.formatter.isNone then { a with formatter := some l.formatter } else a] }

def clearAppenders (l : Logger) : Logger := { l with appenders := [] }

end Logger

structure LoggerManager where
  loggers : String → Option Logger

namespace LoggerManager

def create : LoggerManager where
  loggers := Function.update (fun _ ↦ none) "root"
    (some (({} : Logger).addAppender { type := .stdout }))

/-- A logger that is asked for is made. -/
def getLogger (m : LoggerManager) (name : String) : Logger := (m.loggers name).getD {}

def setLogger (m : LoggerManager) (name : String) (l : Logger) : LoggerManager :=
  { loggers := Function.update m.loggers name (some l) }

end LoggerManager

/-! ### Definitions -/

structure LogAppenderDefine where
  type : LogAppenderType
  level : LogLevel := .unknow
  formatter : String := ""
  file : String := ""
deriving DecidableEq

structure LogDefine where
  name : String
  level : LogLevel := .unknow
  formatter : String := ""
  appenders : List LogAppenderDefine := []
deriving DecidableEq

/-- A set of definitions, in the order of their names. -/
@[ext]
structure LogDefines where
  defines : List LogDefine := []
  sorted : Sorted LogDefine.name defines := by exact List.Pairwise.nil
deriving DecidableEq

/-- The appender of a definition; there is none for the standard output of a daemon. -/
def LogAppenderDefine.appender (a : LogAppenderDefine) (daemon : Bool) : Option LogAppender :=
  let ap : Option LogAppender := match a.type with
    | .file => some { type := .file, file := a.file }
    | .stdout => if daemon then none else some { type := .stdout }
  ap.map fun ap ↦
    let ap := { ap with level := a.level }
    if a.formatter ≠ "" ∧ ¬LogFormatter.isError a.formatter then ap.setFormatter a.formatter else ap

namespace LogDefine

/-- What the listener does to a logger whose definition is new or has changed. -/
def configure (i : LogDefine) (daemon : Bool) (l : Logger) : Logger :=
  let l := l.setLevel i.level
  let l := if i.formatter ≠ "" then l.setFormatter i.formatter else l
  i.appenders.foldl (fun l a ↦
    match a.appender daemon with
    | some ap => l.addAppender ap
    | none => l) l.clearAppenders

/-- What the listener does to a logger whose definition is gone. -/
def remove (l : Logger) : Logger := (l.setLevel .unknow).clearAppenders

end LogDefine

namespace LoggerManager

/-- The listener, in the loop over the new value. -/
def configure (daemon : Bool) (old : LogDefines) (m : LoggerManager) (i : LogDefine) :
    LoggerManager :=
  if find LogDefine.name i.name old.defines = some i then m
  else m.setLogger i.name (i.configure daemon (m.getLogger i.name))

/-- The listener, in the loop over the old value. -/
def remove (new : LogDefines) (m : LoggerManager) (i : LogDefine) : LoggerManager :=
  if (find LogDefine.name i.name new.defines).isNone then
    m.setLogger i.name (LogDefine.remove (m.getLogger i.name))
  else m

def onChange (daemon : Bool) (m : LoggerManager) (old new : LogDefines) : LoggerManager :=
  old.defines.foldl (remove new) (new.defines.foldl (configure daemon old) m)

end LoggerManager

/-- The loggers and the value of the `logs` variable. -/
structure LogSystem where
  manager : LoggerManager := .create
  logs : LogDefines := {}

/-- `setValue` of the variable, whose only listener is that of the loggers. -/
def LogSystem.setValue (daemon : Bool) (s : LogSystem) (v : LogDefines) : LogSystem :=
  if v = s.logs then s
  else { manager := s.manager.onChange daemon s.logs v, logs := v }

/-- The loggers after the variable has had the values of a history one after the other. -/
def LogSystem.after (daemon : Bool) (m : LoggerManager) (history : List LogDefines) : LogSystem :=
  history.foldl (LogSystem.setValue daemon) { manager := m }

end Rsylar
