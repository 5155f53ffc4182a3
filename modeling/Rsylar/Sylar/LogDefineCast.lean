import Rsylar.Sylar.LogConfig
import Rsylar.Sylar.Yaml

/-!
# The text form of a log definition

`LexicalCast` from a `LogDefine` to a string and back. Each direction is a list of fields of its
own: what is written of an appender is its type, the file of a file appender, its level and its
formatter; what is read is the type, the file of a file appender and the formatter. So a definition
comes back exactly when no appender has a level and no appender for the standard output has a file
(`logDefineCast`). That the library reads the node that it has written is an assumption.
-/

set_option autoImplicit false
set_option relaxedAutoImplicit false

namespace Rsylar

open Yaml

namespace LogLevel

def toString : LogLevel → String
  | unknow => "UNKNOW"
  | debug => "DEBUG"
  | info => "INFO"
  | warn => "WARN"
  | error => "ERROR"
  | fatal => "FATAL"

def fromString (str : String) : LogLevel :=
  if str = "debug" then debug
  else if str = "info" then info
  else if str = "warn" then warn
  else if str = "error" then error
  else if str = "fatal" then fatal
  else if str = "DEBUG" then debug
  else if str = "INFO" then info
  else if str = "WARN" then warn
  else if str = "ERROR" then error
  else if str = "FATAL" then fatal
  else unknow

theorem fromString_toString (level : LogLevel) : fromString level.toString = level := by
  cases level <;> rfl

/-- The field of a level, which is written when there is one. -/
def fields (level : LogLevel) : List (Yaml × Yaml) :=
  if level = unknow then [] else [field "level" level.toString]

end LogLevel

/-- The field of a formatter, which is written when it is not empty. -/
def formatterFields (formatter : String) : List (Yaml × Yaml) :=
  if formatter = "" then [] else [field "formatter" formatter]

/-! ### Writing -/

def LogAppenderDefine.toYaml (a : LogAppenderDefine) : Yaml :=
  .map ((match a.type with
    | .file => [field "type" "FileLogAppender", field "file" a.file]
    | .stdout => [field "type" "StdoutLogAppender"]) ++
    a.level.fields ++ formatterFields a.formatter)

def LogDefine.toYaml (i : LogDefine) : Yaml :=
  .map (field "name" i.name :: i.level.fields ++ formatterFields i.formatter ++
    if i.appenders = [] then []
    else [(.scalar "appenders", .sequence (i.appenders.map LogAppenderDefine.toYaml))])

/-- `LexicalCast<LogDefine, std::string>` -/
def LogDefine.toText (emit : Yaml → String) (i : LogDefine) : String := emit i.toYaml

/-! ### Reading -/

/-- One turn of the loop over the appenders, `none` when it continues without one. -/
def LogAppenderDefine.ofYaml (a : Yaml) : Except LoadError (Option LogAppenderDefine) := do
  match ← a.get "type" with
  | none => return none
  | some type =>
    let type ← type.asString
    if type = "FileLogAppender" then
      match ← a.get "file" with
      | none => return none
      | some file =>
        let file ← file.asString
        let formatter ← a.getString "formatter"
        return some { type := .file, file := file, formatter := formatter }
    else if type = "StdoutLogAppender" then
      let formatter ← a.getString "formatter"
      return some { type := .stdout, formatter := formatter }
    else return none

/-- The loop over the appenders. -/
def LogAppenderDefine.ofItems : List Yaml → Except LoadError (List LogAppenderDefine)
  | [] => return []
  | a :: rest => do
    let lad ← ofYaml a
    let appenders ← ofItems rest
    return lad.toList ++ appenders

def LogDefine.ofYaml (n : Yaml) : Except LoadError LogDefine := do
  match ← n.get "name" with
  | none => throw (.logic "log config name is null")
  | some name =>
    let name ← name.asString
    let level ← n.getString "level"
    let formatter ← n.getString "formatter"
    let appenders ← match ← n.get "appenders" with
      | some appenders => LogAppenderDefine.ofItems appenders.items
      | none => pure []
    return ⟨name, .fromString level, formatter, appenders⟩

/-- `LexicalCast<std::string, LogDefine>` -/
def LogDefine.ofText (load : String → Except LoadError Yaml) (v : String) :
    Except LoadError LogDefine := do
  LogDefine.ofYaml (← load v)

section Cast

/-- What is read of an appender. -/
def LogAppenderDefine.read (a : LogAppenderDefine) : LogAppenderDefine where
  type := a.type
  formatter := a.formatter
  file := match a.type with
    | .file => a.file
    | .stdout => ""

/-- The first entry of a key. -/
def findEntry (key : String) (entries : List (Yaml × Yaml)) : Option (Yaml × Yaml) :=
  entries.find? fun entry ↦ entry.1.isScalar key

variable {key : String} {front back : List (Yaml × Yaml)}

theorem get_map (key : String) (entries : List (Yaml × Yaml)) :
    (map entries).get key = .ok ((findEntry key entries).map Prod.snd) := rfl

theorem findEntry_append (key : String) (front back : List (Yaml × Yaml)) :
    findEntry key (front ++ back) = (findEntry key front).or (findEntry key back) :=
  List.find?_append

theorem findEntry_levelFields (h : key ≠ "level") (level : LogLevel) :
    findEntry key level.fields = none := by
  rw [LogLevel.fields]
  split
  · rfl
  · simp [findEntry, field, isScalar, Ne.symm h]

theorem findEntry_formatterFields (h : key ≠ "formatter") (formatter : String) :
    findEntry key (formatterFields formatter) = none := by
  rw [formatterFields]
  split
  · rfl
  · simp [findEntry, field, isScalar, Ne.symm h]

/-- The level is read back, also when it has not been written. -/
theorem getString_level (front back : List (Yaml × Yaml)) (hfront : findEntry "level" front = none)
    (hback : findEntry "level" back = none) (level : LogLevel) :
    ∃ str, (map (front ++ level.fields ++ back)).getString "level" = .ok str ∧
      LogLevel.fromString str = level := by
  rw [getString, get_map, findEntry_append, findEntry_append, hfront, hback, Option.none_or,
    Option.or_none, LogLevel.fields]
  split
  · rename_i hlevel
    exact ⟨"", rfl, hlevel.symm⟩
  · exact ⟨_, rfl, level.fromString_toString⟩

/-- The formatter is read back, also when it has not been written. -/
theorem getString_formatter (front back : List (Yaml × Yaml)) (hfront : findEntry "formatter" front = none)
    (hback : findEntry "formatter" back = none) (formatter : String) :
    (map (front ++ formatterFields formatter ++ back)).getString "formatter" = .ok formatter := by
  rw [getString, get_map, findEntry_append, findEntry_append, hfront, hback, Option.none_or,
    Option.or_none, formatterFields]
  split
  · rename_i hformatter
    rw [hformatter]
    rfl
  · rfl

/-- An appender is read back without its level, and without its file when it is none of a file. -/
theorem LogAppenderDefine.ofYaml_toYaml (a : LogAppenderDefine) :
    ofYaml a.toYaml = .ok (some a.read) := by
  obtain ⟨type, level, formatter, file⟩ := a
  have hformatter : ∀ front, findEntry "formatter" front = none →
      (map (front ++ level.fields ++ formatterFields formatter)).getString "formatter" =
        .ok formatter := by
    intro front hfront
    have hread := getString_formatter (front ++ level.fields) [] (by
      rw [findEntry_append, hfront, findEntry_levelFields (by decide), Option.none_or]) rfl
      formatter
    rwa [List.append_nil] at hread
  cases type with
  | file =>
    rw [ofYaml, toYaml, hformatter _ rfl]
    rfl
  | stdout =>
    rw [ofYaml, toYaml, hformatter _ rfl]
    rfl

theorem LogAppenderDefine.ofItems_map (appenders : List LogAppenderDefine) :
    ofItems (appenders.map toYaml) = .ok (appenders.map read) := by
  induction appenders with
  | nil => rfl
  | cons a appenders ih =>
    rw [List.map_cons, ofItems, ofYaml_toYaml, ih]
    rfl

theorem LogAppenderDefine.read_eq_iff (a : LogAppenderDefine) :
    a.read = a ↔ a.level = .unknow ∧ (a.type = .stdout → a.file = "") := by
  obtain ⟨type, level, formatter, file⟩ := a
  cases type with
  | file => simp [read, eq_comm]
  | stdout => simp [read, eq_comm]

/-- A definition is read back with what is read of its appenders. -/
theorem LogDefine.ofYaml_toYaml (i : LogDefine) :
    ofYaml i.toYaml = .ok { i with appenders := i.appenders.map LogAppenderDefine.read } := by
  obtain ⟨name, level, formatter, appenders⟩ := i
  set apps : List (Yaml × Yaml) := if appenders = [] then []
    else [(scalar "appenders", Yaml.sequence (appenders.map LogAppenderDefine.toYaml))] with happs
  have hother : ∀ key, key ≠ "appenders" → findEntry key apps = none := by
    intro key hkey
    rw [happs]
    split
    · rfl
    · simp [findEntry, isScalar, Ne.symm hkey]
  obtain ⟨str, hlevel, hstr⟩ := getString_level [field "name" name]
    (formatterFields formatter ++ apps) rfl (by
      rw [findEntry_append, findEntry_formatterFields (by decide), hother _ (by decide)]
      rfl) level
  have hformatter := getString_formatter ([field "name" name] ++ level.fields)
    apps (by
      rw [findEntry_append, findEntry_levelFields (by decide)]
      rfl) (hother _ (by decide)) formatter
  rw [← List.append_assoc] at hlevel
  have hyaml : toYaml ⟨name, level, formatter, appenders⟩ =
      map ([field "name" name] ++ level.fields ++ formatterFields formatter ++ apps) := rfl
  have hname : (map ([field "name" name] ++ level.fields ++ formatterFields formatter ++
      apps)).get "name" = .ok (some (scalar name)) := rfl
  have happenders : (map ([field "name" name] ++ level.fields ++ formatterFields formatter ++
      apps)).get "appenders" = .ok (if appenders = [] then none
        else some (Yaml.sequence (appenders.map LogAppenderDefine.toYaml))) := by
    rw [get_map, findEntry_append, findEntry_append, findEntry_append,
      findEntry_levelFields (by decide), findEntry_formatterFields (by decide), happs]
    split
    · rfl
    · rfl
  rw [hyaml, ofYaml, hname, hlevel, hformatter, happenders]
  simp only [bind, Except.bind, pure, Except.pure, asString, hstr]
  by_cases hnil : appenders = []
  · rw [hnil]
    rfl
  · rw [if_neg hnil]
    simp only [items, LogAppenderDefine.ofItems_map]

end Cast

/-- A definition comes back as it was exactly when no appender has a level and no appender for the
standard output has a file, given that the library reads its node as it was written. -/
theorem logDefineCast (emit : Yaml → String) (load : String → Except LoadError Yaml)
    (d : LogDefine) (hyaml : load (emit d.toYaml) = .ok d.toYaml) :
    LogDefine.ofText load (d.toText emit) = .ok d ↔
      ∀ a ∈ d.appenders, a.level = .unknow ∧ (a.type = .stdout → a.file = "") := by
  have hread : LogDefine.ofText load (d.toText emit) =
      .ok { d with appenders := d.appenders.map LogAppenderDefine.read } := by
    rw [LogDefine.ofText, LogDefine.toText, hyaml]
    exact d.ofYaml_toYaml
  have happenders : d.appenders.map LogAppenderDefine.read = d.appenders ↔
      ∀ a ∈ d.appenders, a.level = .unknow ∧ (a.type = .stdout → a.file = "") := by
    have hid := List.map_inj_left (l := d.appenders) (f := LogAppenderDefine.read) (g := id)
    rw [List.map_id] at hid
    exact hid.trans (forall₂_congr fun a _ ↦ a.read_eq_iff)
  rw [hread, ← happenders]
  constructor
  · intro heq
    exact congrArg LogDefine.appenders (Except.ok.inj heq)
  · intro heq
    rw [heq]

/-- Two appenders without levels. -/
def rootDefine : LogDefine where
  name := "root"
  level := .info
  appenders := [{ type := .file, file := "root.log" }, { type := .stdout }]

def rootText : String :=
  "name: root\nlevel: INFO\nappenders:\n  - type: FileLogAppender\n    file: root.log\n" ++
    "  - type: StdoutLogAppender"

theorem logDefineCast_root :
    LogDefine.ofText (fun v ↦ if v = rootText then .ok rootDefine.toYaml else .error .parser)
      (rootDefine.toText fun _ ↦ rootText) = .ok rootDefine :=
  (logDefineCast (fun _ ↦ rootText)
    (fun v ↦ if v = rootText then .ok rootDefine.toYaml else .error .parser) rootDefine
    (if_pos rfl)).mpr (by decide)

/-- An appender for errors only. -/
def errorDefine : LogDefine where
  name := "root"
  appenders := [{ type := .stdout, level := .error }]

/-- Its level is lost. -/
theorem not_logDefineCast_level : ¬ ∀ (emit : Yaml → String)
    (load : String → Except LoadError Yaml) (d : LogDefine),
      load (emit d.toYaml) = .ok d.toYaml → LogDefine.ofText load (d.toText emit) = .ok d := by
  intro h
  have hcast := h (fun _ ↦ "") (fun _ ↦ .ok errorDefine.toYaml) errorDefine rfl
  have hread : LogDefine.ofYaml errorDefine.toYaml = .ok errorDefine := hcast
  rw [errorDefine.ofYaml_toYaml] at hread
  exact absurd (Except.ok.inj hread) (by decide)

end Rsylar
