import Mathlib.Data.List.Induction
import Rsylar.Sylar.LogConfig

/-!
# What a history of the configuration leaves behind

After any history a logger that has a definition is what the definition makes of the last pattern
its name was given (`LogInv`). So two histories that end in the same definitions leave a logger in
the same state exactly when its definition has a pattern that can be used or they gave its name the
same one last.
-/

set_option autoImplicit false
set_option relaxedAutoImplicit false

namespace Rsylar

open OrderedSet

/-! ### The pattern of a logger -/

/-- The pattern of the definition, when it is there and has no error. -/
def LogDefine.pattern (d : LogDefine) : Option String :=
  if d.formatter ≠ "" ∧ ¬LogFormatter.isError d.formatter then some d.formatter else none

def LogDefines.pattern (v : LogDefines) (name : String) : Option String :=
  (find LogDefine.name name v.defines).bind LogDefine.pattern

/-- The last pattern that a history gives to a name. -/
def lastPattern (m : LoggerManager) (history : List LogDefines) (name : String) : String :=
  history.foldl (fun pattern v ↦ (v.pattern name).getD pattern) (m.getLogger name).formatter

/-- The logger that a definition makes, with a given pattern. -/
def Logger.ofDefine (daemon : Bool) (d : LogDefine) (pattern : String) : Logger where
  level := d.level
  formatter := pattern
  appenders := d.appenders.filterMap fun a ↦ (a.appender daemon).map fun ap ↦
    if ap.formatter.isNone then { ap with formatter := some pattern } else ap

theorem lastPattern_concat (m : LoggerManager) (history : List LogDefines) (v : LogDefines)
    (name : String) :
    lastPattern m (history ++ [v]) name = (v.pattern name).getD (lastPattern m history name) :=
  List.foldl_concat ..

theorem LogDefines.pattern_of_mem {v : LogDefines} {d : LogDefine} (h : d ∈ v.defines) :
    v.pattern d.name = d.pattern := by
  rw [LogDefines.pattern, find_of_mem v.sorted h]
  rfl

theorem addAppenders_eq (daemon : Bool) (as : List LogAppenderDefine) (l : Logger) :
    (as.foldl (fun l a ↦ match a.appender daemon with
      | some ap => l.addAppender ap
      | none => l) l) =
    { l with
      appenders := l.appenders ++ as.filterMap fun a ↦ (a.appender daemon).map fun ap ↦
        if ap.formatter.isNone then { ap with formatter := some l.formatter } else ap } := by
  induction as generalizing l with
  | nil => simp
  | cons a as ih =>
    rw [List.foldl_cons, ih]
    cases ha : a.appender daemon with
    | none => simp [ha]
    | some ap => simp [ha, Logger.addAppender]

/-- A definition sets everything but a pattern it does not have. -/
theorem LogDefine.configure_eq (d : LogDefine) (daemon : Bool) (l : Logger) :
    d.configure daemon l = Logger.ofDefine daemon d (d.pattern.getD l.formatter) := by
  refine (addAppenders_eq daemon d.appenders _).trans ?_
  by_cases hempty : d.formatter = ""
  · simp [hempty, LogDefine.pattern, Logger.ofDefine, Logger.setLevel, Logger.clearAppenders]
  · by_cases herror : LogFormatter.isError d.formatter
    · simp [hempty, herror, LogDefine.pattern, Logger.ofDefine, Logger.setLevel,
        Logger.clearAppenders, Logger.setFormatter]
    · simp [hempty, herror, LogDefine.pattern, Logger.ofDefine, Logger.setLevel,
        Logger.clearAppenders, Logger.setFormatter]

/-! ### One change -/

namespace LoggerManager

theorem getLogger_setLogger (m : LoggerManager) (name name' : String) (l : Logger) :
    (m.setLogger name l).getLogger name' = if name' = name then l else m.getLogger name' := by
  by_cases h : name' = name
  · subst h
    simp [getLogger, setLogger]
  · simp [getLogger, setLogger, h]

/-- A loop over definitions that does one thing to the logger of each. -/
theorem getLogger_foldl {g : LoggerManager → LogDefine → LoggerManager}
    {f : LogDefine → Logger → Logger}
    (hg : ∀ m i name, (g m i).getLogger name =
      if name = i.name then f i (m.getLogger name) else m.getLogger name)
    {defines : List LogDefine} (hs : Sorted LogDefine.name defines) (m : LoggerManager)
    (name : String) : (defines.foldl g m).getLogger name =
      match find LogDefine.name name defines with
      | some i => f i (m.getLogger name)
      | none => m.getLogger name := by
  induction defines generalizing m with
  | nil => rfl
  | cons i defines ih =>
    have htail : Sorted LogDefine.name defines := hs.sublist (List.sublist_cons_self i defines)
    rw [List.foldl_cons, ih htail, find_cons hs, hg]
    by_cases hname : i.name = name
    · have hnone : find LogDefine.name name defines = none := by
        refine OrderedSet.find_eq_none (fun d hd ↦ ?_) htail
        have hlt : i.name < d.name := List.rel_of_pairwise_cons hs hd
        exact (hname ▸ hlt).ne'
      simp [hname, hnone]
    · simp [hname, Ne.symm hname]

theorem getLogger_onChange (daemon : Bool) (m : LoggerManager) (old new : LogDefines)
    (name : String) : (m.onChange daemon old new).getLogger name =
      match find LogDefine.name name new.defines with
      | some d =>
        if find LogDefine.name name old.defines = some d then m.getLogger name
        else d.configure daemon (m.getLogger name)
      | none =>
        if (find LogDefine.name name old.defines).isSome then LogDefine.remove (m.getLogger name)
        else m.getLogger name := by
  have hconfigure : ∀ (m : LoggerManager) (i : LogDefine) (name : String),
      (m.configure daemon old i).getLogger name = if name = i.name then
        (if find LogDefine.name i.name old.defines = some i then id else i.configure daemon)
          (m.getLogger name)
      else m.getLogger name := by
    intro m i name
    unfold configure
    split
    · simp
    · rw [getLogger_setLogger]
      split
      · rename_i heq
        rw [heq]
      · rfl
  have hremove : ∀ (m : LoggerManager) (i : LogDefine) (name : String),
      (remove new m i).getLogger name = if name = i.name then
        (if (find LogDefine.name i.name new.defines).isNone then LogDefine.remove else id)
          (m.getLogger name)
      else m.getLogger name := by
    intro m i name
    unfold remove
    split
    · rw [getLogger_setLogger]
      split
      · rename_i heq
        rw [heq]
      · rfl
    · simp
  rw [onChange, getLogger_foldl hremove old.sorted, getLogger_foldl hconfigure new.sorted]
  cases hnew : find LogDefine.name name new.defines with
  | some d =>
    have hd := key_of_find new.sorted hnew
    cases hold : find LogDefine.name name old.defines with
    | some i =>
      have hi := key_of_find old.sorted hold
      by_cases heq : i = d <;> simp [hd, hi, hnew, hold, heq]
    | none => simp [hd, hold]
  | none =>
    cases hold : find LogDefine.name name old.defines with
    | some i =>
      have hi := key_of_find old.sorted hold
      simp [hi, hnew]
    | none => simp

end LoggerManager

/-! ### Histories -/

/-- What is true of the loggers after a history. -/
structure LogInv (daemon : Bool) (m : LoggerManager) (history : List LogDefines) (s : LogSystem) :
    Prop where
  formatter : ∀ name, (s.manager.getLogger name).formatter = lastPattern m history name
  logger : ∀ d ∈ s.logs.defines,
    s.manager.getLogger d.name = Logger.ofDefine daemon d (lastPattern m history d.name)
  pattern : ∀ d ∈ s.logs.defines,
    d.pattern.getD (lastPattern m history d.name) = lastPattern m history d.name

namespace LogInv

variable {daemon : Bool} {m : LoggerManager} {history : List LogDefines} {s : LogSystem}

theorem initial (daemon : Bool) (m : LoggerManager) : LogInv daemon m [] { manager := m } where
  formatter := fun _ ↦ rfl
  logger := fun d hd ↦ by cases hd
  pattern := fun d hd ↦ by cases hd

theorem setValue (h : LogInv daemon m history s) (v : LogDefines) :
    LogInv daemon m (history ++ [v]) (s.setValue daemon v) := by
  unfold LogSystem.setValue
  split
  · -- the value has not changed, and neither has any pattern
    rename_i heq
    have hsame : ∀ name, lastPattern m (history ++ [v]) name = lastPattern m history name := by
      intro name
      rw [lastPattern_concat, LogDefines.pattern]
      cases hd : find LogDefine.name name v.defines with
      | none => rfl
      | some d =>
        have hmem : d ∈ s.logs.defines := heq ▸ (mem_of_find hd).1
        have hname := key_of_find v.sorted hd
        exact hname ▸ h.pattern d hmem
    exact ⟨fun name ↦ (h.formatter name).trans (hsame name).symm,
      fun d hd ↦ by rw [h.logger d hd, hsame], fun d hd ↦ by rw [hsame, h.pattern d hd]⟩
  · -- a definition that has not changed has left its pattern to its name before
    have hold : ∀ {name : String} {d : LogDefine},
        find LogDefine.name name s.logs.defines = some d → d ∈ s.logs.defines ∧ d.name = name :=
      fun hfind ↦ ⟨(mem_of_find hfind).1, key_of_find s.logs.sorted hfind⟩
    refine ⟨fun name ↦ ?_, fun d hd ↦ ?_, fun d hd ↦ ?_⟩
    · rw [LoggerManager.getLogger_onChange, lastPattern_concat, LogDefines.pattern]
      cases hnew : find LogDefine.name name v.defines with
      | some d =>
        by_cases hsame : find LogDefine.name name s.logs.defines = some d
        · obtain ⟨hmem, hname⟩ := hold hsame
          subst hname
          simp [hsame, h.formatter, h.pattern d hmem]
        · simp [hsame, LogDefine.configure_eq, Logger.ofDefine, h.formatter]
      | none =>
        rw [← h.formatter name]
        simp only [Option.bind_none, Option.getD_none]
        split <;> rfl
    · have hnew : find LogDefine.name d.name v.defines = some d := find_of_mem v.sorted hd
      rw [LoggerManager.getLogger_onChange, lastPattern_concat, LogDefines.pattern_of_mem hd]
      by_cases hsame : find LogDefine.name d.name s.logs.defines = some d
      · obtain ⟨hmem, -⟩ := hold hsame
        simp [hnew, hsame, h.logger d hmem, h.pattern d hmem]
      · simp [hnew, hsame, LogDefine.configure_eq, h.formatter]
    · rw [lastPattern_concat, LogDefines.pattern_of_mem hd]
      cases d.pattern <;> rfl

theorem after (daemon : Bool) (m : LoggerManager) (history : List LogDefines) :
    LogInv daemon m history (LogSystem.after daemon m history) := by
  induction history using List.reverseRecOn with
  | nil => exact initial daemon m
  | append_singleton history v ih =>
    rw [LogSystem.after, List.foldl_concat]
    exact ih.setValue v

end LogInv

/-- The loggers of a definition after two histories that end in the same value are the same exactly
when the definition has a pattern without an error, or the histories gave the same one to its name
before. -/
theorem logHistory (daemon : Bool) (m : LoggerManager) (history₁ history₂ : List LogDefines)
    (v : LogDefines) : ∀ d ∈ v.defines,
      (LogSystem.after daemon m (history₁ ++ [v])).manager.getLogger d.name =
          (LogSystem.after daemon m (history₂ ++ [v])).manager.getLogger d.name ↔
        d.pattern.isSome ∨ lastPattern m history₁ d.name = lastPattern m history₂ d.name := by
  intro d hd
  have hlogs : ∀ history : List LogDefines,
      (LogSystem.after daemon m (history ++ [v])).logs = v := by
    intro history
    rw [LogSystem.after, List.foldl_concat, LogSystem.setValue]
    split
    · rename_i heq
      exact heq.symm
    · rfl
  have hlogger : ∀ history : List LogDefines,
      (LogSystem.after daemon m (history ++ [v])).manager.getLogger d.name =
        Logger.ofDefine daemon d (d.pattern.getD (lastPattern m history d.name)) := by
    intro history
    have h := (LogInv.after daemon m (history ++ [v])).logger d ((hlogs history).symm ▸ hd)
    rwa [lastPattern_concat, LogDefines.pattern_of_mem hd] at h
  rw [hlogger, hlogger]
  constructor
  · intro heq
    have hpattern := congrArg Logger.formatter heq
    cases hd : d.pattern with
    | some pattern => exact .inl rfl
    | none => exact .inr (by simpa [Logger.ofDefine, hd] using hpattern)
  · rintro (hsome | hlast)
    · obtain ⟨pattern, hpattern⟩ := Option.isSome_iff_exists.mp hsome
      simp [hpattern]
    · rw [hlast]

/-- The logger `system` with its own pattern, and with none. -/
def systemWithPattern : LogDefines where
  defines := [{ name := "system", formatter := "%d%T%m%n", appenders := [{ type := .stdout }] }]
  sorted := List.pairwise_singleton ..

def systemWithoutPattern : LogDefines where
  defines := [{ name := "system", appenders := [{ type := .stdout }] }]
  sorted := List.pairwise_singleton ..

/-- A definition with a pattern gives the same logger after any other definition. -/
theorem logHistory_ownPattern :
    (LogSystem.after false .create [systemWithoutPattern, systemWithPattern]).manager.getLogger
        "system" =
      (LogSystem.after false .create [systemWithPattern]).manager.getLogger "system" :=
  (logHistory false .create [systemWithoutPattern] [] systemWithPattern _
    (List.mem_singleton_self _)).mpr (.inl (by decide +kernel))

/-- The pattern of the former definition is still there, also after the logger has been removed. -/
theorem logHistory_formerPattern :
    ((LogSystem.after false .create [systemWithoutPattern]).manager.getLogger "system").formatter =
        defaultPattern ∧
      ((LogSystem.after false .create
        [systemWithPattern, systemWithoutPattern]).manager.getLogger "system").formatter =
        "%d%T%m%n" ∧
      ((LogSystem.after false .create
        [systemWithPattern, {}, systemWithoutPattern]).manager.getLogger "system").formatter =
        "%d%T%m%n" := by
  decide +kernel

end Rsylar
