import Mathlib.Data.List.Nodup
import CIM.Log.LogConfig

/-!
# What a configuration leaves of the one before

The level and the appenders of a logger are written by every configuration that has the logger.
Its formatter and the rotation of a file are written only where the configuration says something
about them; then they are what the last one that did has said.
-/
namespace CIM

namespace LogAppenderDefine

/-- Without a formatter of its own the appender takes that of the logger. -/
def appender (j : LogAppenderDefine) (i : LogDefine) (formatter : String) : LogAppender where
  output := if j.type = 1 then .file j.path else .stdout
  m_level := if j.level ≠ .UNKNOWN then j.level else i.level
  m_formatter := some (if j.formatter = "" then formatter else j.formatter)

/-- The appender is for the file, and says how it is rotated. -/
def Rotates (j : LogAppenderDefine) (path : String) : Prop :=
  j.type = 1 ∧ j.path = path ∧ j.rotateType ≠ .NONE

instance (j : LogAppenderDefine) (path : String) : Decidable (j.Rotates path) :=
  inferInstanceAs (Decidable (_ ∧ _))

def rotated (path : String) (f : LogFile) (j : LogAppenderDefine) : LogFile :=
  if j.Rotates path then ⟨j.rotateType, j.maxFileSize⟩ else f

structure Valid (j : LogAppenderDefine) : Prop where
  type : j.type = 1 ∨ j.type = 2
  path : j.type = 1 → j.path ≠ ""
  formatter : j.formatter = "" ∨ LogFormatter.valid j.formatter = true

end LogAppenderDefine

namespace LogDefine

def logger (i : LogDefine) (formatter : String) : Logger where
  m_level := i.level
  m_formatter := if i.formatter = "" then formatter else i.formatter
  m_appenders := i.appenders.map fun j =>
    j.appender i (if i.formatter = "" then formatter else i.formatter)

structure Valid (i : LogDefine) : Prop where
  name : i.name ≠ ""
  level : i.level ≠ .UNKNOWN
  formatter : i.formatter = "" ∨ LogFormatter.valid i.formatter = true
  appenders : ∀ j ∈ i.appenders, j.Valid

end LogDefine

theorem LogFormatter.valid_iff {pattern : String} :
    valid pattern = true ↔ pattern ≠ "" ∧ isError pattern.toList = false := by
  simp only [valid, Bool.and_eq_true, bne_iff_ne, Bool.not_eq_true']

namespace Logs

variable {w : Logs} {i : LogDefine} {j : LogAppenderDefine} {name path : String}

/-! ## The two maps -/

@[simp]
theorem getLogger_self (l : Logger) : (w.setLogger name l).getLogger name = l := by
  change (Function.update w.m_loggers name (some l) name).getD .new = l
  rw [Function.update_self]
  rfl

theorem getLogger_other (l : Logger) {n : String} (h : n ≠ name) :
    (w.setLogger name l).getLogger n = w.getLogger n := by
  change (Function.update w.m_loggers name (some l) n).getD .new = _
  rw [Function.update_of_ne h]
  rfl

@[simp]
theorem getLogFile_setLogger (l : Logger) :
    (w.setLogger name l).getLogFile path = w.getLogFile path := rfl

@[simp]
theorem getLogger_setLogFile (f : LogFile) :
    (w.setLogFile path f).getLogger name = w.getLogger name := rfl

theorem getLogFile_setLogFile (f : LogFile) {p : String} :
    (w.setLogFile path f).getLogFile p = if p = path then f else w.getLogFile p := by
  change (Function.update w.m_logs path (some f) p).getD .new = _
  by_cases hp : p = path
  · rw [hp, Function.update_self, if_pos rfl]
    rfl
  · rw [Function.update_of_ne hp, if_neg hp]
    rfl

/-! ## The turns of the listener -/

theorem rotate_spec (output : Output) :
    (∀ n, (w.rotate output j).getLogger n = w.getLogger n) ∧
      ∀ p, (w.rotate output j).getLogFile p =
        if output = .file p ∧ j.rotateType ≠ .NONE then ⟨j.rotateType, j.maxFileSize⟩
        else w.getLogFile p := by
  unfold rotate
  by_cases hr : j.rotateType = .NONE
  · rw [if_pos hr]
    exact ⟨fun _ => rfl, fun p => (if_neg fun h => h.2 hr).symm⟩
  rw [if_neg hr]
  cases output with
  | stdout => exact ⟨fun _ => rfl, fun p => (if_neg fun h => nomatch h.1).symm⟩
  | file path =>
      refine ⟨fun _ => rfl, fun p => ?_⟩
      dsimp only
      rw [getLogFile_setLogFile]
      by_cases hp : p = path
      · rw [if_pos hp, if_pos ⟨congrArg Output.file hp.symm, hr⟩]
      · rw [if_neg hp, if_neg]
        rintro ⟨h, -⟩
        cases h
        exact hp rfl

theorem makeAppender_spec (hj : j.Valid) : ∃ w', w.makeAppender j =
    some (⟨if j.type = 1 then .file j.path else .stdout, .DEBUG, none⟩, w') ∧
      (∀ n, w'.getLogger n = w.getLogger n) ∧ ∀ p, w'.getLogFile p = w.getLogFile p := by
  unfold makeAppender
  by_cases ht : j.type = 1
  · rw [if_pos ht, if_pos ht, if_neg (hj.path ht)]
    refine ⟨_, rfl, fun _ => rfl, fun p => ?_⟩
    rw [getLogFile_setLogFile]
    by_cases hp : p = j.path
    · rw [if_pos hp, hp]
    · rw [if_neg hp]
  · rw [if_neg ht, if_neg ht, if_pos (hj.type.resolve_left ht)]
    exact ⟨_, rfl, fun _ => rfl, fun _ => rfl⟩

/-- What the appender has got before it is added. -/
theorem append_eq (hi : i.level ≠ .UNKNOWN) {ap : LogAppender} {w' : Logs}
    (hmake : w.makeAppender j = some (ap, w')) : w.append i j =
      some ((w'.rotate ap.output j).setLogger i.name
        (((w'.rotate ap.output j).getLogger i.name).addAppender
          { ap with
            m_level := if j.level ≠ .UNKNOWN then j.level else i.level
            m_formatter :=
              if LogFormatter.valid j.formatter then some j.formatter else ap.m_formatter })) := by
  have hlevel : (if j.level ≠ .UNKNOWN then j.level else i.level) ≠ .UNKNOWN := by
    split
    · assumption
    · exact hi
  have hset : ap.setLevel (if j.level ≠ .UNKNOWN then j.level else i.level) =
      some { ap with m_level := if j.level ≠ .UNKNOWN then j.level else i.level } := if_neg hlevel
  rw [append, hmake]
  change (ap.setLevel _).bind _ = _
  rw [hset, Option.bind_some]
  by_cases hv : LogFormatter.valid j.formatter = true
  · simp only [if_pos hv]
  · simp only [if_neg hv]

/-- One appender: it is the last of its logger, and its file is rotated as it says. -/
theorem append_spec (hi : i.level ≠ .UNKNOWN) (hj : j.Valid) : ∃ w', w.append i j = some w' ∧
    w'.getLogger i.name = { w.getLogger i.name with
      m_appenders := (w.getLogger i.name).m_appenders ++
        [j.appender i (w.getLogger i.name).m_formatter] } ∧
    (∀ n, n ≠ i.name → w'.getLogger n = w.getLogger n) ∧
    ∀ p, w'.getLogFile p = j.rotated p (w.getLogFile p) := by
  obtain ⟨w₁, hmake, hlogger, hfile⟩ := makeAppender_spec (w := w) hj
  obtain ⟨hlogger', hfile'⟩ :=
    rotate_spec (w := w₁) (j := j) (if j.type = 1 then .file j.path else .stdout)
  refine ⟨_, append_eq hi hmake, ?_, ?_, ?_⟩
  · rw [getLogger_self, hlogger', hlogger]
    have hformatter : (if LogFormatter.valid j.formatter then some j.formatter else none).getD
        (w.getLogger i.name).m_formatter =
          if j.formatter = "" then (w.getLogger i.name).m_formatter else j.formatter := by
      rcases hj.formatter with he | hv
      · rw [if_pos he, he]
        rfl
      · rw [if_pos hv, if_neg (LogFormatter.valid_iff.mp hv).1]
        rfl
    unfold Logger.addAppender LogAppenderDefine.appender
    rw [hformatter]
  · intro n hn
    rw [getLogger_other _ hn, hlogger', hlogger]
  · intro p
    rw [getLogFile_setLogger, hfile', hfile]
    unfold LogAppenderDefine.rotated
    refine if_congr ?_ rfl rfl
    unfold LogAppenderDefine.Rotates
    by_cases ht : j.type = 1
    · rw [if_pos ht]
      constructor
      · rintro ⟨ho, hr⟩
        cases ho
        exact ⟨ht, rfl, hr⟩
      · rintro ⟨-, rfl, hr⟩
        exact ⟨rfl, hr⟩
    · rw [if_neg ht]
      exact ⟨fun h => (nomatch h.1), fun h => absurd h.1 ht⟩

theorem appends_spec (hi : i.level ≠ .UNKNOWN) {l : List LogAppenderDefine}
    (hl : ∀ j ∈ l, j.Valid) : ∃ w', l.foldlM (append i) w = some w' ∧
    w'.getLogger i.name = { w.getLogger i.name with
      m_appenders := (w.getLogger i.name).m_appenders ++
        l.map fun j => j.appender i (w.getLogger i.name).m_formatter } ∧
    (∀ n, n ≠ i.name → w'.getLogger n = w.getLogger n) ∧
    ∀ p, w'.getLogFile p = l.foldl (LogAppenderDefine.rotated p) (w.getLogFile p) := by
  induction l generalizing w with
  | nil => exact ⟨w, rfl, by rw [List.map_nil, List.append_nil], fun _ _ => rfl, fun _ => rfl⟩
  | cons j l ih =>
      obtain ⟨w₁, h₁, hlogger₁, hother₁, hfile₁⟩ :=
        append_spec (w := w) hi (hl j List.mem_cons_self)
      obtain ⟨w', h', hlogger', hother', hfile'⟩ :=
        ih (w := w₁) fun j hj => hl j (List.mem_cons_of_mem _ hj)
      refine ⟨w', ?_, ?_, ?_, ?_⟩
      · rw [List.foldlM_cons, h₁]
        exact h'
      · rw [hlogger', hlogger₁, List.map_cons, List.append_assoc]
        rfl
      · intro n hn
        rw [hother' n hn, hother₁ n hn]
      · intro p
        rw [hfile', hfile₁, List.foldl_cons]

/-- One logger: what it has is what the configuration says, and its old formatter where that says
nothing. -/
theorem define_spec (hi : i.Valid) : ∃ w', w.define i = some w' ∧
    w'.getLogger i.name = i.logger (w.getLogger i.name).m_formatter ∧
    (∀ n, n ≠ i.name → w'.getLogger n = w.getLogger n) ∧
    ∀ p, w'.getLogFile p = i.appenders.foldl (LogAppenderDefine.rotated p) (w.getLogFile p) := by
  have hset : (w.getLogger i.name).setLevel i.level =
      some { w.getLogger i.name with m_level := i.level } := if_neg hi.level
  have hdefine : w.define i = i.appenders.foldlM (append i) (w.setLogger i.name
      ⟨i.level, if i.formatter = "" then (w.getLogger i.name).m_formatter else i.formatter, []⟩) := by
    rw [define, if_neg hi.name, hset]
    simp only [Option.bind_eq_bind, Option.bind_some]
    rcases hi.formatter with he | hv
    · rw [if_pos he, if_pos he]
      rfl
    · obtain ⟨hne, herr⟩ := LogFormatter.valid_iff.mp hv
      rw [if_neg hne, if_neg hne, Logger.setFormatter, if_neg hne, herr]
      rfl
  rw [hdefine]
  obtain ⟨w', h', hlogger', hother', hfile'⟩ := appends_spec (w := w.setLogger i.name
    ⟨i.level, if i.formatter = "" then (w.getLogger i.name).m_formatter else i.formatter, []⟩)
    hi.level hi.appenders
  refine ⟨w', h', ?_, ?_, ?_⟩
  · rw [hlogger', getLogger_self]
    rfl
  · intro n hn
    rw [hother' n hn, getLogger_other _ hn]
  · intro p
    rw [hfile' p]
    rfl

/-- What all appenders of a configuration say about a file, in their order. -/
def rotations (l : List LogDefine) (path : String) (f : LogFile) : LogFile :=
  (l.flatMap LogDefine.appenders).foldl (LogAppenderDefine.rotated path) f

theorem defines_spec {l : List LogDefine} (hl : ∀ i ∈ l, i.Valid)
    (hnodup : (l.map LogDefine.name).Nodup) : ∃ w', l.foldlM define w = some w' ∧
    (∀ i ∈ l, w'.getLogger i.name = i.logger (w.getLogger i.name).m_formatter) ∧
    (∀ n, n ∉ l.map LogDefine.name → w'.getLogger n = w.getLogger n) ∧
    ∀ p, w'.getLogFile p = rotations l p (w.getLogFile p) := by
  induction l generalizing w with
  | nil => exact ⟨w, rfl, (fun i hi => nomatch hi), fun _ _ => rfl, fun _ => rfl⟩
  | cons i l ih =>
      rw [List.map_cons, List.nodup_cons] at hnodup
      obtain ⟨w₁, h₁, hlogger₁, hother₁, hfile₁⟩ := define_spec (w := w) (hl i List.mem_cons_self)
      obtain ⟨w', h', hlogger', hother', hfile'⟩ :=
        ih (w := w₁) (fun i hi => hl i (List.mem_cons_of_mem _ hi)) hnodup.2
      refine ⟨w', ?_, ?_, ?_, ?_⟩
      · rw [List.foldlM_cons, h₁]
        exact h'
      · intro d hd
        rcases List.mem_cons.mp hd with rfl | hd
        · rw [hother' _ hnodup.1, hlogger₁]
        · have hne : d.name ≠ i.name := by
            intro he
            rw [← he] at hnodup
            exact hnodup.1 (List.mem_map_of_mem hd)
          rw [hlogger' d hd, hother₁ _ hne]
      · intro n hn
        rw [List.map_cons, List.mem_cons, not_or] at hn
        rw [hother' n hn.2, hother₁ n hn.1]
      · intro p
        rw [hfile', hfile₁]
        unfold rotations
        rw [List.flatMap_cons, List.foldl_append]

/-! ## Rotation -/

theorem rotated_none {l : List LogAppenderDefine} (h : ∀ j ∈ l, ¬j.Rotates path) (f : LogFile) :
    l.foldl (LogAppenderDefine.rotated path) f = f := by
  induction l with
  | nil => rfl
  | cons j l ih =>
      rw [List.foldl_cons, LogAppenderDefine.rotated, if_neg (h j List.mem_cons_self)]
      exact ih fun j hj => h j (List.mem_cons_of_mem _ hj)

/-- The last appender that rotates the file decides, whatever the file was like. -/
theorem rotated_some {l : List LogAppenderDefine} (h : ∃ j ∈ l, j.Rotates path) :
    ∃ g : LogFile, g.m_rotateType ≠ .NONE ∧
      ∀ f, l.foldl (LogAppenderDefine.rotated path) f = g := by
  induction l with
  | nil =>
      obtain ⟨j, hj, -⟩ := h
      cases hj
  | cons j l ih =>
      by_cases hl : ∃ j ∈ l, j.Rotates path
      · obtain ⟨g, hg, hall⟩ := ih hl
        exact ⟨g, hg, fun f => by rw [List.foldl_cons, hall]⟩
      · have hj : j.Rotates path := by
          obtain ⟨j', hj', hr⟩ := h
          rcases List.mem_cons.mp hj' with rfl | hmem
          · exact hr
          · exact absurd ⟨j', hmem, hr⟩ hl
        refine ⟨⟨j.rotateType, j.maxFileSize⟩, hj.2.2, fun f => ?_⟩
        rw [List.foldl_cons, LogAppenderDefine.rotated, if_pos hj]
        exact rotated_none (fun j hj hr => hl ⟨j, hj, hr⟩) _

/-- Some appender of the configuration rotates the file. -/
def Rotates (l : List LogDefine) (path : String) : Prop :=
  ∃ i ∈ l, ∃ j ∈ i.appenders, j.Rotates path

theorem rotates_iff {l : List LogDefine} :
    Rotates l path ↔ ∃ j ∈ l.flatMap LogDefine.appenders, j.Rotates path := by
  constructor
  · rintro ⟨i, hi, j, hj, hr⟩
    exact ⟨j, List.mem_flatMap.mpr ⟨i, hi, hj⟩, hr⟩
  · rintro ⟨j, hj, hr⟩
    obtain ⟨i, hi, hj⟩ := List.mem_flatMap.mp hj
    exact ⟨i, hi, j, hj, hr⟩

/-- A second configuration hides the first exactly where it rotates the file itself, or the first
did not. -/
theorem rotations_iff {l₁ l₂ : List LogDefine} :
    rotations l₂ path (rotations l₁ path .new) = rotations l₂ path .new ↔
      (Rotates l₁ path → Rotates l₂ path) := by
  by_cases h₂ : Rotates l₂ path
  · obtain ⟨g, -, hall⟩ := rotated_some (rotates_iff.mp h₂)
    exact ⟨fun _ _ => h₂, fun _ => (hall _).trans (hall _).symm⟩
  · have hnone : ∀ f, rotations l₂ path f = f := by
      intro f
      exact rotated_none (fun j hj hr => h₂ (rotates_iff.mpr ⟨j, hj, hr⟩)) f
    rw [hnone, hnone]
    by_cases h₁ : Rotates l₁ path
    · obtain ⟨g, hg, hall⟩ := rotated_some (rotates_iff.mp h₁)
      constructor
      · intro he
        rw [show rotations l₁ path .new = g from hall .new] at he
        rw [he] at hg
        exact absurd rfl hg
      · intro h
        exact absurd (h h₁) h₂
    · have hnone₁ : rotations l₁ path .new = .new :=
        rotated_none (fun j hj hr => h₁ (rotates_iff.mpr ⟨j, hj, hr⟩)) _
      exact ⟨fun _ h => absurd h h₁, fun _ => hnone₁⟩

/-! ## Two configurations -/

/-- The rotation of the file an appender writes to. -/
def settings (w : Logs) (ap : LogAppender) : Option LogFile :=
  match ap.output with
  | .file path => some (w.getLogFile path)
  | .stdout => none

/-- What a configuration is to settle of a logger. -/
def view (w : Logs) (name : String) : Level × String × List (LogAppender × Option LogFile) :=
  let l := w.getLogger name
  (l.m_level, l.m_formatter, l.m_appenders.map fun ap => (ap, w.settings ap))

end Logs

namespace LogConfig

open Logs

variable {c c₁ c₂ : LogDefines} {s : LogConfig}

def Valid (c : LogDefines) : Prop := ∀ i ∈ c.val, i.Valid

def names (c : LogDefines) : List String := c.val.map LogDefine.name

theorem names_nodup (c : LogDefines) : (names c).Nodup := by
  refine List.pairwise_map.mpr (c.property.imp ?_)
  intro a b hlt he
  rw [he] at hlt
  exact String.lt_irrefl _ hlt

/-- The listener writes the new configuration where no logger is left out. -/
theorem setValue_spec (hv : Valid c) (hne : c ≠ s.var.m_val)
    (hnames : ∀ n ∈ names s.var.m_val, n ∈ names c) : ∃ s', s.setValue c = some s' ∧
    s'.var.m_val = c ∧
    (∀ i ∈ c.val, s'.logs.getLogger i.name = i.logger (s.logs.getLogger i.name).m_formatter) ∧
    ∀ p, s'.logs.getLogFile p = rotations c.val p (s.logs.getLogFile p) := by
  obtain ⟨w, hw, hlogger, -, hfile⟩ := defines_spec (w := s.logs) hv (names_nodup c)
  have hkept : (s.var.m_val.val.filter fun i => !c.val.any fun d => d.name == i.name) = [] := by
    refine List.filter_eq_nil_iff.mpr fun i hi => ?_
    obtain ⟨d, hd, he⟩ := List.mem_map.mp (hnames i.name (List.mem_map_of_mem hi))
    rw [Bool.not_eq_true, Bool.not_eq_false', List.any_eq_true]
    exact ⟨d, hd, beq_iff_eq.mpr he⟩
  have hchange : s.logs.onChange s.var.m_val.val c.val = some w := by
    rw [onChange, hw, hkept]
    rfl
  refine ⟨⟨{ s.var with m_val := c }, w⟩, ?_, rfl, hlogger, hfile⟩
  rw [LogConfig.setValue, ConfigVar.setValue, if_neg hne]
  change (s.logs.onChange s.var.m_val.val c.val).map _ = _
  rw [hchange]
  rfl

theorem setValue_same : s.setValue s.var.m_val = some s := by
  rw [LogConfig.setValue, ConfigVar.setValue, if_pos rfl]

theorem fresh_formatter (name : String) :
    (fresh.logs.getLogger name).m_formatter = Logger.defaultFormatter := by
  change ((Function.update (fun _ => none) "root" (some _) name).getD Logger.new).m_formatter = _
  by_cases hn : name = "root"
  · rw [hn, Function.update_self]
    rfl
  · rw [Function.update_of_ne hn]
    rfl

/-- The first configuration finds formatters and files as they are made. -/
theorem setValue_fresh (hv : Valid c) : ∃ s, fresh.setValue c = some s ∧ s.var.m_val = c ∧
    (∀ i ∈ c.val, s.logs.getLogger i.name = i.logger Logger.defaultFormatter) ∧
    ∀ p, s.logs.getLogFile p = rotations c.val p .new := by
  by_cases he : c = fresh.var.m_val
  · rw [he]
    exact ⟨fresh, setValue_same, rfl, (fun i hi => nomatch hi), fun _ => rfl⟩
  · obtain ⟨s, hs, hval, hlogger, hfile⟩ := setValue_spec hv he fun n hn => nomatch hn
    refine ⟨s, hs, hval, fun i hi => ?_, fun p => hfile p⟩
    rw [hlogger i hi, fresh_formatter]

/-- After `c₁` and `c₂` the loggers of `c₂` are as after `c₂` alone. -/
def HistoryIndependent (c₁ c₂ : LogDefines) : Prop :=
  ∃ s₁ s₁₂ s₂, fresh.setValue c₁ = some s₁ ∧ s₁.setValue c₂ = some s₁₂ ∧
    fresh.setValue c₂ = some s₂ ∧ ∀ n ∈ names c₂, s₁₂.logs.view n = s₂.logs.view n

/-- Where `c₁` gives a logger another formatter than the built-in one, `c₂` gives it one. -/
def Reformats (c₁ c₂ : LogDefines) : Prop :=
  ∀ d₁ ∈ c₁.val, ∀ d₂ ∈ c₂.val, d₁.name = d₂.name → d₂.formatter = "" →
    d₁.formatter = "" ∨ d₁.formatter = Logger.defaultFormatter

/-- A file that `c₂` logs to and `c₁` rotates is rotated by `c₂`. -/
def Rerotates (c₁ c₂ : LogDefines) : Prop :=
  ∀ d ∈ c₂.val, ∀ j ∈ d.appenders, j.type = 1 → Rotates c₁.val j.path → Rotates c₂.val j.path

theorem eq_of_name {d d' : LogDefine} (hd : d ∈ c.val) (hd' : d' ∈ c.val)
    (he : d.name = d'.name) : d = d' :=
  List.inj_on_of_nodup_map (names_nodup c) hd hd' he

/-- A logger that two worlds have given the same appenders looks the same in both if its files are
the same. -/
theorem view_iff {w w' : Logs} {d : LogDefine} {f f' : String}
    (hw : w.getLogger d.name = d.logger f) (hw' : w'.getLogger d.name = d.logger f') :
    w.view d.name = w'.view d.name ↔ (d.formatter = "" → f = f') ∧
      ∀ j ∈ d.appenders, j.type = 1 → w.getLogFile j.path = w'.getLogFile j.path := by
  unfold view
  rw [hw, hw']
  constructor
  · intro he
    obtain ⟨-, he⟩ := Prod.mk.inj he
    obtain ⟨hformatter, happenders⟩ := Prod.mk.inj he
    change (if d.formatter = "" then f else d.formatter) =
      (if d.formatter = "" then f' else d.formatter) at hformatter
    refine ⟨fun hd => ?_, fun j hj ht => ?_⟩
    · rw [if_pos hd, if_pos hd] at hformatter
      exact hformatter
    · change ((d.appenders.map fun j => j.appender d (if d.formatter = "" then f else d.formatter)).map
          fun ap => (ap, w.settings ap)) =
        (d.appenders.map fun j => j.appender d (if d.formatter = "" then f' else d.formatter)).map
          fun ap => (ap, w'.settings ap) at happenders
      rw [← hformatter, List.map_inj_left] at happenders
      have hpair := happenders _ (List.mem_map_of_mem hj)
      have hrotation := (Prod.mk.inj hpair).2
      unfold settings LogAppenderDefine.appender at hrotation
      rw [if_pos ht] at hrotation
      exact Option.some.inj hrotation
  · rintro ⟨hformatter, hfiles⟩
    have hlogger : d.logger f = d.logger f' := by
      unfold LogDefine.logger
      by_cases hd : d.formatter = ""
      · rw [hformatter hd]
      · rw [if_neg hd, if_neg hd]
    rw [hlogger]
    dsimp only
    have hall : ∀ ap ∈ (d.logger f').m_appenders, (ap, w.settings ap) = (ap, w'.settings ap) := by
      intro ap hap
      obtain ⟨j, hj, rfl⟩ := List.mem_map.mp hap
      refine congrArg _ ?_
      unfold settings LogAppenderDefine.appender
      by_cases ht : j.type = 1
      · rw [if_pos ht]
        exact congrArg some (hfiles j hj ht)
      · rw [if_neg ht]
    rw [List.map_inj_left.mpr hall]

/-- Exactly where the second configuration says again what the first has said, or the first has
said nothing else than what is built in, nothing is left of the first. -/
theorem historyIndependent_iff (h₁ : Valid c₁) (h₂ : Valid c₂)
    (hnames : ∀ n, n ∈ names c₁ ↔ n ∈ names c₂) :
    HistoryIndependent c₁ c₂ ↔ Reformats c₁ c₂ ∧ Rerotates c₁ c₂ := by
  obtain ⟨s₁, hs₁, hval₁, hlogger₁, hfile₁⟩ := setValue_fresh h₁
  obtain ⟨s₂, hs₂, hval₂, hlogger₂, hfile₂⟩ := setValue_fresh h₂
  by_cases hc : c₁ = c₂
  · cases hc
    -- The second call of `setValue` does not even call the listener.
    have hsame : s₁.setValue c₁ = some s₁ := by
      have hself : s₁.setValue s₁.var.m_val = some s₁ := setValue_same
      rwa [hval₁] at hself
    refine ⟨fun _ => ⟨?_, fun d hd j hj ht h => h⟩, fun _ => ⟨s₁, s₁, s₁, hs₁, hsame, hs₁,
      fun _ _ => rfl⟩⟩
    intro d₁ hd₁ d₂ hd₂ he hd
    rw [eq_of_name hd₁ hd₂ he]
    exact .inl hd
  · have hne : c₂ ≠ s₁.var.m_val := by
      rw [hval₁]
      exact Ne.symm hc
    obtain ⟨s₁₂, hs₁₂, -, hlogger, hfile⟩ := setValue_spec (s := s₁) h₂ hne (by
      rw [hval₁]
      exact fun n => (hnames n).mp)
    have hview : ∀ d₁ ∈ c₁.val, ∀ d₂ ∈ c₂.val, d₁.name = d₂.name →
        (s₁₂.logs.view d₂.name = s₂.logs.view d₂.name ↔
          (d₂.formatter = "" → d₁.formatter = "" ∨ d₁.formatter = Logger.defaultFormatter) ∧
          ∀ j ∈ d₂.appenders, j.type = 1 → Rotates c₁.val j.path → Rotates c₂.val j.path) := by
      intro d₁ hd₁ d₂ hd₂ he
      rw [view_iff (hlogger d₂ hd₂) (hlogger₂ d₂ hd₂), ← he, hlogger₁ d₁ hd₁]
      refine and_congr (imp_congr_right fun _ => ?_) ?_
      · change (if d₁.formatter = "" then Logger.defaultFormatter else d₁.formatter) = _ ↔ _
        by_cases hd : d₁.formatter = ""
        · rw [if_pos hd]
          exact ⟨fun _ => .inl hd, fun _ => rfl⟩
        · rw [if_neg hd]
          exact ⟨.inr, fun h => h.resolve_left hd⟩
      · refine forall_congr' fun j => imp_congr_right fun _ => imp_congr_right fun _ => ?_
        rw [hfile, hfile₁, hfile₂]
        exact rotations_iff
    constructor
    · rintro ⟨t₁, t₁₂, t₂, ht₁, ht₁₂, ht₂, hall⟩
      cases hs₁.symm.trans ht₁
      cases hs₁₂.symm.trans ht₁₂
      cases hs₂.symm.trans ht₂
      constructor
      · intro d₁ hd₁ d₂ hd₂ he
        exact ((hview d₁ hd₁ d₂ hd₂ he).mp (hall _ (List.mem_map_of_mem hd₂))).1
      · intro d₂ hd₂
        obtain ⟨d₁, hd₁, he⟩ := List.mem_map.mp ((hnames _).mpr (List.mem_map_of_mem hd₂))
        exact ((hview d₁ hd₁ d₂ hd₂ he).mp (hall _ (List.mem_map_of_mem hd₂))).2
    · rintro ⟨hformats, hrotates⟩
      refine ⟨s₁, s₁₂, s₂, hs₁, hs₁₂, hs₂, ?_⟩
      intro n hn
      obtain ⟨d₂, hd₂, rfl⟩ := List.mem_map.mp hn
      obtain ⟨d₁, hd₁, he⟩ := List.mem_map.mp ((hnames _).mpr hn)
      exact (hview d₁ hd₁ d₂ hd₂ he).mpr ⟨hformats d₁ hd₁ d₂ hd₂ he, hrotates d₂ hd₂⟩

/-- One logger with one file. -/
def oneLogger (formatter : String) (rotateType : RotateType) : LogDefines :=
  ⟨[⟨"system", .INFO, formatter, [⟨1, .UNKNOWN, "", "system.log", rotateType, 0⟩]⟩],
    List.pairwise_singleton _ _⟩

theorem oneLogger_valid (formatter : String) (rotateType : RotateType)
    (h : formatter = "" ∨ LogFormatter.valid formatter = true) :
    Valid (oneLogger formatter rotateType) := by
  have hname : "system" ≠ "" := by decide
  have hpath : "system.log" ≠ "" := by decide
  have hlevel : Level.INFO ≠ .UNKNOWN := by decide
  intro i hi
  cases List.mem_singleton.mp hi
  refine ⟨hname, hlevel, h, fun j hj => ?_⟩
  cases List.mem_singleton.mp hj
  exact ⟨.inl rfl, fun _ => hpath, .inl rfl⟩

/-- The second configuration has a formatter, and rotates the file otherwise. -/
theorem historyIndependent_new_rotation :
    HistoryIndependent (oneLogger "%m%n" .HOUR) (oneLogger "%p%m%n" .DAY) := by
  have h₁ := oneLogger_valid "%m%n" .HOUR (.inr (by decide))
  have h₂ := oneLogger_valid "%p%m%n" .DAY (.inr (by decide))
  refine (historyIndependent_iff h₁ h₂ fun _ => Iff.rfl).mpr ⟨?_, ?_⟩
  · intro d₁ _ d₂ hd₂ _ hd
    cases List.mem_singleton.mp hd₂
    exact absurd hd (by decide)
  · intro d hd j hj _ _
    cases List.mem_singleton.mp hd
    cases List.mem_singleton.mp hj
    exact ⟨_, List.mem_singleton_self _, _, List.mem_singleton_self _, rfl, rfl, by decide⟩

/-- The second configuration has no formatter and does not rotate: the logger keeps the formatter
of the first, and the file its rotation. -/
theorem first_is_left : Valid (oneLogger "%m%n" .HOUR) ∧ Valid (oneLogger "" .NONE) ∧
    names (oneLogger "%m%n" .HOUR) = names (oneLogger "" .NONE) ∧
    ¬HistoryIndependent (oneLogger "%m%n" .HOUR) (oneLogger "" .NONE) := by
  refine ⟨oneLogger_valid _ _ (.inr (by decide)), oneLogger_valid _ _ (.inl rfl), rfl, ?_⟩
  rintro ⟨s₁, s₁₂, s₂, hs₁, hs₁₂, hs₂, hall⟩
  cases hs₁
  cases hs₁₂
  cases hs₂
  have hview := hall "system" (List.mem_singleton_self _)
  exact absurd hview (by decide)

end LogConfig

end CIM
