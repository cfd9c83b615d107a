import Mathlib.Tactic.Common
import CIM.Log.LogConfig
import CIM.Util.Yaml

/-!
# Logger definitions as text

`LexicalCast` writes a `LogDefine` as a YAML map and reads one field by field; what is not defined
keeps its default.
-/
namespace CIM

open Yaml (Text)

namespace LogLevel

/-- `LogLevel::ToString`. -/
def toText : Level → String
  | .DEBUG => "DEBUG"
  | .INFO => "INFO"
  | .WARN => "WARN"
  | .ERROR => "ERROR"
  | .FATAL => "FATAL"
  | _ => "UNKNOWN"

/-- `LogLevel::FromString`. -/
def fromText (str : String) : Level :=
  if str = "debug" ∨ str = "Debug" ∨ str = "DEBUG" then .DEBUG
  else if str = "info" ∨ str = "Info" ∨ str = "INFO" then .INFO
  else if str = "warn" ∨ str = "Warn" ∨ str = "WARN" then .WARN
  else if str = "error" ∨ str = "Error" ∨ str = "ERROR" then .ERROR
  else if str = "fatal" ∨ str = "Fatal" ∨ str = "FATAL" then .FATAL
  else .UNKNOWN

end LogLevel

/-- `LogFile::rotateTypeToString`. -/
def rotateTypeToString : RotateType → String
  | .MINUTE => "MINUTE"
  | .HOUR => "HOUR"
  | .DAY => "DAY"
  | .SIZE => "SIZE"
  | .NONE => "None"

/-- `LogFile::rotateTypeFromString`. -/
def rotateTypeFromString (str : String) : RotateType :=
  if str = "minute" ∨ str = "Minute" ∨ str = "MINUTE" then .MINUTE
  else if str = "hour" ∨ str = "Hour" ∨ str = "HOUR" then .HOUR
  else if str = "day" ∨ str = "Day" ∨ str = "DAY" then .DAY
  else if str = "size" ∨ str = "Size" ∨ str = "SIZE" then .SIZE
  else .NONE

namespace LogDefine

/-! ## From a definition to a tree -/

def text (s : String) : Yaml.Node := .scalar s.toList

def typeMembers (type : Int) : List (Text × Yaml.Node) :=
  if type = 1 then [("type".toList, text "FileLogAppender")]
  else if type = 2 then [("type".toList, text "StdoutLogAppender")]
  else []

def sizeMembers (appender : LogAppenderDefine) : List (Text × Yaml.Node) :=
  if appender.rotateType = .SIZE ∧ 0 < appender.maxFileSize then
    [("max_size".toList, text (toString appender.maxFileSize.toNat))]
  else []

def appenderNode (appender : LogAppenderDefine) : Yaml.Node :=
  .map (typeMembers appender.type ++
    [("level".toList, text (LogLevel.toText appender.level)),
      ("formatter".toList, text appender.formatter), ("path".toList, text appender.path),
      ("rotate_type".toList, text (rotateTypeToString appender.rotateType))] ++
    sizeMembers appender)

/-- There is no sequence where nothing was pushed to it. -/
def toNode (val : LogDefine) : Yaml.Node :=
  .map ([("name".toList, text val.name), ("level".toList, text (LogLevel.toText val.level)),
    ("formatter".toList, text val.formatter)] ++
    if val.appenders = [] then []
    else [("appenders".toList, .sequence (val.appenders.map appenderNode))])

/-! ## From a tree to a definition -/

/-- `if (node[key].IsDefined()) field = f(node[key].as<std::string>());`. -/
def field {α : Type} (node : Yaml.Node) (key : String) (default : α) (f : String → Option α) :
    Option α :=
  match node.get key.toList with
  | none => some default
  | some n => n.asString.bind fun s => f (String.ofList s)

def readType (str : String) : Int :=
  if str = "FileLogAppender" then 1 else if str = "StdoutLogAppender" then 2 else 0

section Read

-- `as<uint64_t>()` on the text of a scalar.
variable (asUInt64 : String → Option UInt64)

def readAppender (node : Yaml.Node) : Option LogAppenderDefine := do
  let type ← field node "type" 0 fun s => some (readType s)
  let level ← field node "level" .UNKNOWN fun s => some (LogLevel.fromText s)
  let formatter ← field node "formatter" "" some
  let path ← field node "path" "" some
  let rotateType ← field node "rotate_type" .NONE fun s => some (rotateTypeFromString s)
  let maxFileSize ← field node "max_size" 0 asUInt64
  return ⟨type, level, formatter, path, rotateType, maxFileSize⟩

def readAppenders (node : Yaml.Node) : Option (List LogAppenderDefine) :=
  match node.get "appenders".toList with
  | some (.sequence items) => items.mapM (readAppender asUInt64)
  | _ => some []

def ofNode (node : Yaml.Node) : Option LogDefine := do
  let name ← field node "name" "" some
  let level ← field node "level" .UNKNOWN fun s => some (LogLevel.fromText s)
  let formatter ← field node "formatter" "" some
  let appenders ← readAppenders asUInt64 node
  return ⟨name, level, formatter, appenders⟩

end Read

/-! ## Round trip -/

/-- The level has a name, or is `UNKNOWN`. -/
def Known (level : Level) : Prop := level ≠ .off

/-- As `log.yaml` can define it. -/
structure Plain (val : LogDefine) : Prop where
  name : val.name ≠ ""
  level : Known val.level
  type : ∀ a ∈ val.appenders, a.type = 0 ∨ a.type = 1 ∨ a.type = 2
  levels : ∀ a ∈ val.appenders, Known a.level

/-- What is read of an appender that was written. -/
def kept (a : LogAppenderDefine) : LogAppenderDefine :=
  { a with maxFileSize := if a.rotateType = .SIZE then a.maxFileSize else 0 }

theorem level_back {level : Level} (h : Known level) :
    LogLevel.fromText (LogLevel.toText level) = level := by
  cases level with
  | off => exact absurd rfl h
  | _ => decide

theorem rotateType_back (type : RotateType) :
    rotateTypeFromString (rotateTypeToString type) = type := by
  cases type <;> decide

theorem field_text {α : Type} {node : Yaml.Node} {s : String} {default : α} {f : String → Option α}
    (key : String) (h : node.get key.toList = some (text s)) : field node key default f = f s := by
  rw [field, h]
  exact congrArg f String.ofList_toList

theorem field_none {α : Type} {node : Yaml.Node} {key : String} {default : α}
    {f : String → Option α} (h : node.get key.toList = none) :
    field node key default f = some default := by
  rw [field, h]

/-- The members that are always written. -/
def fixedMembers (a : LogAppenderDefine) : List (Text × Yaml.Node) :=
  [("level".toList, text (LogLevel.toText a.level)), ("formatter".toList, text a.formatter),
    ("path".toList, text a.path), ("rotate_type".toList, text (rotateTypeToString a.rotateType))]

theorem get_appenderNode (a : LogAppenderDefine) (key : Text) :
    (appenderNode a).get key = (((typeMembers a.type).find? fun m => m.1 = key).or
      (((fixedMembers a).find? fun m => m.1 = key).or
        ((sizeMembers a).find? fun m => m.1 = key))).map Prod.snd := by
  change (List.find? _ (typeMembers a.type ++ fixedMembers a ++ sizeMembers a)).map Prod.snd = _
  rw [List.find?_append, List.find?_append, Option.or_assoc]

theorem find_typeMembers (type : Int) {key : Text} (h : "type".toList ≠ key) :
    (typeMembers type).find? (fun m => m.1 = key) = none := by
  unfold typeMembers
  split
  · exact List.find?_cons_of_neg (by simpa using h)
  · split
    · exact List.find?_cons_of_neg (by simpa using h)
    · rfl

theorem get_fixed (a : LogAppenderDefine) {key : Text} {n : Yaml.Node} (h : "type".toList ≠ key)
    (hn : (fixedMembers a).find? (fun m => m.1 = key) = some (key, n)) :
    (appenderNode a).get key = some n := by
  rw [get_appenderNode, find_typeMembers a.type h, hn]
  rfl

theorem field_type {a : LogAppenderDefine} (h : a.type = 0 ∨ a.type = 1 ∨ a.type = 2) :
    field (appenderNode a) "type" 0 (fun s => some (readType s)) = some a.type := by
  rcases h with h | h | h
  · refine (field_none ?_).trans (congrArg some h.symm)
    rw [get_appenderNode, h]
    unfold sizeMembers
    split <;> rfl
  · refine (field_text "type" (s := "FileLogAppender") ?_).trans ?_
    · rw [get_appenderNode, h]
      rfl
    · rw [h]
      decide
  · refine (field_text "type" (s := "StdoutLogAppender") ?_).trans ?_
    · rw [get_appenderNode, h]
      rfl
    · rw [h]
      decide

section

variable {asUInt64 : String → Option UInt64}

theorem field_maxSize (hnum : ∀ n : UInt64, asUInt64 (toString n.toNat) = some n)
    (a : LogAppenderDefine) :
    field (appenderNode a) "max_size" 0 asUInt64 = some (kept a).maxFileSize := by
  have hget : (appenderNode a).get "max_size".toList =
      ((sizeMembers a).find? fun m => m.1 = "max_size".toList).map Prod.snd := by
    rw [get_appenderNode, find_typeMembers a.type (by decide)]
    rfl
  unfold sizeMembers at hget
  by_cases hsize : a.rotateType = .SIZE ∧ 0 < a.maxFileSize
  · rw [if_pos hsize] at hget
    rw [field_text "max_size" (s := toString a.maxFileSize.toNat) (hget.trans rfl), hnum, kept,
      if_pos hsize.1]
  · rw [if_neg hsize] at hget
    rw [field_none (hget.trans rfl), kept]
    refine congrArg some ?_
    split
    · rename_i hrotate
      refine (UInt64.le_zero_iff.mp (UInt64.not_lt.mp fun hpos => hsize ⟨hrotate, hpos⟩)).symm
    · rfl

theorem readAppender_appenderNode (hnum : ∀ n : UInt64, asUInt64 (toString n.toNat) = some n)
    {a : LogAppenderDefine} (htype : a.type = 0 ∨ a.type = 1 ∨ a.type = 2)
    (hlevel : Known a.level) : readAppender asUInt64 (appenderNode a) = some (kept a) := by
  rw [readAppender, field_type htype, field_maxSize hnum,
    field_text "level" (get_fixed a (by decide) rfl),
    field_text "formatter" (get_fixed a (by decide) rfl),
    field_text "path" (get_fixed a (by decide) rfl),
    field_text "rotate_type" (get_fixed a (by decide) rfl),
    level_back hlevel, rotateType_back]
  rfl

theorem readAppenders_map (hnum : ∀ n : UInt64, asUInt64 (toString n.toNat) = some n)
    (l : List LogAppenderDefine) (htype : ∀ a ∈ l, a.type = 0 ∨ a.type = 1 ∨ a.type = 2)
    (hlevel : ∀ a ∈ l, Known a.level) :
    (l.map appenderNode).mapM (readAppender asUInt64) = some (l.map kept) := by
  induction l with
  | nil => rfl
  | cons a l ih =>
      rw [List.forall_mem_cons] at htype hlevel
      rw [List.map_cons, List.mapM_cons, readAppender_appenderNode hnum htype.1 hlevel.1,
        ih htype.2 hlevel.2]
      rfl

theorem readAppenders_toNode (hnum : ∀ n : UInt64, asUInt64 (toString n.toNat) = some n)
    {val : LogDefine} (h : Plain val) :
    readAppenders asUInt64 (toNode val) = some (val.appenders.map kept) := by
  unfold readAppenders toNode
  by_cases hnil : val.appenders = []
  · rw [if_pos hnil, hnil]
    rfl
  · rw [if_neg hnil]
    exact readAppenders_map hnum val.appenders h.type h.levels

theorem ofNode_toNode (hnum : ∀ n : UInt64, asUInt64 (toString n.toNat) = some n)
    {val : LogDefine} (h : Plain val) : ofNode asUInt64 (toNode val) =
      some { val with appenders := val.appenders.map kept } := by
  have hread := readAppenders_toNode hnum h
  rw [ofNode, hread, field_text "name" (s := val.name) rfl,
    field_text "level" (s := LogLevel.toText val.level) rfl,
    field_text "formatter" (s := val.formatter) rfl, level_back h.level]
  rfl

theorem kept_iff (a : LogAppenderDefine) :
    kept a = a ↔ a.maxFileSize = 0 ∨ a.rotateType = .SIZE := by
  unfold kept
  split
  · rename_i hsize
    exact iff_of_true rfl (.inr hsize)
  · rename_i hsize
    rw [or_iff_left hsize]
    constructor
    · exact fun h => (congrArg LogAppenderDefine.maxFileSize h).symm
    · exact fun h => by rw [← h]

end

/-- A definition that is written and read again is the same exactly if the maximum file sizes that
are not zero are those of appenders that rotate by size. -/
theorem text_back_iff (emit : Yaml.Node → String) (load : String → Yaml.Node)
    (asUInt64 : String → Option UInt64) {val : LogDefine} (h : Plain val)
    (hyaml : load (emit (toNode val)) = toNode val)
    (hnum : ∀ n : UInt64, asUInt64 (toString n.toNat) = some n) :
    ofNode asUInt64 (load (emit (toNode val))) = some val ↔
      ∀ a ∈ val.appenders, a.maxFileSize = 0 ∨ a.rotateType = .SIZE := by
  rw [hyaml, ofNode_toNode hnum h, Option.some_inj]
  have hback : { val with appenders := val.appenders.map kept } = val ↔
      val.appenders.map kept = val.appenders :=
    ⟨congrArg LogDefine.appenders, fun h => by rw [h]⟩
  have hmap : val.appenders.map kept = val.appenders.map id ↔ ∀ a ∈ val.appenders, kept a = id a :=
    List.map_inj_left
  rw [List.map_id] at hmap
  rw [hback, hmap]
  exact forall₂_congr fun a _ => kept_iff a

/-- A file appender that rotates by the hour, with a maximum file size. -/
def hourly (maxFileSize : UInt64) : LogDefine :=
  ⟨"a", .INFO, "", [⟨1, .UNKNOWN, "", "a.log", .HOUR, maxFileSize⟩]⟩

theorem hourly_plain (maxFileSize : UInt64) : Plain (hourly maxFileSize) :=
  ⟨(by decide : "a" ≠ ""), nofun, List.forall_mem_singleton.mpr (.inr (.inl rfl)),
    List.forall_mem_singleton.mpr nofun⟩

/-- The decimal digits. -/
def decimal (s : String) : Option UInt64 := some (UInt64.ofNat (Nat.ofDigitChars 10 s.toList 0))

theorem decimal_toString (n : UInt64) : decimal (toString n.toNat) = some n := by
  rw [decimal, Nat.toString_eq_repr, Nat.toList_repr,
    Nat.ofDigitChars_toDigits (by decide) (by decide), UInt64.ofNat_toNat]

def hourlyText : String :=
  "name: a\nlevel: INFO\nformatter: \"\"\nappenders:\n  - type: FileLogAppender\n" ++
    "    level: UNKNOWN\n    formatter: \"\"\n    path: a.log\n    rotate_type: HOUR"

theorem text_back_iff_hourly :
    ofNode decimal ((fun _ => toNode (hourly 0)) ((fun _ => hourlyText) (toNode (hourly 0)))) =
        some (hourly 0) ↔
      ∀ a ∈ (hourly 0).appenders, a.maxFileSize = 0 ∨ a.rotateType = .SIZE :=
  text_back_iff (fun _ => hourlyText) (fun _ => toNode (hourly 0)) decimal (hourly_plain 0) rfl
    decimal_toString

/-- The maximum file size is not in the text. -/
theorem size_lost : Plain (hourly 1) ∧ ∀ (emit : Yaml.Node → String) (load : String → Yaml.Node),
    load (emit (toNode (hourly 1))) = toNode (hourly 1) →
      ofNode decimal (load (emit (toNode (hourly 1)))) ≠ some (hourly 1) := by
  refine ⟨hourly_plain 1, fun emit load hyaml h => ?_⟩
  rw [hyaml, ofNode_toNode decimal_toString (hourly_plain 1)] at h
  exact absurd (Option.some_inj.mp h) (by decide)

end LogDefine

end CIM
