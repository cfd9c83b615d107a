import Mathlib.Logic.Function.Basic
import CIM.Config.ConfigVar

/-!
# The configuration of the loggers

Loggers are looked up by name and log files by path, and both outlive a configuration. When the
value of `logs` changes, a listener writes the new one into them field by field.
-/
namespace CIM

inductive Level
  | UNKNOWN
  | DEBUG
  | INFO
  | WARN
  | ERROR
  | FATAL
  /-- `(Level)100`, at which nothing is logged. -/
  | off
  deriving DecidableEq, Repr

inductive RotateType
  | NONE
  | MINUTE
  | HOUR
  | DAY
  | SIZE
  deriving DecidableEq, Repr

namespace LogFormatter

def s_format_items : List (List Char) :=
  [['m'], ['p'], ['r'], ['c'], ['t'], ['N'], ['n'], ['d'], ['f'], ['l'], ['T'], ['F']]

/-- Whether `init` sets `m_isError`: a `%` has no name behind it, or one that is not known. Of two
`%` the first is passed over alone; the letters of a name are passed over like any others. -/
def isError : List Char → Bool
  | [] => false
  | c :: rest =>
      if c ≠ '%' then isError rest
      else if rest.head? = some '%' then isError rest
      else
        let str := rest.takeWhile Char.isAlpha
        str.isEmpty || !s_format_items.contains str || isError rest

/-- A formatter is its pattern. -/
def valid (pattern : String) : Bool := pattern != "" && !isError pattern.toList

end LogFormatter

structure LogAppenderDefine where
  type : Int
  level : Level
  formatter : String
  path : String
  rotateType : RotateType
  maxFileSize : UInt64
  deriving DecidableEq, Repr

structure LogDefine where
  name : String
  level : Level
  formatter : String
  appenders : List LogAppenderDefine
  deriving DecidableEq, Repr

/-- `std::set<LogDefine>`, in the order in which it is gone through. -/
abbrev LogDefines := { l : List LogDefine // l.Pairwise fun a b => a.name < b.name }

structure LogFile where
  m_rotateType : RotateType
  m_maxFileSize : UInt64
  deriving DecidableEq, Repr

def LogFile.new : LogFile := ⟨.NONE, 0⟩

inductive Output
  | file (path : String)
  | stdout
  deriving DecidableEq, Repr

structure LogAppender where
  output : Output
  m_level : Level
  m_formatter : Option String
  deriving DecidableEq, Repr

structure Logger where
  m_level : Level
  m_formatter : String
  m_appenders : List LogAppender
  deriving DecidableEq, Repr

namespace Logger

def defaultFormatter : String := "%d%T%N%T%t%T%F%T[%p]%T[%c]%T<%f:%l>%T%m%n"

def new : Logger := ⟨.DEBUG, defaultFormatter, []⟩

/-- None where the assertion fails, as everywhere below. -/
def setLevel (l : Logger) (level : Level) : Option Logger :=
  if level = .UNKNOWN then none else some { l with m_level := level }

def setFormatter (l : Logger) (val : String) : Option Logger :=
  if val = "" then none
  else if LogFormatter.isError val.toList then some l
  else some { l with m_formatter := val }

def clearAppender (l : Logger) : Logger := { l with m_appenders := [] }

def addAppender (l : Logger) (appender : LogAppender) : Logger :=
  { l with
    m_appenders := l.m_appenders ++
      [{ appender with m_formatter := some (appender.m_formatter.getD l.m_formatter) }] }

end Logger

def LogAppender.setLevel (ap : LogAppender) (level : Level) : Option LogAppender :=
  if level = .UNKNOWN then none else some { ap with m_level := level }

/-- What `LoggerManager` and `LogFileManager` keep. -/
structure Logs where
  m_loggers : String → Option Logger
  m_logs : String → Option LogFile

namespace Logs

/-- What is missing is made. -/
def getLogger (w : Logs) (name : String) : Logger := (w.m_loggers name).getD .new

def getLogFile (w : Logs) (fileName : String) : LogFile := (w.m_logs fileName).getD .new

def setLogger (w : Logs) (name : String) (l : Logger) : Logs :=
  { w with m_loggers := Function.update w.m_loggers name (some l) }

def setLogFile (w : Logs) (fileName : String) (f : LogFile) : Logs :=
  { w with m_logs := Function.update w.m_logs fileName (some f) }

/-- The constructor of the appender; of another type there is none, and the null pointer is used
all the same. -/
def makeAppender (w : Logs) (j : LogAppenderDefine) : Option (LogAppender × Logs) :=
  if j.type = 1 then
    if j.path = "" then none
    else some (⟨.file j.path, .DEBUG, none⟩, w.setLogFile j.path (w.getLogFile j.path))
  else if j.type = 2 then some (⟨.stdout, .DEBUG, none⟩, w)
  else none

/-- `setRotateType` and `setMaxFileSize` of the file of the appender. -/
def rotate (w : Logs) (output : Output) (j : LogAppenderDefine) : Logs :=
  if j.rotateType = .NONE then w
  else
    match output with
    | .file path => w.setLogFile path ⟨j.rotateType, j.maxFileSize⟩
    | .stdout => w

/-- The turn of the listener for an appender of `i`. -/
def append (i : LogDefine) (w : Logs) (j : LogAppenderDefine) : Option Logs := do
  let (ap, w) ← w.makeAppender j
  let ap ← ap.setLevel (if j.level ≠ .UNKNOWN then j.level else i.level)
  let ap := if LogFormatter.valid j.formatter then { ap with m_formatter := some j.formatter } else ap
  let w := w.rotate ap.output j
  some (w.setLogger i.name ((w.getLogger i.name).addAppender ap))

/-- The turn of the listener for a logger. -/
def define (w : Logs) (i : LogDefine) : Option Logs :=
  if i.name = "" then none
  else do
    let logger ← (w.getLogger i.name).setLevel i.level
    let logger ← if i.formatter = "" then some logger else logger.setFormatter i.formatter
    i.appenders.foldlM (append i) (w.setLogger i.name logger.clearAppender)

/-- A logger that the new configuration does not have. -/
def remove (w : Logs) (i : LogDefine) : Option Logs :=
  if i.name = "" then none
  else do
    let logger ← (w.getLogger i.name).setLevel .off
    some (w.setLogger i.name logger.clearAppender)

/-- The listener; an element is looked up by its name. -/
def onChange (w : Logs) (old_val new_val : List LogDefine) : Option Logs := do
  let w ← new_val.foldlM define w
  (old_val.filter fun i => !new_val.any fun d => d.name == i.name).foldlM remove w

end Logs

/-- `g_log_defines`, with the only listener it has, and what that one writes to. -/
structure LogConfig where
  var : ConfigVar LogDefines
  logs : Logs

namespace LogConfig

def setValue (s : LogConfig) (v : LogDefines) : Option LogConfig :=
  match s.var.setValue v with
  | (none, _) => some s
  | (some (old_value, _), var) =>
      (s.logs.onChange old_value.val v.val).map fun logs => ⟨var, logs⟩

/-- Before the first configuration there is the root logger, and no file. -/
def fresh : LogConfig where
  var := ⟨⟨[], .nil⟩, [0]⟩
  logs :=
    { m_loggers := Function.update (fun _ => none) "root"
        (some (Logger.new.addAppender ⟨.stdout, .DEBUG, none⟩))
      m_logs := fun _ => none }

end LogConfig

end CIM
