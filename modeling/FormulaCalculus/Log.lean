import FormulaCalculus.Print.Outline
import FormulaCalculus.Text.Lines

/-!
# Logging

A logger has a level and handlers. The level decides which messages become lines, and every line
goes to every handler. The handlers are chosen when a logger is made: standard error unless the
level is silent, and a file if one is given. The handlers of the logger before are gone by then, so
a file that cannot be opened leaves that logger with handlers that were not made for it.
-/

namespace FormulaCalculus.Log

inductive Level
  | silent
  | minimal
  | moderate
  | detailed
  | verbose
  deriving DecidableEq, Repr

namespace Level

def all : List Level :=
  [silent, minimal, moderate, detailed, verbose]

def number (l : Level) : Nat :=
  l.ctorIdx

def title : Level → String
  | silent => "SILENT"
  | minimal => "MINIMAL"
  | moderate => "MODERATE"
  | detailed => "DETAILED"
  | verbose => "VERBOSE"

def ofTitle? (s : String) : Option Level :=
  all.find? (·.title = s)

/-- Whether a logger of this level takes messages that require the other. -/
def admits (l required : Level) : Bool :=
  required.number ≤ l.number

end Level

inductive Message
  | info (text : String) (required : Level)
  /-- The summary of an operation. -/
  | step (text : String)
  | warning (text : String)
  | debug (text : String)
  /-- A fault that stops an operation. -/
  | critical (text : String)
  /-- Several lines between a line that announces them and one that closes them. -/
  | tree (name dump : String)
  deriving Repr

inductive Severity
  | debug
  | info
  | warning
  | error
  deriving DecidableEq, Repr

def Severity.title : Severity → String
  | debug => "DEBUG"
  | info => "INFO"
  | warning => "WARNING"
  | error => "ERROR"

structure Line where
  severity : Severity
  text : String
  deriving DecidableEq, Repr

/-- The time that every line shows. -/
def clock : String := "00:00:00"

def Line.written (l : Line) : String :=
  clock ++ " - " ++ l.severity.title ++ " - " ++ l.text ++ "\n"

/-- The line as it shows where there is no handler at all: a text if it is at least a warning. -/
def Line.bare (l : Line) : String :=
  match l.severity with
  | .debug | .info => ""
  | .warning | .error => l.text ++ "\n"

/-- The least level that admits a message. -/
def Message.required : Message → Level
  | info _ required => required
  | step _ => .detailed
  | warning _ => .moderate
  | debug _ => .verbose
  | critical _ => .minimal
  | tree .. => .verbose

def Message.lines : Message → List Line
  | info text _ => [⟨.info, text⟩]
  | step text => [⟨.info, text⟩]
  | warning text => [⟨.warning, text⟩]
  | debug text => [⟨.debug, "DEBUG: " ++ text⟩]
  | critical text => [⟨.error, "CRITICAL: " ++ text⟩]
  | tree name dump =>
    ⟨.debug, "Dumping tree " ++ name ++ ":"⟩
      :: (Text.lines dump).map (fun line => ⟨.debug, "   " ++ line⟩)
      ++ [⟨.debug, "Dumping of " ++ name ++ " ended"⟩]

inductive Handler
  | console
  | file (path : String)
  | null
  deriving DecidableEq, Repr

def Handler.title : Handler → String
  | console => "StreamHandler"
  | file _ => "FileHandler"
  | null => "NullHandler"

structure Logger where
  level : Level
  handlers : List Handler
  deriving DecidableEq, Repr

namespace Logger

/-- The handlers for standard error: one, unless the level is silent. -/
def console (level : Level) : List Handler :=
  if level = .silent then [] else [.console]

/-- A logger for standard error, unless it is silent, and for a file if one is given. -/
def make (level : Level) (file : Option String) : Logger :=
  let handlers := console level ++ (file.map Handler.file).toList
  ⟨level, if handlers.isEmpty then [.null] else handlers⟩

def silent : Logger :=
  make .silent none

/-- Handlers depend on whether there is output at all, so they are chosen anew where that changes;
a file is not kept then. -/
def setLevel (l : Logger) (level : Level) : Logger :=
  if (l.level = .silent) = (level = .silent) then { l with level } else make level none

/-- A new logger in the place of this one, for a file if one is given. If the file cannot be opened,
the level stays, but the handlers are those that were made before the file was opened. -/
def configure (l : Logger) (level : Level) : Option (Except Fault String) → Logger
  | none => make level none
  | some (.ok path) => make level (some path)
  | some (.error _) => { l with handlers := console level }

def lines (l : Logger) (m : Message) : List Line :=
  if l.level.admits m.required then m.lines else []

/-- What standard error shows of some lines. -/
def shown (l : Logger) (lines : List Line) : String :=
  if l.handlers.isEmpty then String.join (lines.map Line.bare)
  else if l.handlers.contains .console then String.join (lines.map Line.written)
  else ""

end Logger

/-- How a report of an operation on equations is logged. -/
def messageOf : Event Float → Message
  | .parsed size names =>
    .step ("Parsed formula into " ++ toString size ++ " nodes, variables: " ++ Text.quoteAll names)
  | .parsedTree e => .tree "parsed equation" (e.root.outline (.of e.names none))
  | .differentiated before name after =>
    .step ("Differentiated " ++ toString before ++ " nodes with respect to "
      ++ name.getD "<none>" ++ ": " ++ toString after ++ " nodes")
  | .simplified before after replaced =>
    .step ("Simplified " ++ toString before ++ " -> " ++ toString after ++ " nodes ("
      ++ toString replaced ++ " rewrites)")
  | .settled passes =>
    .step ("Simplification reached a fixed point after " ++ toString passes ++ " passes")
  | .unsettled passes =>
    .warning ("Simplification stopped after " ++ passes.text
      ++ " passes without reaching a fixed point")
  | .constantExpansion =>
    .step "Taylor expansion of a constant equation has no variable terms"
  | .coefficient n point value =>
    .step ("Taylor coefficient " ++ toString n ++ ": f^(" ++ toString n ++ ")("
      ++ Decimal.generalText point ++ ") = " ++ Decimal.generalText value)

end FormulaCalculus.Log
