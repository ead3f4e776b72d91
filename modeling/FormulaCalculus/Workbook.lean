import FormulaCalculus.Formula.Reader
import FormulaCalculus.Log
import FormulaCalculus.Print.Latex
import FormulaCalculus.Settings
import FormulaCalculus.Taylor

/-!
# Workbooks

A workbook holds equations by name, and the settings, the logger and the log files that its
commands share. A command that fails changes no equation, but for simplification, which leaves its
equation as far simplified as it came. Lines that were logged stay written in any case. A logger
whose log file cannot be opened is not installed, but the old one has lost its handlers.
-/

namespace FormulaCalculus

open Log

structure Workbook where
  slots : List (String × Equation Float) := []
  settings : Settings := {}
  logger : Logger := .silent
  files : List (String × String) := []

/-- Fields of a command's own settings; those not given have their default. -/
abbrev Fields := List (String × Given)

inductive Command
  | parse (slot : String) (formula : Option String) (fields : Option Fields)
  | build (slot : String) (tree : Except Fault (Tree Float)) (names : List String)
  | copy (source slot : String)
  | differentiate (source slot : String) (index : Int)
  | taylor (source slot : String) (order : Option Int) (point : Float) (fields : Option Fields)
  | simplify (slot : String) (fields : Option Fields)
  | simplifyFully (slot : String) (maxPasses : Option Count) (fields : Option Fields)
  | display (slot : String)
  | minimal (slot : String) (fields : Option Fields)
  | latex (slot : String) (fields : Option Fields)
  | evaluate (slot : String) (values : List Float)
  | equal (slot source : String)
  | configure (fields : Fields)
  | reset
  | logTree (slot title : String)
  | setLogLevel (level : Level)
  /-- Makes a new logger; of its log file the command knows the path, or why it cannot be opened. -/
  | configureLogging (level : Level) (file : Option (Except Fault String))
  | enabled
  | log (message : Message)
  | fileText (path : String)

inductive Reply
  | done
  | equation (text : String) (names : List String)
  /-- An equation after repeated passes, and their number. -/
  | settled (text : String) (names : List String) (passes : Count)
  | text (text : String)
  | value (x : Float)
  | equal (b : Bool)
  | settings (s : Settings)
  | logging (level : Level) (handlers : List Handler)
  | enabled (levels : List (Level × Bool))

/-- What a command answers, what it wrote to standard error, and the equation that a failed
simplification left behind. -/
structure Answer where
  reply : Except Fault Reply
  log : String := ""
  leftover : Option (Except Fault String) := none

namespace Workbook

/-- The value under a name. -/
def lookup? {β : Type} (entries : List (String × β)) (name : String) : Option β :=
  (entries.find? (·.1 = name)).map (·.2)

/-- The entries with one value replaced or appended. -/
def store {β : Type} (entries : List (String × β)) (name : String) (x : β) :
    List (String × β) :=
  if entries.any (·.1 = name) then entries.map fun e => if e.1 = name then (name, x) else e
  else entries ++ [(name, x)]

def slot? (w : Workbook) (name : String) : Except Fault (Equation Float) :=
  match lookup? w.slots name with
  | some e => .ok e
  | none => .error (.noSlot name)

def put (w : Workbook) (name : String) (e : Equation Float) : Workbook :=
  { w with slots := store w.slots name e }

/-- The settings of a command: its own if it gives any, else the workbook's. -/
def resolve? (w : Workbook) : Option Fields → Except Fault Settings
  | none => .ok w.settings
  | some fields => ({} : Settings).update? fields

/-! ### Logging -/

def writeLines (text : String) (w : Workbook) : Handler → Workbook
  | .file path =>
    { w with files := store w.files path ((lookup? w.files path).getD "" ++ text) }
  | _ => w

/-- Sends messages to the handlers; the text is what standard error shows. -/
def logMessages (w : Workbook) (messages : List Message) : Workbook × String :=
  let lines := messages.flatMap w.logger.lines
  (w.logger.handlers.foldl (writeLines (String.join (lines.map Line.written))) w,
    w.logger.shown lines)

/-- Logs the events of an operation. -/
def logEvents (w : Workbook) (events : List (Event Float)) : Workbook × String :=
  w.logMessages (events.map messageOf)

/-- The workbook with another logger; a log file is opened at once. -/
def install (w : Workbook) (logger : Logger) : Workbook :=
  logger.handlers.foldl (writeLines "") { w with logger }

/-! ### Commands -/

def style (w : Workbook) (e : Equation Float) : Style :=
  .of e.names w.settings.precision

def text? (w : Workbook) (e : Equation Float) : Except Fault String :=
  e.root.full? (w.style e)

def display? (w : Workbook) (name : String) : Except Fault (String × List String) := do
  let e ← w.slot? name
  return (← w.text? e, e.names)

def displayReply (w : Workbook) (name : String) : Except Fault Reply :=
  (fun p => .equation p.1 p.2) <$> w.display? name

/-- Stores the equation that an operation yields. -/
def keep (w : Workbook) (name : String) (result : Outcome Float (Equation Float)) :
    Workbook × Answer :=
  let (w, log) := w.logEvents result.events
  match result.outcome with
  | .error fault => (w, { reply := .error fault, log })
  | .ok e =>
    let w := w.put name e
    (w, { reply := w.displayReply name, log })

/-- Stores what an operation makes of an equation, whether it fails or not. -/
def rework {β : Type} (w : Workbook) (name : String)
    (operation : Equation Float → Except Fault (Rework Float β))
    (reply : Workbook → β → Except Fault Reply) : Workbook × Answer :=
  match w.slot? name with
  | .error fault => (w, { reply := .error fault })
  | .ok e =>
    match operation e with
    | .error fault => (w, { reply := .error fault, leftover := some (w.text? e) })
    | .ok r =>
      let (w, log) := w.logEvents r.result.events
      let w := w.put name r.equation
      match r.result.outcome with
      | .error fault => (w, { reply := .error fault, log, leftover := some (w.text? r.equation) })
      | .ok x => (w, { reply := reply w x, log })

/-- Answers without a change. -/
def answer (w : Workbook) (reply : Except Fault Reply) : Workbook × Answer :=
  (w, { reply })

def run (w : Workbook) : Command → Workbook × Answer
  | .parse slot formula fields =>
    w.keep slot do
      let s ← .ofExcept (w.resolve? fields)
      Formula.parse s.maxNestingDepth formula
  | .build slot tree names =>
    w.keep slot (.ofExcept do Equation.ofTree? (← tree) names)
  | .copy source slot => w.keep slot (.ofExcept do (← w.slot? source).copy?)
  | .differentiate source slot index =>
    w.keep slot do (← .ofExcept (w.slot? source)).differentiate index
  | .taylor source slot order point fields =>
    w.keep slot do
      let e ← .ofExcept (w.slot? source)
      let s ← .ofExcept (w.resolve? fields)
      e.taylor s.epsilon order point
  | .simplify slot fields =>
    w.rework slot (fun e => return e.simplify (← w.resolve? fields).epsilon)
      fun w _ => w.displayReply slot
  | .simplifyFully slot maxPasses fields =>
    w.rework slot
      (fun e => do
        let s ← w.resolve? fields
        return e.simplifyFully s.epsilon (maxPasses.getD s.maxSimplifyPasses))
      fun w passes => (fun p => .settled p.1 p.2 passes) <$> w.display? slot
  | .display slot => w.answer (w.displayReply slot)
  | .minimal slot fields =>
    w.answer do
      let e ← w.slot? slot
      let s ← w.resolve? fields
      return .text (← e.root.minimal? (.of e.names s.precision))
  | .latex slot fields =>
    w.answer do
      let e ← w.slot? slot
      let s ← w.resolve? fields
      return .text (← e.root.latex? (.of e.names s.precision))
  | .evaluate slot values => w.answer do return .value (← (← w.slot? slot).evaluate values)
  | .equal slot source =>
    w.answer do
      let a ← w.slot? slot
      let b ← w.slot? source
      let same ← a.same? b
      return .equal (slot == source || same)
  | .configure fields =>
    match w.settings.update? fields with
    | .error fault => w.answer (.error fault)
    | .ok settings => { w with settings }.answer (.ok (.settings settings))
  | .reset => { w with settings := {} }.answer (.ok (.settings {}))
  | .logTree slot title =>
    match do
      let e ← w.slot? slot
      e.root.outline? (.of e.names none)
    with
    | .error fault => w.answer (.error fault)
    | .ok dump =>
      let (w, log) := w.logMessages [.tree title dump]
      (w, { reply := .ok .done, log })
  | .setLogLevel level => (w.install (w.logger.setLevel level)).answer (.ok .done)
  | .configureLogging level file =>
    let logger := w.logger.configure level file
    (w.install logger).answer (match file with
      | some (.error fault) => .error fault
      | _ => .ok (.logging logger.level logger.handlers))
  | .enabled =>
    w.answer (.ok (.enabled (Level.all.map fun l => (l, w.logger.level.admits l))))
  | .log message =>
    let (w, log) := w.logMessages [message]
    (w, { reply := .ok .done, log })
  | .fileText path =>
    w.answer (match lookup? w.files path with
      | some text => .ok (.text (String.ofList (Text.unifyLineEnds text.toList)))
      | none => .error (.noSuchFile path))

/-- Runs commands one after another. -/
def runAll (w : Workbook) : List Command → List Answer
  | [] => []
  | c :: cs =>
    let (w, a) := w.run c
    a :: runAll w cs

end Workbook

end FormulaCalculus
