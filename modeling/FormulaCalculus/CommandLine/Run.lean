import FormulaCalculus.CommandLine.Help
import FormulaCalculus.CommandLine.Options
import FormulaCalculus.Disk
import FormulaCalculus.Formula.Reader
import FormulaCalculus.Log
import FormulaCalculus.Print.Graph
import FormulaCalculus.Print.Latex
import FormulaCalculus.Settings
import FormulaCalculus.Taylor
import FormulaCalculus.Text.Utf8

/-!
# Running a command line

The formula comes from the command line or from a file; its derivative, values, expansion and
drawings are written in a fixed order. A fault ends the run, and what was written before it stays.
-/

namespace FormulaCalculus.CommandLine

open Log

/-- What a run has written so far. -/
structure State where
  logger : Logger
  stdout : String := ""
  stderr : String := ""
  /-- The path and the text of the file it has written. -/
  drawing : Option (String × String) := none

abbrev Action :=
  ExceptT Fault (StateM State)

/-! ### Steps -/

/-- A labelled line on standard output. -/
def say (label text : String) : Action Unit :=
  modify fun s => { s with stdout := s.stdout ++ label ++ " = " ++ text ++ "\n" }

def log (messages : List Message) : Action Unit :=
  modify fun s =>
    let text := String.join ((messages.flatMap s.logger.lines).map Line.written)
    { s with stderr := s.stderr ++ text }

/-- Logs the events of an operation and yields its result. -/
def perform {β : Type} (operation : Outcome Float β) : Action β := do
  log (operation.events.map messageOf)
  MonadExcept.ofExcept operation.outcome

/-- Yields the result of a calculation that reports no events. -/
def require {β : Type} (x : Except Fault β) : Action β :=
  perform (.ofExcept x)

def style (e : Equation Float) : Style :=
  .of e.names none

def logTree (e : Equation Float) (name : String) : Action Unit := do
  log [.tree name (← require (e.root.outline? (style e)))]

/-- The text of the formula: that of the input file if one is named, else the one given. -/
def source (o : Options) (disk : Disk) : Action (Option String) :=
  match o.input.filter (· ≠ "") with
  | none => return o.formula
  | some path => do
    let bytes ← require (disk.read path)
    match Text.Utf8.decode bytes with
    | .ok cs => return some (String.ofList (Text.unifyLineEnds cs))
    | .error fault => throw (.undecodable fault.message)

def simplified (o : Options) (e : Equation Float) : Action (Equation Float) := do
  let s : Settings := {}
  if o.full then
    let r := e.simplifyFully s.epsilon s.maxSimplifyPasses
    let _ ← perform r.result
    return r.equation
  else
    let r := e.simplify s.epsilon
    perform r.result
    return r.equation

/-- A name and its value, with an equals sign between them. -/
def assignment? (item : String) : Except Fault (String × Float) :=
  match Word.splitMark item.toList with
  | (_, none) => .error (.badAssignment item)
  | (name, some text) =>
    match Decimal.readDouble? (String.ofList text) with
    | some x => .ok (String.ofList (Text.trim name), x)
    | none => .error (.notADouble (String.ofList text))

/-- A value for each name: the last one assigned, 0 without one. -/
def values (names : List String) (assignments : List (String × Float)) : List Float :=
  names.map fun name => ((assignments.reverse.find? (·.1 = name)).map (·.2)).getD 0

/-! ### Runs -/

def sayValue (label : String) (e : Equation Float) (point : List Float) : Action Unit := do
  say label (Decimal.generalText (← require (e.evaluate point)))

def evaluate (e derivative : Equation Float) (items : List String) : Action Unit := do
  let point := values e.names (← require (items.mapM assignment?))
  sayValue "f(...)" e point
  sayValue "f'(..)" derivative point

/-- Writes the polynomial. That the point is missing comes to light after the order is checked. -/
def expand (o : Options) (e : Equation Float) (order : Option Int) : Action Unit := do
  let s : Settings := {}
  let some point := o.point | do
    let _ ← require (e.expansionOrder? order)
    throw .noPoint
  let p ← simplified o (← perform (e.taylor s.epsilon order point))
  say "taylor" (← require (p.root.minimal? (style p)))

def draw (e : Equation Float) (path : String) (disk : Disk) : Action Unit := do
  require (disk.writable path)
  let vertices ← require (Graph.vertices? (style e) e.root)
  modify fun s => { s with drawing := some (path, Graph.dot "Equation" vertices) }

def calculate (o : Options) (disk : Disk) : Action Unit := do
  let s : Settings := {}
  let e ← perform (Formula.parse s.maxNestingDepth (← source o disk))
  logTree e "input"
  let index ← match o.target.filter (· ≠ "") with
    | some name => require (e.indexOf? name)
    | none => pure 0
  let derivative ← simplified o (← perform (e.differentiate index))
  logTree derivative "derivative"
  say "f     " (← require (e.root.minimal? (style e)))
  say "f'    " (← require (derivative.root.minimal? (style derivative)))
  say "tree  " (← require (e.root.full? (style e)))
  if let some items := o.assignments then evaluate e derivative items
  if let some order := o.taylor then expand o e order
  if o.latex then
    say "latex " (← require (e.root.latex? (style e)))
    say "latex'" (← require (derivative.root.latex? (style derivative)))
  if let some path := o.dot.filter (· ≠ "") then draw e path disk

/-- Whether a fault is reported to the user; the others are flaws of the program's use. -/
def isReported (fault : Fault) : Bool :=
  match fault.family with
  | .type | .index | .attribute | .recursion | .overflow => false
  | _ => true

/-- The level of the log for a number of requests to be verbose. -/
def levelOf : Nat → Level
  | 0 => .minimal
  | 1 => .detailed
  | _ => .verbose

/-- How a run ended, and what it has written. -/
structure Result where
  exit : Except Fault Nat
  stdout : String := ""
  stderr : String := ""
  drawing : Option (String × String) := none

def State.result (s : State) (exit : Except Fault Nat) : Result :=
  ⟨exit, s.stdout, s.stderr, s.drawing⟩

def execute (o : Options) (disk : Disk) : Result :=
  match (calculate o disk).run.run { logger := .make (levelOf o.verbosity) none } with
  | (.ok (), s) => s.result (.ok 0)
  | (.error fault, s) =>
    if isReported fault then ((log [.critical fault.message]).run.run s).2.result (.ok 1)
    else s.result (.error fault)

def run (words : List String) (disk : Disk) : Result :=
  match Options.parse words with
  | .ok o => execute o disk
  | .error .help => { exit := .ok 0, stdout := help }
  | .error (.usage fault) =>
    { exit := .ok 2, stderr := usage ++ programName ++ ": error: " ++ fault.message ++ "\n" }

end FormulaCalculus.CommandLine
