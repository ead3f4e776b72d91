import FormulaCalculus.Decimal.Reader
import FormulaCalculus.Text.Quoted

/-!
# Command line options

Words that start with a dash are options, except a lone dash, negative numbers and words with a
space; after `--` no word is. A long option may be cut short while it stays unambiguous, and short
options may share a word, where an equals sign behind the first of them is skipped. An argument in
the word of its option that consists of two dashes is left out. The formula is the one positional
argument. Each option is acted on in the order of the words, so the first fault of several is the
one that is reported.
-/

namespace FormulaCalculus.CommandLine

inductive Flag
  | help
  | input
  | target
  | full
  | evaluate
  | taylor
  | point
  | latex
  | dot
  | verbose
  deriving DecidableEq, Repr

/-- How many arguments an option takes. -/
inductive Takes
  | nothing
  | one
  | many
  deriving DecidableEq, Repr

namespace Flag

def spellings : Flag → List String
  | help => ["-h", "--help"]
  | input => ["-i", "--input"]
  | target => ["--var"]
  | full => ["--full"]
  | evaluate => ["--eval"]
  | taylor => ["--taylor"]
  | point => ["--point"]
  | latex => ["--latex"]
  | dot => ["--dot"]
  | verbose => ["-v", "--verbose"]

def all : List Flag :=
  [help, input, target, full, evaluate, taylor, point, latex, dot, verbose]

/-- Every spelling with its option. -/
def table : List (String × Flag) :=
  all.flatMap fun f => f.spellings.map (·, f)

def ofSpelling? (s : String) : Option Flag :=
  (table.find? (·.1 = s)).map (·.2)

/-- The name of the option in messages. -/
def title (f : Flag) : String :=
  "/".intercalate f.spellings

def takes : Flag → Takes
  | help | full | latex | verbose => .nothing
  | evaluate => .many
  | _ => .one

end Flag

inductive UsageFault
  | ambiguous (word : String) (spellings : List String)
  | argumentExpected (flag : Flag)
  | argumentIgnored (flag : Flag) (argument : String)
  | invalidInteger (flag : Flag) (text : String)
  | invalidDouble (flag : Flag) (text : String)
  /-- The formula and an input file were both given; the flag tells which came second. -/
  | twoSources (fileSecond : Bool)
  | noSource
  | unrecognized (words : List String)
  deriving DecidableEq, Repr

namespace UsageFault

def inArgument (title reason : String) : String :=
  "argument " ++ title ++ ": " ++ reason

def message : UsageFault → String
  | ambiguous word spellings =>
    "ambiguous option: " ++ word ++ " could match " ++ ", ".intercalate spellings
  | argumentExpected flag => inArgument flag.title "expected one argument"
  | argumentIgnored flag argument =>
    inArgument flag.title ("ignored explicit argument " ++ Text.quote argument)
  | invalidInteger flag text => inArgument flag.title ("invalid int value: " ++ Text.quote text)
  | invalidDouble flag text => inArgument flag.title ("invalid float value: " ++ Text.quote text)
  | twoSources true =>
    inArgument Flag.input.title "not allowed with argument formula"
  | twoSources false =>
    inArgument "formula" ("not allowed with argument " ++ Flag.input.title)
  | noSource => "one of the arguments formula " ++ Flag.input.title ++ " is required"
  | unrecognized words => "unrecognized arguments: " ++ " ".intercalate words

end UsageFault

/-- What parsing ends with when it yields no options. -/
inductive Stop
  | help
  | usage (fault : UsageFault)
  deriving DecidableEq, Repr

/-! ### Words -/

/-- What a word is. Text behind an option in its word is attached to it. -/
inductive Word
  | argument
  /-- The word after which no word is an option. -/
  | dashes
  | unknown
  | long (flag : Flag) (attached : Option (List Char))
  | short (flag : Flag) (attached : Option (List Char))
  deriving DecidableEq, Repr

namespace Word

/-- The text before and after the first equals sign. -/
def splitMark (cs : List Char) : List Char × Option (List Char) :=
  match cs.dropWhile (· != '=') with
  | [] => (cs, none)
  | _ :: rest => (cs.takeWhile (· != '='), some rest)

/-- Digits, or a point among or before digits; the minus in front is cut off already, and a line
feed may follow. -/
def isNumber (cs : List Char) : Bool :=
  let cs := if cs.getLast? = some '\n' then cs.dropLast else cs
  match cs.dropWhile Text.isDigit with
  | [] => !cs.isEmpty
  | '.' :: fraction => !fraction.isEmpty && fraction.all Text.isDigit
  | _ => false

/-- The option of a spelling, with what is attached to it. -/
def ofSpelling? (cs : List Char) (attached : Option (List Char)) : Option Word :=
  (Flag.ofSpelling? (String.ofList cs)).map fun f =>
    if cs.take 2 = ['-', '-'] then long f attached else short f attached

/-- The ways to read a word as a long option cut short, or as a short option with more behind it. -/
def readings (cs : List Char) : List (String × Word) :=
  match cs with
  | '-' :: '-' :: _ =>
    let (stem, text) := splitMark cs
    (Flag.table.filter fun e => stem.isPrefixOf e.1.toList).map fun e =>
      (e.1, long e.2 text)
  | a :: b :: rest =>
    (Flag.table.filter fun e => e.1.toList = [a, b]).map fun e =>
      (e.1, short e.2 (some rest))
  | _ => []

def classify (word : String) : Except UsageFault Word :=
  let cs := word.toList
  if cs.head? != some '-' || cs.length = 1 then .ok argument
  else
    let (stem, text) := splitMark cs
    let exact := ofSpelling? cs none
    match exact <|> text.bind fun text => ofSpelling? stem (some text) with
    | some w => .ok w
    | none =>
      match readings cs with
      | [(_, w)] => .ok w
      | [] => .ok (if isNumber (cs.drop 1) || cs.contains ' ' then argument else unknown)
      | ws => .error (.ambiguous word (ws.map (·.1)))

/-- Every word with its class. -/
def classifyAll : List String → Except UsageFault (List (String × Word))
  | [] => .ok []
  | w :: ws =>
    if w = "--" then .ok ((w, dashes) :: ws.map (·, argument))
    else do
      let c ← classify w
      return (w, c) :: (← classifyAll ws)

end Word

/-! ### Requests -/

/-- What one word of options asks for. -/
structure Request where
  /-- Options with their arguments, in order. -/
  actions : List (Flag × List String)
  /-- How many of the following words are arguments of the last option. -/
  taken : Nat := 0

namespace Request

/-- An option with its arguments among the following words. -/
def alone (flag : Flag) (following : List (String × Word)) : Except UsageFault Request :=
  match flag.takes, following with
  | .nothing, _ => .ok ⟨[(flag, [])], 0⟩
  | .one, (w, .argument) :: _ => .ok ⟨[(flag, [w])], 1⟩
  | .one, _ => .error (.argumentExpected flag)
  | .many, _ =>
    let ws := following.takeWhile (·.2 = .argument)
    .ok ⟨[(flag, ws.map (·.1))], ws.length⟩

/-- An option with the argument in its word, which two dashes leave out. -/
def joined (flag : Flag) (text : List Char) : Request :=
  ⟨[(flag, if text = ['-', '-'] then [] else [String.ofList text])], 0⟩

def precededBy (flag : Flag) (r : Request) : Request :=
  { r with actions := (flag, []) :: r.actions }

/-- A short option with more in its word: its argument, or further options if it takes none. -/
def cluster (flag : Flag) (text : List Char) (following : List (String × Word)) :
    Except UsageFault Request :=
  match flag.takes, text with
  | .nothing, [] => .error (.argumentIgnored flag "")
  | .nothing, c :: cs =>
    match Flag.ofSpelling? (String.ofList ['-', c]) with
    | none => .error (.argumentIgnored flag (String.ofList (c :: cs)))
    | some next =>
      precededBy flag <$> if cs.isEmpty then alone next following else cluster next cs following
  | _, _ => .ok (joined flag text)

/-- A long option with text behind the equals sign. -/
def ofLong (flag : Flag) (text : List Char) : Except UsageFault Request :=
  match flag.takes with
  | .nothing => .error (.argumentIgnored flag (String.ofList text))
  | _ => .ok (joined flag text)

end Request

/-! ### Options -/

structure Options where
  formula : Option String := none
  input : Option String := none
  /-- The name of the variable to differentiate by. -/
  target : Option String := none
  full : Bool := false
  assignments : Option (List String) := none
  /-- The order of the expansion that is asked for; `some none` is one left out. -/
  taylor : Option (Option Int) := none
  /-- The point of the expansion; `none` is one left out. -/
  point : Option Float := some 0
  latex : Bool := false
  dot : Option String := none
  verbosity : Nat := 0
  deriving Repr

namespace Options

def setFormula (o : Options) (s : String) : Except Stop Options :=
  if o.input.isSome then .error (.usage (.twoSources false)) else .ok { o with formula := some s }

def setInput (o : Options) (s : String) : Except Stop Options :=
  if o.formula.isSome then .error (.usage (.twoSources true)) else .ok { o with input := some s }

def setTaylor (o : Options) : Option String → Except Stop Options
  | none => .ok { o with taylor := some none }
  | some s =>
    match Decimal.readInt? s with
    | some n => .ok { o with taylor := some (some n) }
    | none => .error (.usage (.invalidInteger .taylor s))

def setPoint (o : Options) : Option String → Except Stop Options
  | none => .ok { o with point := none }
  | some s =>
    match Decimal.readDouble? s with
    | some x => .ok { o with point := some x }
    | none => .error (.usage (.invalidDouble .point s))

/-- Acts on an option. An input file that is left out counts as given, with an empty name. -/
def act (o : Options) : Flag × List String → Except Stop Options
  | (.help, _) => .error .help
  | (.full, _) => .ok { o with full := true }
  | (.latex, _) => .ok { o with latex := true }
  | (.verbose, _) => .ok { o with verbosity := o.verbosity + 1 }
  | (.evaluate, ws) => .ok { o with assignments := some ws }
  | (.input, ws) => o.setInput (ws.headD "")
  | (.target, ws) => .ok { o with target := ws.head? }
  | (.dot, ws) => .ok { o with dot := ws.head? }
  | (.taylor, ws) => o.setTaylor ws.head?
  | (.point, ws) => o.setPoint ws.head?

end Options

/-! ### Parsing -/

structure Progress where
  options : Options := {}
  /-- Whether the place of the formula is taken, if only by dashes. -/
  placed : Bool := false
  /-- How many of the following words are spoken for. -/
  taken : Nat := 0
  /-- Words without a use, latest first. -/
  extras : List String := []

namespace Progress

def follow (p : Progress) (r : Except UsageFault Request) : Except Stop Progress := do
  let r ← r.mapError Stop.usage
  return { p with
    options := ← r.actions.foldlM Options.act p.options
    taken := r.taken }

/-- Takes the next words as the formula: an argument, with dashes before or after it. -/
def place (p : Progress) (word : String) (kind : Word) (following : List (String × Word)) :
    Except Stop Progress := do
  let (formula, taken) := match kind, following with
    | .dashes, (w, _) :: _ => (some w, 1)
    | .dashes, [] => (none, 0)
    | _, (_, .dashes) :: _ => (some word, 1)
    | _, _ => (some word, 0)
  let options ← match formula with
    | some s => p.options.setFormula s
    | none => .ok p.options
  return { p with options, taken, placed := true }

def step (p : Progress) (word : String) (kind : Word) (following : List (String × Word)) :
    Except Stop Progress :=
  match kind with
  | .unknown => .ok { p with extras := word :: p.extras }
  | .long flag none | .short flag none => p.follow (Request.alone flag following)
  | .long flag (some text) => p.follow (Request.ofLong flag text)
  | .short flag (some text) => p.follow (Request.cluster flag text following)
  | .argument | .dashes =>
    if p.placed then .ok { p with extras := word :: p.extras } else p.place word kind following

def run (p : Progress) : List (String × Word) → Except Stop Progress
  | [] => .ok p
  | (word, kind) :: following =>
    match p.taken with
    | n + 1 => run { p with taken := n } following
    | 0 => do run (← p.step word kind following) following

end Progress

/-- The options that the words of a command line give. -/
def Options.parse (words : List String) : Except Stop Options := do
  let words ← (Word.classifyAll words).mapError Stop.usage
  let p ← ({} : Progress).run words
  if p.options.formula.isNone && p.options.input.isNone then throw (.usage .noSource)
  if !p.extras.isEmpty then throw (.usage (.unrecognized p.extras.reverse))
  return p.options

end FormulaCalculus.CommandLine
