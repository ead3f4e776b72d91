import FormulaCalculus.Count
import FormulaCalculus.Op

/-!
# Faults

What can go wrong, by cause. A fault belongs to a family, which tells callers how to treat it, and
most families carry a message.
-/

namespace FormulaCalculus

/-- An operator applied outside its domain. -/
inductive DomainFault
  | divisionByZero
  | zeroToNegativePower
  | negativeToFraction
  | logOfNonPositive
  | rootOfNegative
  | tangentPole
  | cotangentPole
  | arcsinOutside
  | arccosOutside
  deriving DecidableEq, Repr

namespace DomainFault

def op : DomainFault → Op
  | divisionByZero => .div
  | zeroToNegativePower | negativeToFraction => .pow
  | logOfNonPositive => .ln
  | rootOfNegative => .sqrt
  | tangentPole => .tg
  | cotangentPole => .ctg
  | arcsinOutside => .arcsin
  | arccosOutside => .arccos

def reason : DomainFault → String
  | divisionByZero => "division by zero"
  | zeroToNegativePower => "zero raised to a negative power"
  | negativeToFraction => "negative base with a fractional exponent"
  | logOfNonPositive => "logarithm of a non-positive argument"
  | rootOfNegative => "square root of a negative argument"
  | tangentPole => "tangent is undefined where cosine is zero"
  | cotangentPole => "cotangent is undefined where sine is zero"
  | arcsinOutside | arccosOutside => "argument outside [-1, 1]"

def message (f : DomainFault) : String :=
  f.op.symbol ++ ": " ++ f.reason

end DomainFault

/-- What a formula reader objects to. -/
inductive SyntaxFault
  | unexpectedCharacter (c : Char)
  | emptyFormula
  | unmatchedClose
  | trailing (token : String)
  | unmatchedOpen (position : Nat)
  | nestedTooDeeply (limit : Count)
  | missingOperand (token : String)
  | missingLastOperand
  | unknownFunction (name : String)
  | bareFunction (name : String)
  deriving DecidableEq, Repr

def SyntaxFault.message : SyntaxFault → String
  | unexpectedCharacter c => "Unexpected character '" ++ c.toString ++ "'"
  | emptyFormula => "Empty formula"
  | unmatchedClose => "Unmatched ')'"
  | trailing token => "Unexpected '" ++ token ++ "' after complete expression"
  | unmatchedOpen p => "Unmatched '(' opened at position " ++ toString p
  | nestedTooDeeply limit => "Nesting deeper than " ++ limit.text ++ " levels"
  | missingOperand token => "Missing operand before '" ++ token ++ "'"
  | missingLastOperand => "Missing operand at end of formula"
  | unknownFunction name => "Unknown function '" ++ name ++ "'"
  | bareFunction name => "'" ++ name ++ "' is a function name and must be followed by '('"

/-- How callers tell faults apart. -/
inductive Family
  | formula
  | domain
  | variableCount
  | equation
  | arity
  | unknownOperator
  | depthLimit
  | value
  | type
  | key
  | index
  | attribute
  | recursion
  | overflow
  | file
  deriving DecidableEq, Repr

inductive Fault
  /-- A formula cannot be read; the fault shows at the position. -/
  | formula (fault : SyntaxFault) (position : Nat)
  | domain (fault : DomainFault)
  /-- Only equations of one variable can be expanded. -/
  | severalVariables (names : List String)
  /-- There is no variable of that index to differentiate by. -/
  | noSuchVariable (index : Int) (names : List String)
  /-- The code is not an operator of two operands. -/
  | notBinary (code : Code)
  /-- The code is not a function. -/
  | notFunction (code : Code)
  | twoOperandsNeeded (op : Op)
  | argumentNeeded (op : Op)
  | negativeIndex (index : Int)
  | indexOutsideTable (index size : Int)
  | operandMissing
  | argumentMissing
  /-- A node of two operands holds a code that has no algebra term. -/
  | noAlgebra (code : Code)
  | noOperator (code : Code)
  /-- The operation does not know nodes of that kind. -/
  | cannot (operation kind : String)
  | binaryCarries (code : Code)
  | functionCarries (code : Code)
  | unknownKind (kind : String)
  /-- The operation met a tree too deep to walk, and says so. -/
  | nestedTooDeeply (operation : String)
  /-- A tree is too deep to walk. -/
  | recursion
  | tooFewValues (names : List String) (given : Nat)
  | notAMatrix
  | tooFewColumns (needed given : Nat)
  /-- The rows of a matrix differ in length. -/
  | ragged (rows : Nat)
  | badOrder
  /-- The point of an expansion was left out. -/
  | noPoint
  | badPassLimit
  | duplicateNames
  | badWalkOrder (order : String)
  | badTraversalOrder (order : String)
  | negativePrecision
  | negativeEpsilon
  | badNestingDepth
  | badSimplifyPasses
  | badNumberPrecision
  | badAssignment (item : String)
  | notADouble (text : String)
  | notAnInteger (text : String)
  | undecodable (reason : String)
  | formulaNotText
  /-- The slot of an operator holds something of that kind where a number is needed. -/
  | noNumber (kind : String)
  | epsilonNotNumeric
  | unknownSetting (name : String)
  /-- The code has no spelling. -/
  | noSymbol (code : Code)
  | noVariable (name : String)
  | noSlot (name : String)
  | outOfRange
  /-- A child that the operation needs is not there. -/
  | absentChild
  /-- The factorial of the order exceeds every double. -/
  | factorialOverflow
  | noSuchFile (path : String)
  | isDirectory (path : String)
  /-- A part of the path before its last is a file. -/
  | notADirectory (path : String)
  | nullInPath
  deriving DecidableEq, Repr

namespace Fault

def family : Fault → Family
  | formula .. => .formula
  | domain .. => .domain
  | severalVariables .. => .variableCount
  | noSuchVariable .. => .equation
  | notBinary .. | notFunction .. | twoOperandsNeeded .. | argumentNeeded .. | negativeIndex ..
  | indexOutsideTable .. | operandMissing | argumentMissing | noAlgebra .. => .arity
  | noOperator .. | cannot .. | binaryCarries .. | functionCarries .. | unknownKind .. =>
    .unknownOperator
  | nestedTooDeeply .. => .depthLimit
  | recursion => .recursion
  | tooFewValues .. | notAMatrix | tooFewColumns .. | ragged .. | badOrder | badPassLimit
  | duplicateNames | badWalkOrder .. | badTraversalOrder .. | negativePrecision | negativeEpsilon
  | badNestingDepth | badSimplifyPasses | badNumberPrecision | badAssignment .. | notADouble ..
  | notAnInteger .. | undecodable .. | nullInPath =>
    .value
  | formulaNotText | noPoint | noNumber .. | epsilonNotNumeric | unknownSetting .. => .type
  | noSymbol .. | noVariable .. | noSlot .. => .key
  | outOfRange => .index
  | absentChild => .attribute
  | factorialOverflow => .overflow
  | noSuchFile .. | isDirectory .. | notADirectory .. => .file

open Text in
def message : Fault → String
  | formula fault position => fault.message ++ " (at position " ++ toString position ++ ")"
  | domain fault => fault.message
  | severalVariables names => "Taylor expansion supports one variable, got " ++ quoteAll names
  | noSuchVariable i names =>
    "variable index " ++ toString i ++ " outside the variable table " ++ quoteAll names
  | notBinary code => code.text ++ " is not a binary operator"
  | notFunction code => code.text ++ " is not a unary operator"
  | twoOperandsNeeded op => "binary operator '" ++ op.symbol ++ "' needs two operands"
  | argumentNeeded op => "function '" ++ op.symbol ++ "' needs an argument"
  | negativeIndex i => "variable index must be non-negative, got " ++ toString i
  | indexOutsideTable i n =>
    "variable index " ++ toString i ++ " outside the variable table of size " ++ toString n
  | operandMissing => "binary node is missing an operand"
  | argumentMissing => "function node is missing its argument"
  | noAlgebra code => "to_sympy reached unexpected binary operation " ++ code.text
  | noOperator code => "no operator table entry for " ++ code.text
  | cannot operation kind => "cannot " ++ operation ++ " node of type " ++ kind
  | binaryCarries code => "binary node carries " ++ code.text
  | functionCarries code => "function node carries " ++ code.text
  | unknownKind kind => "unknown node type " ++ kind
  | nestedTooDeeply operation => operation ++ ": expression is nested too deeply"
  | recursion => "maximum recursion depth exceeded"
  | tooFewValues names given =>
    "expected " ++ toString names.length ++ " values for variables " ++ quoteAll names ++ ", got "
      ++ toString given
  | notAMatrix => "X must be a 1-D or 2-D array"
  | tooFewColumns needed given =>
    "expected " ++ toString needed ++ " columns, got " ++ toString given
  | ragged rows =>
    "setting an array element with a sequence. The requested array has an inhomogeneous shape "
      ++ "after 1 dimensions. The detected shape was (" ++ toString rows
      ++ ",) + inhomogeneous part."
  | badOrder => "order must be a non-negative integer"
  | noPoint => "float() argument must be a string or a real number, not 'list'"
  | badPassLimit => "max_passes must be a positive integer"
  | duplicateNames => "variable names must be unique"
  | badWalkOrder order => "Invalid order: " ++ order
  | badTraversalOrder order => "Invalid traversal_order: " ++ order
  | negativePrecision => "precision must be >= 0"
  | negativeEpsilon => "epsilon must be non-negative"
  | badNestingDepth => "max_nesting_depth must be a positive integer"
  | badSimplifyPasses => "max_simplify_passes must be a positive integer"
  | badNumberPrecision => "number_precision must be None or a non-negative integer"
  | badAssignment item => "expected NAME=VALUE, got '" ++ item ++ "'"
  | notADouble text => "could not convert string to float: " ++ quote text
  | notAnInteger text => "invalid literal for int() with base 10: " ++ quote text
  | undecodable reason => reason
  | formulaNotText => "formula must be a string"
  | noNumber kind =>
    "int() argument must be a string, a bytes-like object or a real number, not '" ++ kind ++ "'"
  | epsilonNotNumeric => "epsilon must be numeric"
  | unknownSetting name =>
    "CalculusSettings.__init__() got an unexpected keyword argument '" ++ name ++ "'"
  | noSymbol code => code.text
  | noVariable name => quote ("Variable '" ++ name ++ "' is not part of this equation")
  | noSlot name => quote name
  | outOfRange => "list index out of range"
  | absentChild => "node has no such child"
  | factorialOverflow => "int too large to convert to float"
  | noSuchFile path => "[Errno 2] No such file or directory: " ++ quote path
  | isDirectory path => "[Errno 21] Is a directory: " ++ quote path
  | notADirectory path => "[Errno 20] Not a directory: " ++ quote path
  | nullInPath => "embedded null byte"

end Fault

/-! ### Forgetting the fault -/

theorem toOption_eq_some {ε β : Type} {r : Except ε β} {v : β} :
    r.toOption = some v ↔ r = .ok v := by
  cases r with
  | error fault => exact iff_of_false nofun nofun
  | ok w => rw [Except.toOption, Option.some.injEq, Except.ok.injEq]

end FormulaCalculus
