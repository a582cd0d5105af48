-- SUMMARY: What can go wrong, with the code and message of each cause, and faults as located causes.
import ScopeLang.Fault.Code
import ScopeLang.Text.Bytes
import ScopeLang.Text.Decimal
import ScopeLang.Token.Basic
import ScopeLang.Tree.Basic

/-! # Faults

A `Fault` is a `Cause` at a place. A cause keeps the facts it is about, such as
the lexeme that was found and the one that was wanted, so that a phase never
writes a message: `Cause.code` and `Cause.message` are the only places where
codes and wordings are chosen.
-/

namespace ScopeLang

/-- What the grammar was looking for. -/
inductive Wanted
  | statement
  | expression
  | name
  | lexeme (l : Lexeme)
  deriving DecidableEq, Repr

/-- The types of run-time values. -/
inductive ValueType
  | integer
  | string
  | function
  | intrinsic
  | unit
  deriving DecidableEq, Repr

/-- Why the console refused to read or write. -/
inductive ConsoleFailure
  /-- A line of the input is not valid UTF-8. -/
  | notText
  /-- The output takes no more bytes. -/
  | full
  deriving DecidableEq, Repr

/-- What went wrong. -/
inductive Cause
  | unexpectedByte (b : UInt8)
  /-- Only the first character of a two-character operator. -/
  | bareOperator (whole : Operator)
  | unterminatedString
  | unknownEscape (b : UInt8)
  | unexpectedToken (found : Lexeme) (wanted : Wanted)
  | prematureEnd (wanted : Wanted)
  | undefinedName (name : String)
  | divisionByZero
  | nonNumericOperand (found : ValueType)
  | nonNumericCondition (construct : Keyword) (found : ValueType)
  | argumentCount (callee : String) (wanted got : Nat)
  | notCallable (name : String) (found : ValueType)
  | outputFailed (why : ConsoleFailure)
  | inputFailed (why : ConsoleFailure)
  | inputEnded
  | notAnInteger (word : String)
  | unassignedName (name : String)
  | literalOutOfRange (digits : String)
  | overflow (left : Int64) (op : Arithmetic) (right : Int64)
  | missingChild (tag : Tag) (index : Nat)
  | notEvaluable (tag : Tag)
  deriving DecidableEq, Repr

/-- A cause at a place. -/
structure Fault where
  cause : Cause
  span : Span
  deriving DecidableEq, Repr

/-! ## Wording -/

/-- A text between backquotes. -/
def backquoted (s : String) : String :=
  "`" ++ s ++ "`"

def Wanted.render : Wanted → String
  | .statement => "statement"
  | .expression => "primary expression"
  | .name => "identifier"
  | .lexeme l => backquoted l.render

def ValueType.name : ValueType → String
  | .integer => "integer"
  | .string => "string"
  | .function => "function"
  | .intrinsic => "intrinsic"
  | .unit => "unit"

def ConsoleFailure.message : ConsoleFailure → String
  | .notText => "stream did not contain valid UTF-8"
  | .full => "failed to write whole buffer"

namespace Cause

/-- The code under which a cause is reported. -/
def code : Cause → Code
  | .unexpectedByte _ | .bareOperator _ => .unexpectedCharacter
  | .unterminatedString => .unterminatedString
  | .unknownEscape _ => .unknownEscape
  | .unexpectedToken _ _ => .unexpectedToken
  | .prematureEnd _ => .prematureEnd
  | .undefinedName _ => .undefinedName
  | .divisionByZero => .divisionByZero
  | .nonNumericOperand _ | .nonNumericCondition _ _ => .nonNumeric
  | .argumentCount _ _ _ => .argumentCount
  | .notCallable _ _ => .notCallable
  | .outputFailed _ | .inputFailed _ | .inputEnded | .notAnInteger _ => .console
  | .unassignedName _ => .unassignedName
  | .literalOutOfRange _ | .overflow _ _ _ => .outOfRange
  | .missingChild _ _ | .notEvaluable _ => .malformedTree

/-- A token that the grammar does not allow where it stands. -/
def unexpectedTokenMessage (found : Lexeme) : Wanted → String
  | .expression => "invalid primary expression, found " ++ backquoted found.render
  | wanted => "unexpected token " ++ backquoted found.render ++ ", expected " ++ wanted.render

/-- The plural ending that goes with a count. -/
def plural (n : Nat) : String :=
  if n = 1 then "" else "s"

/-- The wording of a cause. -/
def message : Cause → String
  | .unexpectedByte b => "unexpected character " ++ backquoted (Text.ofCodes [b])
  | .bareOperator whole =>
    "expected " ++ backquoted whole.spelling ++ ", bare "
      ++ backquoted (String.ofList (whole.spelling.toList.take 1)) ++ " is not valid"
  | .unterminatedString => "unterminated string literal"
  | .unknownEscape b => "unknown escape sequence " ++ backquoted ("\\" ++ Text.ofCodes [b])
  | .unexpectedToken found wanted => unexpectedTokenMessage found wanted
  | .prematureEnd wanted => "unexpected end of input looking for " ++ wanted.render
  | .undefinedName name => "undefined reference to name '" ++ name ++ "'"
  | .divisionByZero => "attempt to divide by 0"
  | .nonNumericOperand found => "non-numeric operand: expected integer, got " ++ found.name
  | .nonNumericCondition construct found =>
    construct.spelling ++ " condition must be an integer, got " ++ found.name
  | .argumentCount callee wanted got =>
    backquoted callee ++ " expects " ++ toString wanted ++ " argument" ++ plural wanted
      ++ ", got " ++ toString got
  | .notCallable name found =>
    backquoted name ++ " is not callable (it holds a " ++ found.name ++ ")"
  | .outputFailed why => "output failed: " ++ why.message
  | .inputFailed why => "input failed: " ++ why.message
  | .inputEnded => "readint: end of input"
  | .notAnInteger word => "readint: " ++ backquoted word ++ " is not an integer"
  | .unassignedName name => "variable '" ++ name ++ "' read before assignment"
  | .literalOutOfRange digits => "integer literal " ++ backquoted digits ++ " out of range"
  | .overflow left op right =>
    "integer overflow in "
      ++ backquoted (Decimal.render left ++ " " ++ op.spelling ++ " " ++ Decimal.render right)
  | .missingChild tag index =>
    "malformed " ++ tag.label ++ " node: missing child " ++ toString index
  | .notEvaluable tag => tag.label ++ " cannot be evaluated on its own"

end Cause

namespace Fault

def code (f : Fault) : Code :=
  f.cause.code

def message (f : Fault) : String :=
  f.cause.message

/-- What a user is shown. -/
def report (f : Fault) : Report :=
  ⟨f.code, f.span, f.message⟩

end Fault

/-- The fault of a node that lacks child `index`. -/
def Node.missing (n : Node) (index : Nat) : Fault :=
  ⟨.missingChild n.tag index, n.span⟩

/-- Child `index` of a node, which a malformed node may lack. -/
def Node.kid (n : Node) (index : Nat) : Except Fault Node :=
  match n.children[index]? with
  | some child => .ok child
  | none => .error (n.missing index)

end ScopeLang
