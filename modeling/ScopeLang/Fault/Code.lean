-- SUMMARY: Fault codes, the phases they belong to, and the text of a report.
import ScopeLang.Span

/-! # Codes and reports

Every fault has a code, a code belongs to one phase, and a `Report` is what a
user is shown of a fault: its code, its place and a message.
-/

namespace ScopeLang

/-- The phase that finds a fault. -/
inductive Phase
  | lexical
  | syntactic
  | semantic
  | evaluation
  | internal
  deriving DecidableEq, Repr

/-- How a phase is named in front of its faults. -/
def Phase.title : Phase → String
  | .lexical => "Lexical error"
  | .syntactic => "Syntax error"
  | .semantic => "Semantic error"
  | .evaluation => "Evaluation error"
  | .internal => "Runtime error"

/-- The kinds of fault that a user can tell apart. -/
inductive Code
  | unexpectedCharacter
  | unterminatedString
  | unknownEscape
  | unexpectedToken
  | prematureEnd
  | undefinedName
  | divisionByZero
  | nonNumeric
  | argumentCount
  | notCallable
  | console
  | unassignedName
  | outOfRange
  | malformedTree
  deriving DecidableEq, Repr

namespace Code

/-- Every code, phase by phase. -/
def all : List Code :=
  [.unexpectedCharacter, .unterminatedString, .unknownEscape, .unexpectedToken, .prematureEnd,
   .undefinedName, .divisionByZero, .nonNumeric, .argumentCount, .notCallable, .console,
   .unassignedName, .outOfRange, .malformedTree]

/-- The short label of a code; its letter stands for the phase. -/
def label : Code → String
  | .unexpectedCharacter => "L001"
  | .unterminatedString => "L002"
  | .unknownEscape => "L003"
  | .unexpectedToken => "P001"
  | .prematureEnd => "P002"
  | .undefinedName => "S001"
  | .divisionByZero => "E001"
  | .nonNumeric => "E002"
  | .argumentCount => "E003"
  | .notCallable => "E004"
  | .console => "E005"
  | .unassignedName => "E006"
  | .outOfRange => "E007"
  | .malformedTree => "R001"

/-- The code with the given label. -/
def ofLabel? (s : String) : Option Code :=
  all.find? (·.label == s)

/-- The phase that raises a code. -/
def phase : Code → Phase
  | .unexpectedCharacter | .unterminatedString | .unknownEscape => .lexical
  | .unexpectedToken | .prematureEnd => .syntactic
  | .undefinedName => .semantic
  | .divisionByZero | .nonNumeric | .argumentCount | .notCallable | .console
  | .unassignedName | .outOfRange => .evaluation
  | .malformedTree => .internal

theorem ofLabel?_label (c : Code) : ofLabel? c.label = some c := by
  cases c <;> decide

end Code

/-- What a user is shown of a fault. -/
structure Report where
  code : Code
  span : Span
  message : String
  deriving DecidableEq, Repr

/-- A report is written `line:column: phase [code]: message`. -/
def Report.render (r : Report) : String :=
  r.span.render ++ ": " ++ r.code.phase.title ++ " [" ++ r.code.label ++ "]: " ++ r.message

end ScopeLang
