-- SUMMARY: The functions that every program starts with.

/-! # Intrinsics

Three functions are defined before a program starts: two that write a value and
one that reads an integer. Their names may be redefined like any other.
-/

namespace ScopeLang

/-- A function that the language provides. -/
inductive Intrinsic
  /-- Write a value. -/
  | print
  /-- Write a value and a line feed. -/
  | println
  /-- Read an integer. -/
  | readint
  deriving DecidableEq, Repr

namespace Intrinsic

/-- Every intrinsic, in the order of their definition. -/
def all : List Intrinsic :=
  [.print, .println, .readint]

/-- The name under which an intrinsic is defined. -/
def name : Intrinsic → String
  | .print => "print"
  | .println => "println"
  | .readint => "readint"

/-- How many arguments an intrinsic takes. -/
def arity : Intrinsic → Nat
  | .print | .println => 1
  | .readint => 0

/-- The intrinsic of a name. -/
def ofName? (name : String) : Option Intrinsic :=
  all.find? (·.name == name)

theorem ofName?_name (i : Intrinsic) : ofName? i.name = some i := by
  cases i <;> decide

end Intrinsic

end ScopeLang
