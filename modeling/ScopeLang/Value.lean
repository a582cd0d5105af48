-- SUMMARY: Run-time values: integers, strings, functions, intrinsics and the unit.
import ScopeLang.Fault.Cause
import ScopeLang.Intrinsic
import ScopeLang.Text.Inspect

/-! # Values

A function value remembers the scope it was created in; the free names of its
body are looked up from there. Each creation makes a new function: functions
are told apart by the scope they belong to and by their number among the
functions created in it, and never by name, parameters or body.
-/

namespace ScopeLang

/-- The number of a run-time scope. -/
abbrev ScopeId := Nat

/-- A function together with the scope it was created in. -/
structure Closure where
  name : String
  parameters : List String
  body : Node
  home : ScopeId
  /-- How many functions its home had created before. -/
  serial : Nat
  deriving Repr

/-- A run-time value. -/
inductive Value
  | int (n : Int64)
  | str (s : String)
  | function (f : Closure)
  | intrinsic (i : Intrinsic)
  | unit
  deriving Repr

/-- Whether two functions are the same creation. -/
def Closure.same (f g : Closure) : Bool :=
  f.home == g.home && f.serial == g.serial

namespace Value

/-- Truth values are the integers one and zero. -/
def ofBool (b : Bool) : Value :=
  .int (if b then 1 else 0)

def type : Value → ValueType
  | .int _ => .integer
  | .str _ => .string
  | .function _ => .function
  | .intrinsic _ => .intrinsic
  | .unit => .unit

/-- Whether two values are the same. -/
def same : Value → Value → Bool
  | .int a, .int b => a == b
  | .str a, .str b => a == b
  | .function f, .function g => f.same g
  | .intrinsic i, .intrinsic j => i == j
  | .unit, .unit => true
  | _, _ => false

/-- The integer of a value that is used as an operand; any other value is a fault there. -/
def asInteger (v : Value) (span : Span) : Except Fault Int64 :=
  match v with
  | .int n => .ok n
  | v => .error ⟨.nonNumericOperand v.type, span⟩

/-- How a value is written to the output. -/
def render : Value → String
  | .int n => Decimal.render n
  | .str s => s
  | .function f => "<function " ++ f.name ++ ">"
  | .intrinsic i => "<intrinsic " ++ i.name ++ ">"
  | .unit => "<unit>"

/-! ## Inspection -/

/-- Some names, quoted, in brackets. -/
def inspectNames (names : List String) : String :=
  "[" ++ ", ".intercalate (names.map Text.inspect) ++ "]"

def inspectIntrinsic : Intrinsic → String
  | .print => "Print"
  | .println => "Println"
  | .readint => "ReadInt"

/-- The form of a value that shows its type, for debugging. -/
def inspect : Value → String
  | .int n => "Int(" ++ Decimal.render n ++ ")"
  | .str s => "Str(" ++ Text.inspect s ++ ")"
  | .function f =>
    "Function(Function \x7b name: " ++ Text.inspect f.name ++ ", params: "
      ++ inspectNames f.parameters ++ ", .. \x7d)"
  | .intrinsic i => "Intrinsic(" ++ inspectIntrinsic i ++ ")"
  | .unit => "Unit"

end Value

end ScopeLang
