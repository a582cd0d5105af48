-- SUMMARY: The binary operators of the language: spelling, families and meaning on integers.

/-! # Operators

The same twelve binary operators appear as lexemes and as inner nodes of an
expression. They fall into three groups, and the meaning of each group is a
function on exact integers: arithmetic computes one, a comparison holds or not,
and a connective may be decided by its left operand alone. Whether a result
still fits a machine word is not decided here.
-/

namespace ScopeLang

/-- Operators that compute an integer. -/
inductive Arithmetic
  | add
  | sub
  | mul
  | div
  deriving DecidableEq, Repr

/-- Operators that compare two integers. -/
inductive Comparison
  | greater
  | less
  | greaterEqual
  | lessEqual
  | equal
  | notEqual
  deriving DecidableEq, Repr

/-- Operators on truth values, where zero is false and all else is true. -/
inductive Connective
  | and
  | or
  deriving DecidableEq, Repr

/-- A binary operator. -/
inductive Operator
  | arithmetic (op : Arithmetic)
  | comparison (op : Comparison)
  | connective (op : Connective)
  deriving DecidableEq, Repr

/-! ## Spelling -/

def Arithmetic.spelling : Arithmetic → String
  | .add => "+"
  | .sub => "-"
  | .mul => "*"
  | .div => "/"

def Comparison.spelling : Comparison → String
  | .greater => ">"
  | .less => "<"
  | .greaterEqual => ">="
  | .lessEqual => "<="
  | .equal => "=="
  | .notEqual => "!="

def Connective.spelling : Connective → String
  | .and => "&&"
  | .or => "||"

/-- How an operator is written in a source text. -/
def Operator.spelling : Operator → String
  | .arithmetic op => op.spelling
  | .comparison op => op.spelling
  | .connective op => op.spelling

/-! ## Families -/

namespace Operator

def isArithmetic : Operator → Bool
  | .arithmetic _ => true
  | _ => false

def isComparison : Operator → Bool
  | .comparison _ => true
  | _ => false

def isConnective : Operator → Bool
  | .connective _ => true
  | _ => false

/-- Sums and differences, the weaker of the two arithmetic levels. -/
def isAdditive : Operator → Bool
  | .arithmetic .add | .arithmetic .sub => true
  | _ => false

/-- Products and quotients, the stronger of the two arithmetic levels. -/
def isMultiplicative : Operator → Bool
  | .arithmetic .mul | .arithmetic .div => true
  | _ => false

end Operator

/-! ## Meaning -/

/-- The exact result; a quotient is cut off toward zero. -/
def Arithmetic.exact : Arithmetic → Int → Int → Int
  | .add, l, r => l + r
  | .sub, l, r => l - r
  | .mul, l, r => l * r
  | .div, l, r => l.tdiv r

/-- Whether a comparison holds. -/
def Comparison.holds : Comparison → Int → Int → Bool
  | .greater, l, r => l > r
  | .less, l, r => l < r
  | .greaterEqual, l, r => l ≥ r
  | .lessEqual, l, r => l ≤ r
  | .equal, l, r => l = r
  | .notEqual, l, r => l ≠ r

/-- Whether the left operand alone settles the result, which is then the left operand. -/
def Connective.isDecidedBy : Connective → Bool → Bool
  | .and, l => !l
  | .or, l => l

end ScopeLang
