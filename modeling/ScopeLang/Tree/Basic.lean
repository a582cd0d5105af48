-- SUMMARY: Syntax trees: tags, nodes, and the shape of a tree.
import ScopeLang.Operator
import ScopeLang.Span

/-! # Syntax trees

A `Node` has a tag, a text, a span and children. Which children a tag calls for
is a matter of the trees that the grammar builds and not of the type: a tree
put together by hand may lack a child or have one too many, and every function
on trees says what it does with it.

| tag | children | text |
|---|---|---|
| `number`, `text`, `name` | none | digits, content, spelling |
| `binary op` | two operands | |
| `statement` | one expression, definition, conditional, loop or function | |
| `block`, `program` | one or more statements | |
| `definition` | a name | |
| `assignment` | a name, a value | |
| `conditional` | a condition, a block, and maybe an alternative | |
| `alternative` | a block | |
| `loop` | a condition, a block | |
| `function` | parameters, a block | its name |
| `call` | arguments | the callee |
| `parameters` | any number of names | |
| `arguments` | any number of expressions | |
-/

namespace ScopeLang

/-- What a node stands for. -/
inductive Tag
  | number
  | text
  | name
  | binary (op : Operator)
  | statement
  | block
  | definition
  | assignment
  | conditional
  | alternative
  | loop
  | function
  | call
  | arguments
  | parameters
  | program
  deriving DecidableEq, Repr

namespace Tag

def arithmeticLabel : Arithmetic → String
  | .add => "ADD"
  | .sub => "SUB"
  | .mul => "MULTIPLY"
  | .div => "DIVIDE"

def comparisonLabel : Comparison → String
  | .greater => "GREATER_THAN"
  | .less => "LESS_THAN"
  | .greaterEqual => "GREATER_THAN_OR_EQUAL"
  | .lessEqual => "LESS_THAN_OR_EQUAL"
  | .equal => "EQUAL"
  | .notEqual => "NOT_EQUAL"

def connectiveLabel : Connective → String
  | .and => "LOGICAL_AND"
  | .or => "LOGICAL_OR"

/-- The label under which a tag is shown. -/
def label : Tag → String
  | .number => "INT_LITERAL"
  | .text => "STR_LITERAL"
  | .name => "VARREF"
  | .binary (.arithmetic op) => arithmeticLabel op
  | .binary (.comparison op) => comparisonLabel op
  | .binary (.connective op) => connectiveLabel op
  | .statement => "STATEMENT"
  | .block => "STATEMENT_LIST"
  | .definition => "DEFINITION"
  | .assignment => "ASSIGNMENT"
  | .conditional => "IF"
  | .alternative => "ELSE"
  | .loop => "WHILE"
  | .function => "FUNCTION"
  | .call => "FNCALL"
  | .arguments => "ARGLIST"
  | .parameters => "PARAMETER_LIST"
  | .program => "UNIT"

/-- Every tag. -/
def all : List Tag :=
  [.number, .text, .name,
   .binary (.arithmetic .add), .binary (.arithmetic .sub), .binary (.arithmetic .mul),
   .binary (.arithmetic .div), .binary (.comparison .greater), .binary (.comparison .less),
   .binary (.comparison .greaterEqual), .binary (.comparison .lessEqual),
   .binary (.comparison .equal), .binary (.comparison .notEqual),
   .binary (.connective .and), .binary (.connective .or),
   .statement, .block, .definition, .assignment, .conditional, .alternative, .loop,
   .function, .call, .arguments, .parameters, .program]

/-- The tag with the given label. -/
def ofLabel? (s : String) : Option Tag :=
  all.find? (·.label == s)

/-- The operator of an operator tag. -/
def operator? : Tag → Option Operator
  | .binary op => some op
  | _ => none

end Tag

/-- A syntax tree. -/
structure Node where
  tag : Tag
  /-- A name, or the text of a literal; empty for the other tags. -/
  text : String
  /-- Where the construct is found in the source text. -/
  span : Span
  children : List Node
  deriving Repr

/-- A tree without its texts and places. -/
inductive Shape
  | node (tag : Tag) (parts : List Shape)
  deriving Repr

namespace Node

/-- A node without children. -/
def leaf (tag : Tag) (text : String) (span : Span) : Node :=
  ⟨tag, text, span, []⟩

/-- A node without a text. -/
def inner (tag : Tag) (span : Span) (children : List Node) : Node :=
  ⟨tag, "", span, children⟩

/-- How a node is shown: its label, and its text if it has one. -/
def label (n : Node) : String :=
  if n.text.isEmpty then n.tag.label else n.tag.label ++ "[" ++ n.text ++ "]"

/-- The descendant that a list of child positions leads to. -/
def at? (n : Node) : List Nat → Option Node
  | [] => some n
  | i :: path => (n.children[i]?).bind fun child => child.at? path

mutual

/-- Every node of a tree with its depth below `depth`, a parent before its children. -/
def preorder (depth : Nat) : Node → List (Nat × Node)
  | ⟨tag, text, span, children⟩ => (depth, ⟨tag, text, span, children⟩) :: preorderAll (depth + 1) children

def preorderAll (depth : Nat) : List Node → List (Nat × Node)
  | [] => []
  | n :: ns => preorder depth n ++ preorderAll depth ns

end

mutual

/-- The shape of a tree. -/
def shape : Node → Shape
  | ⟨tag, _, _, children⟩ => .node tag (shapes children)

def shapes : List Node → List Shape
  | [] => []
  | n :: ns => shape n :: shapes ns

end

end Node

namespace Shape

mutual

/-- Whether two shapes are the same. -/
def same : Shape → Shape → Bool
  | .node t ps, .node u qs => t == u && sameAll ps qs

def sameAll : List Shape → List Shape → Bool
  | [], [] => true
  | p :: ps, q :: qs => same p q && sameAll ps qs
  | _, _ => false

end

mutual

theorem same_iff : ∀ p q : Shape, same p q = true ↔ p = q
  | .node t ps, .node u qs => by
    simp only [same, Bool.and_eq_true, beq_iff_eq, node.injEq, sameAll_iff ps qs]

theorem sameAll_iff : ∀ ps qs : List Shape, sameAll ps qs = true ↔ ps = qs
  | [], [] => by simp [sameAll]
  | [], _ :: _ => by simp [sameAll]
  | _ :: _, [] => by simp [sameAll]
  | p :: ps, q :: qs => by
    simp only [sameAll, Bool.and_eq_true, List.cons.injEq, same_iff p q, sameAll_iff ps qs]

end

instance : DecidableEq Shape := fun p q => decidable_of_iff _ (same_iff p q)

mutual

/-- A shape is written as its tag, followed by its parts in parentheses if it has any. -/
def render : Shape → String
  | .node tag [] => tag.label
  | .node tag (p :: ps) => tag.label ++ "(" ++ render p ++ renderRest ps ++ ")"

def renderRest : List Shape → String
  | [] => ""
  | p :: ps => " " ++ render p ++ renderRest ps

end

end Shape

end ScopeLang
