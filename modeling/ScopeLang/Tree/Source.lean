-- SUMMARY: Syntax trees written back as source text.
import ScopeLang.Fault.Cause
import ScopeLang.Text.Quoted

/-! # Trees as source text

`Node.source` writes a tree in the syntax that the parser reads. Operators and
nested assignments are always put in parentheses, so that no reading depends on
precedence, and each level of blocks is indented by four blanks.

A tree built by hand may lack a child; the fault names the first missing one in
the order in which the text is written. A node that is no expression is written
as its label between angle brackets where an expression belongs.
-/

namespace ScopeLang.Node

/-- The indentation of a block level. -/
def indent (depth : Nat) : String :=
  String.join (List.replicate depth "    ")

/-! ## Expressions -/

mutual

/-- An expression. -/
def expressionSource : Node → Except Fault String
  | ⟨tag, text, span, children⟩ =>
    let missing := fun index : Nat => (⟨.missingChild tag index, span⟩ : Fault)
    match tag with
    | .binary op => do
      let left ← expressionSourceAt (missing 0) 0 children
      let right ← expressionSourceAt (missing 1) 1 children
      return "(" ++ left ++ " " ++ op.spelling ++ " " ++ right ++ ")"
    | .number => return text
    | .text => return Text.Quoted.literal text
    | .name => return text
    | .assignment => do
      let inside ← assignmentSource missing children
      return "(" ++ inside ++ ")"
    | .call => do
      let arguments ← argumentSources (missing 0) children
      return text ++ "(" ++ ", ".intercalate arguments ++ ")"
    | _ => return "<" ++ tag.label ++ ">"

/-- The expression at a position among some children. -/
def expressionSourceAt (missing : Fault) : Nat → List Node → Except Fault String
  | _, [] => throw missing
  | 0, n :: _ => expressionSource n
  | i + 1, _ :: ns => expressionSourceAt missing i ns

/-- The target and the value of an assignment. -/
def assignmentSource (missing : Nat → Fault) : List Node → Except Fault String
  | [] => throw (missing 0)
  | target :: rest => do
    let value ← expressionSourceAt (missing 1) 0 rest
    return target.text ++ " = " ++ value

/-- The arguments below the first child of a call. -/
def argumentSources (missing : Fault) : List Node → Except Fault (List String)
  | [] => throw missing
  | ⟨_, _, _, arguments⟩ :: _ => expressionSources arguments

/-- Several expressions. -/
def expressionSources : List Node → Except Fault (List String)
  | [] => return []
  | n :: ns => do
    let first ← expressionSource n
    return first :: (← expressionSources ns)

end

/-! ## Statements -/

/-- A header, and a block's lines in braces. -/
def braced (pad header body : String) : String :=
  header ++ " \x7b\n" ++ body ++ pad ++ "\x7d"

/-- The header of a function. -/
def functionHeader (name : String) (parameters : Node) : String :=
  "function " ++ name ++ "(" ++ ", ".intercalate (parameters.children.map Node.text) ++ ")"

mutual

/-- The lines of a statement, which is written as its first child. -/
def statementSource (depth : Nat) : Node → Except Fault String
  | ⟨tag, _, span, children⟩ => firstConstructSource ⟨.missingChild tag 0, span⟩ depth children

/-- The lines of the first of some children. -/
def firstConstructSource (missing : Fault) (depth : Nat) : List Node → Except Fault String
  | [] => throw missing
  | n :: _ => constructSource depth n

/-- The lines of what a statement consists of. -/
def constructSource (depth : Nat) : Node → Except Fault String
  | ⟨tag, text, span, children⟩ =>
    let missing := fun index : Nat => (⟨.missingChild tag index, span⟩ : Fault)
    let pad := indent depth
    match tag with
    | .conditional => do
      let test ← expressionSourceAt (missing 0) 0 children
      let body ← blockSourceAt (missing 1) (depth + 1) 1 children
      let alternative ← alternativeSourceAt depth 2 children
      return pad ++ braced pad ("if (" ++ test ++ ")") body ++ alternative ++ "\n"
    | .loop => do
      let test ← expressionSourceAt (missing 0) 0 children
      let body ← blockSourceAt (missing 1) (depth + 1) 1 children
      return pad ++ braced pad ("while (" ++ test ++ ")") body ++ "\n"
    | .function =>
      match children with
      | [] => throw (missing 0)
      | parameters :: rest => do
        let body ← blockSourceAt (missing 1) (depth + 1) 0 rest
        return pad ++ braced pad (functionHeader text parameters) body ++ "\n"
    | .definition =>
      match children with
      | [] => throw (missing 0)
      | target :: _ => return pad ++ "var " ++ target.text ++ ";\n"
    | .assignment => do
      let inside ← assignmentSource missing children
      return pad ++ inside ++ ";\n"
    | _ => do
      let inside ← expressionSource ⟨tag, text, span, children⟩
      return pad ++ inside ++ ";\n"

/-- The lines of the block at a position among some children. -/
def blockSourceAt (missing : Fault) (depth : Nat) : Nat → List Node → Except Fault String
  | _, [] => throw missing
  | 0, ⟨_, _, _, statements⟩ :: _ => statementSources depth statements
  | i + 1, _ :: ns => blockSourceAt missing depth i ns

/-- The alternative at a position among some children, if there is one. -/
def alternativeSourceAt (depth : Nat) : Nat → List Node → Except Fault String
  | _, [] => return ""
  | 0, ⟨tag, _, span, blocks⟩ :: _ => do
    let body ← blockSourceAt ⟨.missingChild tag 0, span⟩ (depth + 1) 0 blocks
    return braced (indent depth) " else" body
  | i + 1, _ :: ns => alternativeSourceAt depth i ns

/-- The lines of some statements. -/
def statementSources (depth : Nat) : List Node → Except Fault String
  | [] => return ""
  | n :: ns => do
    let first ← statementSource depth n
    return first ++ (← statementSources depth ns)

end

/-- A tree as source text. -/
def source (n : Node) : Except Fault String :=
  match n.tag with
  | .program | .block => statementSources 0 n.children
  | .statement => statementSource 0 n
  | _ => expressionSource n

end ScopeLang.Node
