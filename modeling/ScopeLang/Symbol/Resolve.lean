-- SUMMARY: Name resolution: every name of a tree must be declared where it is used.
import ScopeLang.Fault.Cause
import ScopeLang.Intrinsic
import ScopeLang.Symbol.Table

/-! # Name resolution

Resolution walks a tree once, from left to right, with the table of the regions
around it. Definitions and functions declare their name in the innermost
region, blocks and functions open a region of their own, and every other name
must refer to a declaration. A function is declared before its body is walked,
so the body may call it.
-/

namespace ScopeLang

namespace SymbolTable

/-- The table before a program: its global region holds the intrinsics. -/
def initial : SymbolTable :=
  Intrinsic.all.foldl (fun t i => t.declare ⟨i.name, .intrinsic, .nowhere, 0⟩) {}

/-- Declare the parameters of a function. -/
def declareParameters (t : SymbolTable) (parameters : List Node) : SymbolTable :=
  parameters.foldl (fun t p => t.declare ⟨p.text, .parameter, p.span, 0⟩) t

/-- A use of a name refers to a declaration, or is a fault. -/
def resolve (t : SymbolTable) (name : String) (span : Span) : Except Fault Unit :=
  match t.lookup name with
  | some _ => .ok ()
  | none => .error ⟨.undefinedName name, span⟩

mutual

/-- Walk a tree; the result is the table after it. -/
def walk (t : SymbolTable) : Node → Except Fault SymbolTable
  | ⟨tag, text, span, children⟩ =>
    let missing := fun index : Nat => (⟨.missingChild tag index, span⟩ : Fault)
    match tag with
    | .name => do
      t.resolve text span
      return t
    | .call => do
      t.resolve text span
      walkAll t children
    | .definition =>
      match children with
      | [] => throw (missing 0)
      | target :: _ => return t.declare ⟨target.text, .var, target.span, 0⟩
    | .conditional => do
      let t ← walkAt t (missing 0) 0 children
      let t ← walkAt (t.push .block) (missing 1) 1 children
      walkRest t.pop 2 children
    | .alternative => do
      let t ← walkAt (t.push .block) (missing 0) 0 children
      return t.pop
    | .loop => do
      let t ← walkAt t (missing 0) 0 children
      let t ← walkAt (t.push .block) (missing 1) 1 children
      return t.pop
    | .function => do
      let t := t.declare ⟨text, .function, span, 0⟩
      let t ← walkAt (t.push .function) (missing 0) 0 children
      let t ← walkAt t (missing 1) 1 children
      return t.pop
    | .parameters => return t.declareParameters children
    | _ => walkAll t children

/-- Walk some trees one after another. -/
def walkAll (t : SymbolTable) : List Node → Except Fault SymbolTable
  | [] => return t
  | n :: ns => do
    let t ← walk t n
    walkAll t ns

/-- Walk the tree at a position among some children. -/
def walkAt (t : SymbolTable) (missing : Fault) : Nat → List Node → Except Fault SymbolTable
  | _, [] => throw missing
  | 0, n :: _ => walk t n
  | i + 1, _ :: ns => walkAt t missing i ns

/-- Walk the tree at a position among some children, if there is one. -/
def walkRest (t : SymbolTable) : Nat → List Node → Except Fault SymbolTable
  | _, [] => return t
  | 0, n :: _ => walk t n
  | i + 1, _ :: ns => walkRest t i ns

end

end SymbolTable

/-- Resolve every name of a tree. The table that results has the global names. -/
def analyze (root : Node) : Except Fault SymbolTable :=
  SymbolTable.initial.walk root

end ScopeLang
