-- SUMMARY: Programs: compiled from a source text and run with a console.
import ScopeLang.Eval
import ScopeLang.Symbol.Resolve
import ScopeLang.Tree.Parse

/-! # Programs

A source text compiles to a program when it parses and every name in it refers
to a declaration, so that an undefined name is reported before anything runs. A
program is run by evaluating its tree in the global scope of a new machine.
-/

namespace ScopeLang

/-- A tree whose names all refer to declarations. -/
structure Program where
  root : Node
  symbols : SymbolTable
  deriving Repr

/-- Compile a source text. -/
def compile (source : String) : Except Fault Program := do
  let root ← parse source
  let symbols ← analyze root
  return ⟨root, symbols⟩

/-- A machine whose global scope holds the intrinsics and nothing else. -/
def Machine.initial (console : Console) : Machine :=
  ⟨.initial, console⟩

/-- Evaluate a tree in the global scope. -/
def execute (fuel : Nat) (root : Node) : Exec Value :=
  eval fuel root Store.globalId

/-- How a run ends. -/
inductive Ending
  /-- With a value, as it is written. -/
  | value (text : String)
  | fault (f : Fault)
  /-- Not within its fuel. -/
  | outOfFuel
  deriving DecidableEq, Repr

/-- How a run ended, and its console then. -/
structure Outcome where
  ending : Ending
  console : Console
  deriving DecidableEq, Repr

/-- Run a program with a console. -/
def Program.run (fuel : Nat) (p : Program) (console : Console) : Outcome :=
  match (execute fuel p.root).run (Machine.initial console) with
  | .ok v m => ⟨.value v.render, m.console⟩
  | .error (.fault f) m => ⟨.fault f, m.console⟩
  | .error .outOfFuel m => ⟨.outOfFuel, m.console⟩

/-- Compile and run a source text with a console. -/
def run (fuel : Nat) (source : String) (console : Console) : Outcome :=
  match compile source with
  | .ok p => p.run fuel console
  | .error f => ⟨.fault f, console⟩

end ScopeLang
