-- SUMMARY: Evaluation of syntax trees in a store of scopes, with a console.
import ScopeLang.Console
import ScopeLang.Store

/-! # Evaluation

Evaluating a node in a scope yields a value or stops with a fault; either way
the machine keeps what has been done to its store and its console. A tree need
not be well formed: a missing child is a fault of the node that lacks it, at
the moment the child is called for.

Programs may run forever, so `eval` takes fuel. Fuel bounds the depth of nested
evaluations and the number of rounds of a single loop; a run that ends does not
depend on how much fuel it was given beyond what it needs. `step` is one level
of evaluation as a function of the level below.

A construct that uses a name or writes has a definition that ends in `With`,
where what is done to that end is a parameter. `step` has the plain actions
there; an evaluation that differs in them alone shares the rest.
-/

namespace ScopeLang

/-- What evaluation works on. -/
structure Machine where
  store : Store
  console : Console
  deriving Repr

/-- Why evaluation stopped without a value. -/
inductive Stop
  | fault (f : Fault)
  | outOfFuel
  deriving DecidableEq, Repr

/-- An action on the machine, which keeps its effects when it stops early. -/
abbrev Exec (α : Type) := EStateM Stop Machine α

/-! ## Results of operators -/

/-- The result of an arithmetic operator on words: exact, or a cause why there is none. -/
def Arithmetic.compute (op : Arithmetic) (l r : Int64) : Except Cause Int64 :=
  if op = .div ∧ r = 0 then
    .error .divisionByZero
  else
    match Decimal.fit? (op.exact l.toInt r.toInt) with
    | some n => .ok n
    | none => .error (.overflow l op r)

namespace Exec

/-! ## Machine actions -/

/-- Stop with a fault. -/
def fail {α : Type} (cause : Cause) (span : Span) : Exec α :=
  throw (.fault ⟨cause, span⟩)

/-- A result, or the fault it is not. -/
def ofExcept {α : Type} : Except Fault α → Exec α
  | .ok a => pure a
  | .error f => throw (.fault f)

/-- Child `index` of a node. -/
def kid (n : Node) (index : Nat) : Exec Node :=
  ofExcept (n.kid index)

/-- Change the store. -/
def updateStore (f : Store → Store) : Exec Unit :=
  modify fun m => { m with store := f m.store }

/-- Create a scope inside another one. -/
def newScope (parent : ScopeId) : Exec ScopeId :=
  modifyGet fun m =>
    let (id, store) := m.store.child parent
    (id, { m with store := store })

/-- Create a function in a scope. -/
def newFunction (home : ScopeId) (name : String) (parameters : List String) (body : Node) :
    Exec Closure :=
  modifyGet fun m =>
    let (closure, store) := m.store.close home name parameters body
    (closure, { m with store := store })

/-- The value of a name used at a place. -/
def readName (env : ScopeId) (name : String) (span : Span) : Exec Value := do
  match (← get).store.lookup env name with
  | .assigned v => return v
  | .unassigned => fail (.unassignedName name) span
  | .undefined => fail (.undefinedName name) span

/-- Write a text for a call at a place. -/
def write (text : String) (span : Span) : Exec Unit := do
  let outcome ← modifyGet fun m =>
    let (outcome, console) := m.console.write text
    (outcome, { m with console := console })
  match outcome with
  | .ok () => return ()
  | .error why => fail (.outputFailed why) span

/-- Read an integer for a call at a place. -/
def readInteger (span : Span) : Exec Int64 := do
  let outcome ← modifyGet fun m =>
    let (outcome, console) := m.console.readWord
    (outcome, { m with console := console })
  match outcome with
  | .error why => fail (.inputFailed why) span
  | .ok none => fail .inputEnded span
  | .ok (some word) =>
    match Decimal.read? word with
    | some n => return n
    | none => fail (.notAnInteger word) span

/-- Call an intrinsic that writes by way of `write`. -/
def callIntrinsicWith (write : String → Span → Exec Unit) (i : Intrinsic)
    (arguments : List Value) (span : Span) : Exec Value :=
  match i, arguments with
  | .print, [v] => do
    write v.render span
    return .unit
  | .println, [v] => do
    write (v.render ++ "\n") span
    return .unit
  | .readint, [] => do
    return .int (← readInteger span)
  | i, arguments => fail (.argumentCount i.name i.arity arguments.length) span

/-- Call an intrinsic. -/
def callIntrinsic (i : Intrinsic) (arguments : List Value) (span : Span) : Exec Value :=
  callIntrinsicWith write i arguments span

/-- Run a body as long as a test holds, for at most so many rounds. -/
def repeatWhile (test : Exec Bool) (body : Exec Unit) : Nat → Exec Unit
  | 0 => throw .outOfFuel
  | rounds + 1 => do
    if ← test then
      body
      repeatWhile test body rounds

/-! ## Constructs

Each construct is evaluated by way of `eval`, which evaluates what nests in it. -/

section Constructs

variable (eval : Node → ScopeId → Exec Value)

/-- The integer of an operand. -/
def operand (n : Node) (env : ScopeId) : Exec Int64 := do
  let v ← eval n env
  ofExcept (v.asInteger n.span)

/-- The operands of an operator are evaluated from left to right; a connective
skips its right operand when the left one decides. -/
def binary (op : Operator) (n : Node) (env : ScopeId) : Exec Value := do
  let left ← kid n 0
  let right ← kid n 1
  let l ← operand eval left env
  match op with
  | .connective op =>
    if op.isDecidedBy (l != 0) then
      return .ofBool (l != 0)
    else
      let r ← operand eval right env
      return .ofBool (r != 0)
  | .comparison op =>
    let r ← operand eval right env
    return .ofBool (op.holds l.toInt r.toInt)
  | .arithmetic op =>
    let r ← operand eval right env
    match op.compute l r with
    | .ok v => return .int v
    | .error cause => fail cause n.span

/-- Statements one after another; the value is that of the last one. -/
def sequence (statements : List Node) (env : ScopeId) : Exec Value :=
  statements.foldlM (fun _ n => eval n env) .unit

/-- A block in a scope of its own. -/
def inNewScope (block : Node) (env : ScopeId) : Exec Value := do
  let inner ← newScope env
  eval block inner

/-- Whether a condition holds. -/
def condition (construct : Keyword) (test : Node) (env : ScopeId) : Exec Bool := do
  match ← eval test env with
  | .int n => return n != 0
  | v => fail (.nonNumericCondition construct v.type) test.span

/-- Call a function: its parameters are bound in a new scope inside its home. -/
def callFunction (f : Closure) (arguments : List Value) (span : Span) : Exec Value := do
  if f.parameters.length = arguments.length then
    let frame ← newScope f.home
    updateStore fun st => st.bindAll frame (f.parameters.zip arguments)
    eval f.body frame
  else
    fail (.argumentCount f.name f.parameters.length arguments.length) span

/-- A call: first the callee, then the arguments from left to right, then what was called. -/
def callWith (callee : Exec Value) (intrinsic : Intrinsic → List Value → Span → Exec Value)
    (n : Node) (env : ScopeId) : Exec Value := do
  let callee ← callee
  let list ← kid n 0
  let arguments ← list.children.mapM fun a => eval a env
  match callee with
  | .function f => callFunction eval f arguments n.span
  | .intrinsic i => intrinsic i arguments n.span
  | v => fail (.notCallable n.text v.type) n.span

/-- A call of what the callee's name stands for. -/
def call (n : Node) (env : ScopeId) : Exec Value :=
  callWith eval (readName env n.text n.span) callIntrinsic n env

/-- An integer literal. -/
def number (n : Node) : Exec Value :=
  match Decimal.read? n.text with
  | some v => return .int v
  | none => fail (.literalOutOfRange n.text) n.span

/-- A definition has no value of its own. -/
def definitionWith (define : String → Exec Unit) (n : Node) : Exec Value := do
  let target ← kid n 0
  define target.text
  return .unit

/-- A definition makes its name an unassigned one of the scope. -/
def definition (n : Node) (env : ScopeId) : Exec Value :=
  definitionWith (fun name => updateStore fun st => st.define env name) n

/-- An assignment assigns once the value is there, and has the value it assigns. -/
def assignmentWith (assign : Node → Value → Exec Unit) (n : Node) (env : ScopeId) :
    Exec Value := do
  let target ← kid n 0
  let source ← kid n 1
  let v ← eval source env
  assign target v
  return v

/-- An assignment changes the scope that owns its target. -/
def assignment (n : Node) (env : ScopeId) : Exec Value :=
  assignmentWith eval (fun target v => updateStore fun st => st.assign env target.text v) n env

/-- A conditional has the value of the branch that is taken. -/
def conditional (n : Node) (env : ScopeId) : Exec Value := do
  let test ← kid n 0
  if ← condition eval .conditional test env then
    let block ← kid n 1
    inNewScope eval block env
  else
    match n.children[2]? with
    | some alternative => eval alternative env
    | none => return .unit

/-- A loop runs its block in a new scope each round. -/
def loop (rounds : Nat) (n : Node) (env : ScopeId) : Exec Value := do
  let test ← kid n 0
  let block ← kid n 1
  repeatWhile (condition eval .loop test env) (discard (inNewScope eval block env)) rounds
  return .unit

/-- A function is created in a scope, and then bound to its name. -/
def functionWith (bind : String → Value → Exec Unit) (n : Node) (env : ScopeId) :
    Exec Value := do
  let parameters ← kid n 0
  let body ← kid n 1
  let f ← newFunction env n.text (parameters.children.map Node.text) body
  bind n.text (.function f)
  return .unit

/-- A function is bound in the scope that it is created in. -/
def function (n : Node) (env : ScopeId) : Exec Value :=
  functionWith (fun name v => updateStore fun st => st.bind env name v) n env

/-- One level of evaluation, with so many rounds for a loop. -/
def step (rounds : Nat) (n : Node) (env : ScopeId) : Exec Value :=
  match n.tag with
  | .number => number n
  | .text => return .str n.text
  | .name => readName env n.text n.span
  | .binary op => binary eval op n env
  | .statement => do
    let inside ← kid n 0
    eval inside env
  | .program | .block => sequence eval n.children env
  | .definition => definition n env
  | .assignment => assignment eval n env
  | .conditional => conditional eval n env
  | .alternative => do
    let block ← kid n 0
    inNewScope eval block env
  | .loop => loop eval rounds n env
  | .function => function n env
  | .call => call eval n env
  | .arguments | .parameters => fail (.notEvaluable n.tag) n.span

end Constructs

end Exec

/-- Evaluate a node in a scope. -/
def eval : Nat → Node → ScopeId → Exec Value
  | 0, _, _ => throw .outOfFuel
  | fuel + 1, n, env => Exec.step (eval fuel) fuel n env

end ScopeLang
