-- SUMMARY: A cursor in a token vector, the parsing procedures as steps that move it, and what it means that they end.
import ScopeLang.Proofs.Grammar

/-! # Cursors

A `Cursor` is an index into a token vector. A `Walk` says step by step what is
done with one: look ahead, take a token, call a routine, and go on with what
came of it.

The walks below are the parsers of `ScopeLang/Tree/Parse.lean` without their
budgets. They call each other, and repeat their loops, for as long as the
tokens tell them to. `Walk.Ends` relates a walk to the answer it has in the
end. It is the least such relation: a walk that reads outside of the vector is
not in it, and neither is one that goes on forever, so that to end is something
to be proved.
-/

namespace ScopeLang

/-! ## Token vectors -/

namespace Token

/-- A token sequence that is given an end of input if it does not end in one. -/
def withEnd (tokens : List Token) : List Token :=
  if tokens.getLast?.any isEnd then tokens else tokens ++ [Stream.endAfter tokens.getLast?]

/-- The tokens up to and including the first end of input. -/
def throughEnd (tokens : List Token) : List Token :=
  (withEnd tokens).take ((withEnd tokens).findIdx isEnd + 1)

end Token

/-- A place in a token vector. -/
structure Cursor where
  tokens : List Token
  position : Nat
  deriving DecidableEq, Repr

namespace Cursor

/-- The token `n` places ahead, the next one being one place ahead. Beyond the
last token there is only that token. -/
def peekNth? (c : Cursor) (n : Nat) : Option Token :=
  c.tokens[min (c.position + (n - 1)) (c.tokens.length - 1)]?

/-- The next token, and the cursor behind it. The cursor stays at the last token. -/
def next? (c : Cursor) : Option (Token × Cursor) := do
  let token ← c.tokens[c.position]?
  if c.position + 1 < c.tokens.length then
    return (token, { c with position := c.position + 1 })
  else
    return (token, c)

/-- The two are in the same vector, and the second is not behind the first. -/
structure Before (c c' : Cursor) : Prop where
  tokens : c.tokens = c'.tokens
  position : c.position ≤ c'.position

theorem Before.refl (c : Cursor) : c.Before c := ⟨rfl, Nat.le_refl _⟩

theorem Before.trans {c₁ c₂ c₃ : Cursor} (h : c₁.Before c₂) (h' : c₂.Before c₃) : c₁.Before c₃ :=
  ⟨h.tokens.trans h'.tokens, Nat.le_trans h.position h'.position⟩

theorem before_next {c c' : Cursor} {t : Token} (h : c.next? = some (t, c')) : c.Before c' := by
  obtain ⟨token, -, hmove⟩ := Option.bind_eq_some_iff.1 h
  split at hmove
  · cases hmove
    exact ⟨rfl, Nat.le_succ _⟩
  · cases hmove
    exact .refl c

end Cursor

/-! ## Walks -/

open Grammar (Level)

/-- The procedures that make up the parser. -/
inductive Procedure
  | program
  | statement
  | block
  | definition
  | conditional
  | loop
  | condition
  | function
  | parameter
  | expression
  | level (l : Level)
  | primary
  | call

/-- What stands between the operators of a level. -/
def Procedure.operand : Level → Procedure
  | .logical => .level .relation
  | .relation => .level .sum
  | .sum => .level .product
  | .product => .primary

/-- What can be called: the procedures, and the loops that are part of them. -/
inductive Routine
  | procedure (q : Procedure)
  /-- `q ("," q)*` -/
  | separated (q : Procedure)
  /-- Statements, up to the first one after which the lexeme comes. -/
  | statementsUntil (l : Lexeme)
  /-- What follows the left operand of a level. -/
  | operations (l : Level) (left : Node)

/-- What a routine yields. -/
@[reducible] def Routine.Value : Routine → Type
  | .procedure _ | .operations _ _ => Node
  | .separated _ | .statementsUntil _ => List Node

/-- The steps up to a value or a fault, each with how it goes on. -/
inductive Walk (α : Type)
  | done (value : α)
  | fail (f : Fault)
  | look (n : Nat) (go : Token → Walk α)
  | take (go : Token → Walk α)
  | call (r : Routine) (go : r.Value → Walk α)

namespace Walk

variable {α β : Type}

/-- One walk after another. -/
def bind : Walk α → (α → Walk β) → Walk β
  | .done value, f => f value
  | .fail e, _ => .fail e
  | .look n go, f => .look n fun token => (go token).bind f
  | .take go, f => .take fun token => (go token).bind f
  | .call r go, f => .call r fun value => (go value).bind f

instance : Monad Walk where
  pure := .done
  bind := .bind

/-- Call a routine. -/
def routine (r : Routine) : Walk r.Value :=
  .call r .done

/-- Call a procedure. -/
def procedure (q : Procedure) : Walk Node :=
  routine (.procedure q)

/-! ## Single tokens -/

/-- The token `n` places ahead. -/
def peekNth (n : Nat) : Walk Token :=
  .look n .done

/-- The next token, left in place. -/
def peek : Walk Token :=
  peekNth 1

/-- Take the next token. -/
def next : Walk Token :=
  .take .done

/-- Whether the next token is the given lexeme. -/
def sees (l : Lexeme) : Walk Bool := do
  return (← peek).lexeme == l

/-- Blame the next token for not being what was wanted. -/
def refuse (wanted : Wanted) : Walk α := do
  let token ← peek
  if token.isEnd then
    .fail ⟨.prematureEnd wanted, token.span⟩
  else
    .fail ⟨.unexpectedToken token.lexeme wanted, token.span⟩

/-- Take the given lexeme; any other is a fault. -/
def expect (l : Lexeme) : Walk Token := do
  if ← sees l then next else refuse (.lexeme l)

/-- Take the given lexeme if it comes next, and say whether it did. -/
def accept (l : Lexeme) : Walk Bool := do
  if ← sees l then
    let _ ← next
    return true
  else
    return false

/-- Take a name; anything else is a fault. -/
def expectName : Walk (String × Span) := do
  let token ← peek
  match token.lexeme with
  | .name spelling =>
    let _ ← next
    return (spelling, token.span)
  | _ => refuse .name

/-! ## Sequences -/

/-- One or more items with a comma after each but the last. -/
def separated (item : Procedure) : Walk (List Node) := do
  let first ← procedure item
  if ← accept (.mark .comma) then
    return first :: (← routine (.separated item))
  else
    return [first]

/-- One or more statements, up to the first one after which the given lexeme comes. -/
def statementsUntil (l : Lexeme) : Walk (List Node) := do
  let first ← procedure .statement
  if ← sees l then
    return [first]
  else
    return first :: (← routine (.statementsUntil l))

/-- A list in parentheses, with the place of the opening one. -/
def parenthesized (item : Procedure) : Walk (List Node × Span) := do
  let opening ← expect (.mark .openParen)
  let items ← if ← sees (.mark .closeParen) then pure [] else routine (.separated item)
  let _ ← expect (.mark .closeParen)
  return (items, opening.span)

/-! ## Expressions -/

/-- The next token's operator, if it belongs to the level. -/
def operatorAhead? (level : Operator → Bool) : Walk (Option Operator) := do
  return ((← peek).lexeme.operator?).filter level

/-- What follows the left operand of a level, grouped to the left. -/
def operations (l : Level) (left : Node) : Walk Node := do
  match ← operatorAhead? l.operators with
  | none => return left
  | some op =>
    let token ← next
    let right ← procedure (.operand l)
    let joined := Parser.binary op left right token.span
    if l.goesOn then routine (.operations l joined) else return joined

/-- Operands with operators of the level between them. -/
def level (l : Level) : Walk Node := do
  let left ← procedure (.operand l)
  routine (.operations l left)

/-- A call: the callee's name and its arguments. -/
def invocation : Walk Node := do
  let (callee, span) ← expectName
  let (arguments, opening) ← parenthesized .expression
  return ⟨.call, callee, span, [.inner .arguments opening arguments]⟩

/-- A literal, a name, a call, or an expression in parentheses. -/
def primary : Walk Node := do
  let token ← peek
  match token.lexeme with
  | .number digits =>
    let _ ← next
    return .leaf .number digits token.span
  | .text content =>
    let _ ← next
    return .leaf .text content token.span
  | .name spelling =>
    if (← peekNth 2).lexeme == .mark .openParen then
      procedure .call
    else
      let _ ← next
      return .leaf .name spelling token.span
  | .mark .openParen =>
    let _ ← next
    let inside ← procedure .expression
    let _ ← expect (.mark .closeParen)
    return inside
  | _ => refuse .expression

/-- Whether a name and then an equals sign come next. -/
def assignmentAhead : Walk Bool := do
  match (← peek).lexeme with
  | .name _ => return (← peekNth 2).lexeme == .mark .assign
  | _ => return false

/-- An assignment, or an expression of the operator levels. -/
def expression : Walk Node := do
  if ← assignmentAhead then
    let (target, span) ← expectName
    let equals ← expect (.mark .assign)
    let value ← procedure .expression
    return .inner .assignment equals.span [.leaf .name target span, value]
  else
    procedure (.level .logical)

/-! ## Statements -/

/-- A condition in parentheses. -/
def condition : Walk Node := do
  let _ ← expect (.mark .openParen)
  let inside ← procedure .expression
  let _ ← expect (.mark .closeParen)
  return inside

/-- Statements in braces, at the place of the opening one. -/
def block : Walk Node := do
  let opening ← expect (.mark .openBrace)
  let statements ← routine (.statementsUntil (.mark .closeBrace))
  let _ ← expect (.mark .closeBrace)
  return .inner .block opening.span statements

/-- A definition up to its semicolon. -/
def definition : Walk Node := do
  let keyword ← expect (.keyword .var)
  let (target, span) ← expectName
  return .inner .definition keyword.span [.leaf .name target span]

/-- A conditional and its alternative, if it has one. -/
def conditional : Walk Node := do
  let keyword ← expect (.keyword .conditional)
  let test ← procedure .condition
  let consequence ← procedure .block
  if ← sees (.keyword .alternative) then
    let otherwise ← next
    let body ← procedure .block
    return .inner .conditional keyword.span
      [test, consequence, .inner .alternative otherwise.span [body]]
  else
    return .inner .conditional keyword.span [test, consequence]

/-- A loop. -/
def loop : Walk Node := do
  let keyword ← expect (.keyword .loop)
  let test ← procedure .condition
  let body ← procedure .block
  return .inner .loop keyword.span [test, body]

/-- A parameter of a function. -/
def parameter : Walk Node := do
  let (spelling, span) ← expectName
  return .leaf .name spelling span

/-- A function with its parameters and its body. -/
def function : Walk Node := do
  let keyword ← expect (.keyword .function)
  let (spelling, _) ← expectName
  let (parameters, opening) ← parenthesized .parameter
  let body ← procedure .block
  return ⟨.function, spelling, keyword.span, [.inner .parameters opening parameters, body]⟩

/-- A construct and the semicolon that ends it. -/
def terminated (q : Procedure) : Walk Node := do
  let node ← procedure q
  let _ ← expect (.mark .semicolon)
  return node

/-- What a statement consists of, as its first token tells. -/
def construct : Walk Node := do
  match (← peek).lexeme with
  | .endOfInput => refuse .statement
  | .keyword .conditional => procedure .conditional
  | .keyword .loop => procedure .loop
  | .keyword .function => procedure .function
  | .keyword .var => terminated .definition
  | _ => terminated .expression

/-- A statement. -/
def statement : Walk Node := do
  let first ← peek
  let inside ← construct
  return .inner .statement first.span [inside]

/-- Statements up to the end of the input. -/
def program : Walk Node := do
  let first ← peek
  let statements ← routine (.statementsUntil .endOfInput)
  return .inner .program first.span statements

end Walk

/-- What a procedure does. -/
def Procedure.body : Procedure → Walk Node
  | .program => Walk.program
  | .statement => Walk.statement
  | .block => Walk.block
  | .definition => Walk.definition
  | .conditional => Walk.conditional
  | .loop => Walk.loop
  | .condition => Walk.condition
  | .function => Walk.function
  | .parameter => Walk.parameter
  | .expression => Walk.expression
  | .level l => Walk.level l
  | .primary => Walk.primary
  | .call => Walk.invocation

/-- What a routine does. -/
def Routine.body : (r : Routine) → Walk r.Value
  | .procedure q => q.body
  | .separated q => Walk.separated q
  | .statementsUntil l => Walk.statementsUntil l
  | .operations l left => Walk.operations l left

/-! ## Runs -/

namespace Walk

/-- From the first cursor the walk ends, with a value or a fault, and leaves the
second cursor behind. -/
inductive Ends : {α : Type} → Walk α → Cursor → Except Fault α → Cursor → Prop
  | done {α : Type} (a : α) (c : Cursor) : Ends (.done a) c (.ok a) c
  | fail {α : Type} (e : Fault) (c : Cursor) : Ends (.fail e : Walk α) c (.error e) c
  | look {α : Type} {n : Nat} {go : Token → Walk α} {c c' : Cursor} {t : Token}
      {result : Except Fault α} (seen : c.peekNth? n = some t) (rest : Ends (go t) c result c') :
      Ends (.look n go) c result c'
  | take {α : Type} {go : Token → Walk α} {c c₁ c' : Cursor} {t : Token}
      {result : Except Fault α} (taken : c.next? = some (t, c₁))
      (rest : Ends (go t) c₁ result c') : Ends (.take go) c result c'
  | call {α : Type} {r : Routine} {go : r.Value → Walk α} {c c₁ c' : Cursor} {b : r.Value}
      {result : Except Fault α} (inside : Ends r.body c (.ok b) c₁)
      (rest : Ends (go b) c₁ result c') : Ends (.call r go) c result c'
  | callFails {α : Type} {r : Routine} {go : r.Value → Walk α} {c c' : Cursor} {e : Fault}
      (inside : Ends r.body c (.error e) c') : Ends (.call r go) c (.error e) c'

/-- On the way of the walk from the first cursor there is the second one. The walk
need not end for that. -/
inductive Visits : {α : Type} → Walk α → Cursor → Cursor → Prop
  | here {α : Type} (w : Walk α) (c : Cursor) : Visits w c c
  | look {α : Type} {n : Nat} {go : Token → Walk α} {c c' : Cursor} {t : Token}
      (seen : c.peekNth? n = some t) (rest : Visits (go t) c c') : Visits (.look n go) c c'
  | take {α : Type} {go : Token → Walk α} {c c₁ c' : Cursor} {t : Token}
      (taken : c.next? = some (t, c₁)) (rest : Visits (go t) c₁ c') : Visits (.take go) c c'
  | inside {α : Type} {r : Routine} {go : r.Value → Walk α} {c c' : Cursor}
      (inside : Visits r.body c c') : Visits (.call r go) c c'
  | after {α : Type} {r : Routine} {go : r.Value → Walk α} {c c₁ c' : Cursor} {b : r.Value}
      (inside : Ends r.body c (.ok b) c₁) (rest : Visits (go b) c₁ c') : Visits (.call r go) c c'

variable {α β : Type} {w : Walk α} {f : α → Walk β} {c c₁ c₂ : Cursor}

namespace Ends

/-- There is one way to go on, so there is one end. -/
theorem unique {x y : Except Fault α} (h : Ends w c x c₁) (h' : Ends w c y c₂) :
    x = y ∧ c₁ = c₂ := by
  induction h generalizing c₂ with
  | done => cases h'; exact ⟨rfl, rfl⟩
  | fail => cases h'; exact ⟨rfl, rfl⟩
  | look seen _ ih =>
      cases h' with
      | look seen' rest' =>
          cases seen.symm.trans seen'
          exact ih rest'
  | take taken _ ih =>
      cases h' with
      | take taken' rest' =>
          cases taken.symm.trans taken'
          exact ih rest'
  | call _ _ ihInside ih =>
      cases h' with
      | call inside' rest' =>
          obtain ⟨hvalue, rfl⟩ := ihInside inside'
          cases hvalue
          exact ih rest'
      | callFails inside' => cases (ihInside inside').1
  | callFails _ ihInside =>
      cases h' with
      | call inside' rest' => cases (ihInside inside').1
      | callFails inside' =>
          obtain ⟨hfault, rfl⟩ := ihInside inside'
          cases hfault
          exact ⟨rfl, rfl⟩

/-- No step goes back. -/
theorem before {x : Except Fault α} (h : Ends w c x c₁) : c.Before c₁ := by
  induction h with
  | done _ c => exact .refl c
  | fail _ c => exact .refl c
  | look _ _ ih => exact ih
  | take taken _ ih => exact (Cursor.before_next taken).trans ih
  | call _ _ ihInside ih => exact ihInside.trans ih
  | callFails _ ihInside => exact ihInside

theorem bind_ok {a : α} {y : Except Fault β} (h : Ends w c (.ok a) c₁) (hf : Ends (f a) c₁ y c₂) :
    Ends (w >>= f) c y c₂ := by
  generalize hx : Except.ok a = x at h
  induction h with
  | done => cases hx; exact hf
  | fail => cases hx
  | look seen _ ih => exact .look seen (ih hf hx)
  | take taken _ ih => exact .take taken (ih hf hx)
  | call inside _ _ ih => exact .call inside (ih hf hx)
  | callFails => cases hx

theorem bind_error {e : Fault} (h : Ends w c (.error e) c₁) : Ends (w >>= f) c (.error e) c₁ := by
  generalize hx : Except.error e = x at h
  induction h with
  | done => cases hx
  | fail => cases hx; exact .fail e _
  | look seen _ ih => exact .look seen (ih hx)
  | take taken _ ih => exact .take taken (ih hx)
  | call inside _ _ ih => exact .call inside (ih hx)
  | callFails inside => cases hx; exact .callFails inside

/-- A called routine ends as its body does. -/
theorem routine {r : Routine} {x : Except Fault r.Value} (h : Ends r.body c x c₁) :
    Ends (Walk.routine r) c x c₁ := by
  cases x with
  | ok b => exact .call h (.done b c₁)
  | error e => exact .callFails h

end Ends

/-- A cursor on the way of a walk that ends is between the first one and the last one. -/
theorem Visits.between (h : Visits w c c₁) {x : Except Fault α} (hends : Ends w c x c₂) :
    c.Before c₁ ∧ c₁.Before c₂ := by
  induction h generalizing c₂ with
  | here _ c => exact ⟨.refl c, hends.before⟩
  | look seen _ ih =>
      cases hends with
      | look seen' rest' =>
          cases seen.symm.trans seen'
          exact ih rest'
  | take taken _ ih =>
      cases hends with
      | take taken' rest' =>
          cases taken.symm.trans taken'
          obtain ⟨hfirst, hlast⟩ := ih rest'
          exact ⟨(Cursor.before_next taken).trans hfirst, hlast⟩
  | inside _ ih =>
      cases hends with
      | call inside' rest' =>
          obtain ⟨hfirst, hlast⟩ := ih inside'
          exact ⟨hfirst, hlast.trans rest'.before⟩
      | callFails inside' => exact ih inside'
  | after inside _ ih =>
      cases hends with
      | call inside' rest' =>
          obtain ⟨hvalue, rfl⟩ := inside.unique inside'
          cases hvalue
          obtain ⟨hfirst, hlast⟩ := ih rest'
          exact ⟨inside.before.trans hfirst, hlast⟩
      | callFails inside' => cases (inside.unique inside').1

end Walk

end ScopeLang
