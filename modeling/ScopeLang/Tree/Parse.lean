-- SUMMARY: Recursive-descent parsing of token streams into syntax trees.
import ScopeLang.Fault.Cause
import ScopeLang.Token.Scan
import ScopeLang.Token.Stream

/-! # Parsing

The grammar, weakest level first:

```text
program    -> statement+
statement  -> "var" name ";"
            | "if" "(" expression ")" block [ "else" block ]
            | "while" "(" expression ")" block
            | "function" name "(" [ name ("," name)* ] ")" block
            | expression ";"
block      -> "{" statement+ "}"
expression -> name "=" expression | logical
logical    -> relation [ ("&&" | "||") relation ]
relation   -> sum [ (">" | "<" | ">=" | "<=" | "==" | "!=") sum ]
sum        -> product ( ("+" | "-") product )*
product    -> primary ( ("*" | "/") primary )*
primary    -> number | text | name | name "(" [ expression ("," expression)* ] ")"
            | "(" expression ")"
```

Two tokens of lookahead tell an assignment and a call from a plain name. A
level that takes at most one operator leaves a second one to whoever called it,
so `a < b < c` is a fault at the second `<`.

Every level is a plain function of the parser for what nests inside it. The
nesting itself is bounded by a budget. A nested parser runs only after a token
has been taken, so a budget of one unit for each token ahead is never used up
before the stream is: what the parsers answer on an empty budget is what the
end of input calls for.
-/

namespace ScopeLang

/-- A parser takes tokens from a stream and yields a value or the first fault. -/
abbrev Parser (α : Type) := StateT Token.Stream (Except Fault) α

namespace Parser

/-! ## Single tokens -/

/-- The next token, left in place. -/
def peek : Parser Token := do
  return (← get).peek

/-- Whether the next token is the given lexeme. -/
def sees (l : Lexeme) : Parser Bool := do
  return (← peek).lexeme == l

/-- Take the next token. -/
def next : Parser Token := do
  let (token, rest) := (← get).next
  set rest
  return token

/-- Blame the next token for not being what was wanted. -/
def refuse {α : Type} (wanted : Wanted) : Parser α := do
  let token ← peek
  if token.isEnd then
    throw ⟨.prematureEnd wanted, token.span⟩
  else
    throw ⟨.unexpectedToken token.lexeme wanted, token.span⟩

/-- Take the given lexeme; any other is a fault. -/
def expect (l : Lexeme) : Parser Token := do
  if ← sees l then next else refuse (.lexeme l)

/-- Take the given lexeme if it comes next, and say whether it did. -/
def accept (l : Lexeme) : Parser Bool := do
  if ← sees l then
    let _ ← next
    return true
  else
    return false

/-- Take a name; anything else is a fault. -/
def expectName : Parser (String × Span) := do
  let token ← peek
  match token.lexeme with
  | .name spelling =>
    let _ ← next
    return (spelling, token.span)
  | _ => refuse .name

/-! ## Sequences -/

/-- One or more items with a comma after each but the last. -/
def commaSeparated {α : Type} (item : Parser α) : Nat → Parser (List α)
  | 0 => return [← item]
  | budget + 1 => do
    let first ← item
    if ← accept (.mark .comma) then
      return first :: (← commaSeparated item budget)
    else
      return [first]

/-- One or more items, up to the first one after which `done` holds. -/
def itemsUntil {α : Type} (done : Parser Bool) (item : Parser α) : Nat → Parser (List α)
  | 0 => return [← item]
  | budget + 1 => do
    let first ← item
    if ← done then
      return [first]
    else
      return first :: (← itemsUntil done item budget)

/-- A list in parentheses, with the place of the opening one. -/
def parenthesized {α : Type} (item : Parser α) (budget : Nat) : Parser (List α × Span) := do
  let opening ← expect (.mark .openParen)
  let items ← if ← sees (.mark .closeParen) then pure [] else commaSeparated item budget
  let _ ← expect (.mark .closeParen)
  return (items, opening.span)

/-! ## Operator levels -/

/-- The node of an operator, at the operator's place. -/
def binary (op : Operator) (left right : Node) (span : Span) : Node :=
  .inner (.binary op) span [left, right]

/-- The next token's operator, if it belongs to the level. -/
def operatorAhead? (level : Operator → Bool) : Parser (Option Operator) := do
  return ((← peek).lexeme.operator?).filter level

/-- An operand and at most one operator of the level with its second operand. -/
def atMostOne (level : Operator → Bool) (operand : Parser Node) : Parser Node := do
  let left ← operand
  match ← operatorAhead? level with
  | none => return left
  | some op =>
    let token ← next
    let right ← operand
    return binary op left right token.span

/-- What follows the left operand of a chain, grouped to the left. -/
def chainFrom (level : Operator → Bool) (operand : Parser Node) : Nat → Node → Parser Node
  | 0, left => return left
  | budget + 1, left => do
    match ← operatorAhead? level with
    | none => return left
    | some op =>
      let token ← next
      let right ← operand
      chainFrom level operand budget (binary op left right token.span)

/-- Operands with operators of the level between them, grouped to the left. -/
def chain (level : Operator → Bool) (operand : Parser Node) (budget : Nat) : Parser Node := do
  let left ← operand
  chainFrom level operand budget left

/-! ## Expressions -/

/-- A call: the callee's name and its arguments. -/
def call (nested : Parser Node) (budget : Nat) : Parser Node := do
  let (callee, span) ← expectName
  let (arguments, opening) ← parenthesized nested budget
  return ⟨.call, callee, span, [.inner .arguments opening arguments]⟩

/-- A literal, a name, a call, or an expression in parentheses. -/
def primary (nested : Parser Node) (budget : Nat) : Parser Node := do
  let token ← peek
  match token.lexeme with
  | .number digits =>
    let _ ← next
    return .leaf .number digits token.span
  | .text content =>
    let _ ← next
    return .leaf .text content token.span
  | .name spelling =>
    if ((← get).peekNth 2).lexeme == .mark .openParen then
      call nested budget
    else
      let _ ← next
      return .leaf .name spelling token.span
  | .mark .openParen =>
    let _ ← next
    let inside ← nested
    let _ ← expect (.mark .closeParen)
    return inside
  | _ => refuse .expression

/-- The operator levels above the primaries. -/
def logical (nested : Parser Node) (budget : Nat) : Parser Node :=
  let product := chain Operator.isMultiplicative (primary nested budget) budget
  let sum := chain Operator.isAdditive product budget
  let relation := atMostOne Operator.isComparison sum
  atMostOne Operator.isConnective relation

/-- Whether a name and then an equals sign come next. -/
def assignmentAhead : Parser Bool := do
  let stream ← get
  match stream.peek.lexeme with
  | .name _ => return (stream.peekNth 2).lexeme == .mark .assign
  | _ => return false

/-- An assignment, or an expression of the operator levels. -/
def assignment (nested : Parser Node) (budget : Nat) : Parser Node := do
  if ← assignmentAhead then
    let (target, span) ← expectName
    let equals ← expect (.mark .assign)
    let value ← nested
    return .inner .assignment equals.span [.leaf .name target span, value]
  else
    logical nested budget

/-- An expression that nests no deeper than the budget. -/
def expression : Nat → Parser Node
  | 0 => refuse .expression
  | budget + 1 => assignment (expression budget) budget

/-! ## Statements -/

/-- A condition in parentheses. -/
def condition (budget : Nat) : Parser Node := do
  let _ ← expect (.mark .openParen)
  let inside ← expression budget
  let _ ← expect (.mark .closeParen)
  return inside

/-- Statements in braces, at the place of the opening one. -/
def block (nested : Parser Node) (budget : Nat) : Parser Node := do
  let opening ← expect (.mark .openBrace)
  let statements ← itemsUntil (sees (.mark .closeBrace)) nested budget
  let _ ← expect (.mark .closeBrace)
  return .inner .block opening.span statements

/-- A definition up to its semicolon. -/
def definition : Parser Node := do
  let keyword ← expect (.keyword .var)
  let (target, span) ← expectName
  return .inner .definition keyword.span [.leaf .name target span]

/-- A conditional and its alternative, if it has one. -/
def conditional (nested : Parser Node) (budget : Nat) : Parser Node := do
  let keyword ← expect (.keyword .conditional)
  let test ← condition budget
  let consequence ← block nested budget
  if ← sees (.keyword .alternative) then
    let otherwise ← next
    let body ← block nested budget
    return .inner .conditional keyword.span
      [test, consequence, .inner .alternative otherwise.span [body]]
  else
    return .inner .conditional keyword.span [test, consequence]

/-- A loop. -/
def loop (nested : Parser Node) (budget : Nat) : Parser Node := do
  let keyword ← expect (.keyword .loop)
  let test ← condition budget
  let body ← block nested budget
  return .inner .loop keyword.span [test, body]

/-- A parameter of a function. -/
def parameter : Parser Node := do
  let (spelling, span) ← expectName
  return .leaf .name spelling span

/-- A function with its parameters and its body. -/
def function (nested : Parser Node) (budget : Nat) : Parser Node := do
  let keyword ← expect (.keyword .function)
  let (spelling, _) ← expectName
  let (parameters, opening) ← parenthesized parameter budget
  let body ← block nested budget
  return ⟨.function, spelling, keyword.span, [.inner .parameters opening parameters, body]⟩

/-- A construct and the semicolon that ends it. -/
def terminated (construct : Parser Node) : Parser Node := do
  let node ← construct
  let _ ← expect (.mark .semicolon)
  return node

/-- What a statement consists of, as its first token tells. -/
def construct (nested : Parser Node) (budget : Nat) : Parser Node := do
  match (← peek).lexeme with
  | .endOfInput => refuse .statement
  | .keyword .conditional => conditional nested budget
  | .keyword .loop => loop nested budget
  | .keyword .function => function nested budget
  | .keyword .var => terminated definition
  | _ => terminated (expression (budget + 1))

/-- A statement that nests no deeper than the budget. -/
def statement : Nat → Parser Node
  | 0 => refuse .statement
  | budget + 1 => do
    let first ← peek
    let inside ← construct (statement budget) budget
    return .inner .statement first.span [inside]

/-- Whether the next token ends the input. -/
def atEnd : Parser Bool := do
  return (← get).isAtEnd

/-- Statements up to the end of the input. -/
def program (budget : Nat) : Parser Node := do
  let first ← peek
  let statements ← itemsUntil atEnd (statement budget) budget
  return .inner .program first.span statements

end Parser

/-! ## Whole programs -/

/-- The tree of a token sequence. -/
def parseTokens (tokens : List Token) : Except Fault Node := do
  let stream := Token.Stream.ofTokens tokens
  let (tree, _) ← (Parser.program stream.ahead.length).run stream
  return tree

/-- The tree of a source text. The whole text is scanned first, so that a
lexical fault anywhere comes before every fault of the grammar. -/
def parse (source : String) : Except Fault Node := do
  parseTokens (← tokenize source)

end ScopeLang
