-- SUMMARY: The grammar of programs as derivations: the tokens they derive and the trees they stand for.
import ScopeLang.Tree.Parse

/-! # Derivations

A `Derivation` of a grammar symbol records which rule was applied where. It is
read in two ways: `tokens` is the text that it derives, and `tree` is what the
text stands for. The rules are those listed in `ScopeLang/Tree/Parse.lean`, and
neither reading refers to the parser.

The four operator levels differ only in their operators, their operands, and in
whether they go on after the first operator, so they share their rules:

| level | operators | operand | goes on |
|---|---|---|---|
| `logical` | `&&` `\|\|` | `relation` | no |
| `relation` | `>` `<` `>=` `<=` `==` `!=` | `sum` | no |
| `sum` | `+` `-` | `product` | yes |
| `product` | `*` `/` | `primary` | yes |
-/

namespace ScopeLang.Grammar

/-! ## Symbols -/

/-- The operator levels, weakest first. -/
inductive Level
  | logical
  | relation
  | sum
  | product

/-- The symbols that stand for a single node. -/
inductive Phrase
  | program
  | statement
  /-- What a statement consists of. -/
  | construct
  | block
  /-- `"(" expression ")"` -/
  | condition
  | expression
  | level (l : Level)
  | primary
  | parameter

/-- The symbols of the grammar. -/
inductive Symbol
  | one (p : Phrase)
  /-- `p+` -/
  | many (p : Phrase)
  /-- `p ("," p)*` -/
  | separated (p : Phrase)
  /-- `"(" [ p ("," p)* ] ")"` -/
  | parenthesized (p : Phrase)
  /-- `[ "else" block ]` -/
  | alternative
  /-- What follows the first operand of a level. -/
  | operations (l : Level)

namespace Level

/-- The operators of a level. -/
def operators : Level → Operator → Bool
  | .logical => Operator.isConnective
  | .relation => Operator.isComparison
  | .sum => Operator.isAdditive
  | .product => Operator.isMultiplicative

/-- Whether a level goes on after its first operator. -/
def goesOn : Level → Bool
  | .logical | .relation => false
  | .sum | .product => true

/-- What stands between the operators of a level. -/
def operand : Level → Phrase
  | .logical => .level .relation
  | .relation => .level .sum
  | .sum => .level .product
  | .product => .primary

end Level

/-- What a symbol stands for in a tree. A parenthesized list comes with the
place of its opening parenthesis, an alternative is at most one node, and
operations still await the operand to their left. -/
@[reducible] def Symbol.Value : Symbol → Type
  | .one _ => Node
  | .many _ | .separated _ | .alternative => List Node
  | .parenthesized _ => List Node × Span
  | .operations _ => Node → Node

/-! ## Rules -/

/-- A derivation of a symbol. The tokens that a rule writes itself are given by
what is not fixed about them: always their place, and their spelling if they
have one. -/
inductive Derivation : Symbol → Type
  | program (body : Derivation (.many .statement)) : Derivation (.one .program)
  | statement (inside : Derivation (.one .construct)) : Derivation (.one .statement)
  /-- `"var" name ";"` -/
  | definition (keyword : Span) (target : String) (place semicolon : Span) :
      Derivation (.one .construct)
  /-- `"if" condition block [ "else" block ]` -/
  | conditional (keyword : Span) (test : Derivation (.one .condition))
      (body : Derivation (.one .block)) (otherwise : Derivation .alternative) :
      Derivation (.one .construct)
  /-- `"while" condition block` -/
  | loop (keyword : Span) (test : Derivation (.one .condition))
      (body : Derivation (.one .block)) : Derivation (.one .construct)
  /-- `"function" name "(" parameters ")" block` -/
  | function (keyword : Span) (spelling : String) (place : Span)
      (parameters : Derivation (.parenthesized .parameter))
      (body : Derivation (.one .block)) : Derivation (.one .construct)
  /-- `expression ";"` -/
  | evaluation (e : Derivation (.one .expression)) (semicolon : Span) :
      Derivation (.one .construct)
  /-- `"{" statement+ "}"` -/
  | block (opening : Span) (body : Derivation (.many .statement)) (closing : Span) :
      Derivation (.one .block)
  | noAlternative : Derivation .alternative
  | alternative (keyword : Span) (body : Derivation (.one .block)) : Derivation .alternative
  | condition (opening : Span) (inside : Derivation (.one .expression)) (closing : Span) :
      Derivation (.one .condition)
  /-- `name "=" expression` -/
  | assignment (target : String) (place equals : Span) (value : Derivation (.one .expression)) :
      Derivation (.one .expression)
  | logical (inside : Derivation (.one (.level .logical))) : Derivation (.one .expression)
  | level (l : Level) (first : Derivation (.one l.operand)) (rest : Derivation (.operations l)) :
      Derivation (.one (.level l))
  | noOperation (l : Level) : Derivation (.operations l)
  | onlyOperation (l : Level) (once : l.goesOn = false) (op : Operator)
      (belongs : l.operators op = true) (place : Span) (right : Derivation (.one l.operand)) :
      Derivation (.operations l)
  | moreOperations (l : Level) (often : l.goesOn = true) (op : Operator)
      (belongs : l.operators op = true) (place : Span) (right : Derivation (.one l.operand))
      (rest : Derivation (.operations l)) : Derivation (.operations l)
  | number (digits : String) (place : Span) : Derivation (.one .primary)
  | text (content : String) (place : Span) : Derivation (.one .primary)
  | name (spelling : String) (place : Span) : Derivation (.one .primary)
  | call (callee : String) (place : Span) (arguments : Derivation (.parenthesized .expression)) :
      Derivation (.one .primary)
  | group (opening : Span) (inside : Derivation (.one .expression)) (closing : Span) :
      Derivation (.one .primary)
  | parameter (spelling : String) (place : Span) : Derivation (.one .parameter)
  | last (p : Phrase) (first : Derivation (.one p)) : Derivation (.many p)
  | more (p : Phrase) (first : Derivation (.one p)) (rest : Derivation (.many p)) :
      Derivation (.many p)
  | lastItem (p : Phrase) (first : Derivation (.one p)) : Derivation (.separated p)
  | moreItems (p : Phrase) (first : Derivation (.one p)) (comma : Span)
      (rest : Derivation (.separated p)) : Derivation (.separated p)
  | noItems (p : Phrase) (opening closing : Span) : Derivation (.parenthesized p)
  | items (p : Phrase) (opening : Span) (list : Derivation (.separated p)) (closing : Span) :
      Derivation (.parenthesized p)

namespace Derivation

/-- The text that a derivation derives. -/
def tokens : {s : Symbol} → Derivation s → List Token
  | _, .program body => body.tokens
  | _, .statement inside => inside.tokens
  | _, .definition keyword target place semicolon =>
    [⟨.keyword .var, keyword⟩, ⟨.name target, place⟩, ⟨.mark .semicolon, semicolon⟩]
  | _, .conditional keyword test body otherwise =>
    ⟨.keyword .conditional, keyword⟩ :: (test.tokens ++ (body.tokens ++ otherwise.tokens))
  | _, .loop keyword test body => ⟨.keyword .loop, keyword⟩ :: (test.tokens ++ body.tokens)
  | _, .function keyword spelling place parameters body =>
    ⟨.keyword .function, keyword⟩ :: ⟨.name spelling, place⟩
      :: (parameters.tokens ++ body.tokens)
  | _, .evaluation e semicolon => e.tokens ++ [⟨.mark .semicolon, semicolon⟩]
  | _, .block opening body closing =>
    ⟨.mark .openBrace, opening⟩ :: (body.tokens ++ [⟨.mark .closeBrace, closing⟩])
  | _, .noAlternative => []
  | _, .alternative keyword body => ⟨.keyword .alternative, keyword⟩ :: body.tokens
  | _, .condition opening inside closing =>
    ⟨.mark .openParen, opening⟩ :: (inside.tokens ++ [⟨.mark .closeParen, closing⟩])
  | _, .assignment target place equals value =>
    ⟨.name target, place⟩ :: ⟨.mark .assign, equals⟩ :: value.tokens
  | _, .logical inside => inside.tokens
  | _, .level _ first rest => first.tokens ++ rest.tokens
  | _, .noOperation _ => []
  | _, .onlyOperation _ _ op _ place right => ⟨.operator op, place⟩ :: right.tokens
  | _, .moreOperations _ _ op _ place right rest =>
    ⟨.operator op, place⟩ :: (right.tokens ++ rest.tokens)
  | _, .number digits place => [⟨.number digits, place⟩]
  | _, .text content place => [⟨.text content, place⟩]
  | _, .name spelling place => [⟨.name spelling, place⟩]
  | _, .call callee place arguments => ⟨.name callee, place⟩ :: arguments.tokens
  | _, .group opening inside closing =>
    ⟨.mark .openParen, opening⟩ :: (inside.tokens ++ [⟨.mark .closeParen, closing⟩])
  | _, .parameter spelling place => [⟨.name spelling, place⟩]
  | _, .last _ first => first.tokens
  | _, .more _ first rest => first.tokens ++ rest.tokens
  | _, .lastItem _ first => first.tokens
  | _, .moreItems _ first comma rest => first.tokens ++ ⟨.mark .comma, comma⟩ :: rest.tokens
  | _, .noItems _ opening closing => [⟨.mark .openParen, opening⟩, ⟨.mark .closeParen, closing⟩]
  | _, .items _ opening list closing =>
    ⟨.mark .openParen, opening⟩ :: (list.tokens ++ [⟨.mark .closeParen, closing⟩])

/-- The place of the first token. -/
def place {s : Symbol} (d : Derivation s) : Span :=
  (d.tokens.head?.map Token.span).getD .start

/-- What the derived text stands for. Operators group to the left, assignments
to the right, and parentheses leave no node. -/
def tree : {s : Symbol} → Derivation s → s.Value
  | _, .program body => .inner .program body.place body.tree
  | _, .statement inside => .inner .statement inside.place [inside.tree]
  | _, .definition keyword target place _ =>
    .inner .definition keyword [.leaf .name target place]
  | _, .conditional keyword test body otherwise =>
    .inner .conditional keyword (test.tree :: body.tree :: otherwise.tree)
  | _, .loop keyword test body => .inner .loop keyword [test.tree, body.tree]
  | _, .function keyword spelling _ parameters body =>
    ⟨.function, spelling, keyword,
      [.inner .parameters parameters.tree.2 parameters.tree.1, body.tree]⟩
  | _, .evaluation e _ => e.tree
  | _, .block opening body _ => .inner .block opening body.tree
  | _, .noAlternative => []
  | _, .alternative keyword body => [.inner .alternative keyword [body.tree]]
  | _, .condition _ inside _ => inside.tree
  | _, .assignment target place equals value =>
    .inner .assignment equals [.leaf .name target place, value.tree]
  | _, .logical inside => inside.tree
  | _, .level _ first rest => rest.tree first.tree
  | _, .noOperation _ => fun left => left
  | _, .onlyOperation _ _ op _ place right => fun left =>
    .inner (.binary op) place [left, right.tree]
  | _, .moreOperations _ _ op _ place right rest => fun left =>
    rest.tree (.inner (.binary op) place [left, right.tree])
  | _, .number digits place => .leaf .number digits place
  | _, .text content place => .leaf .text content place
  | _, .name spelling place => .leaf .name spelling place
  | _, .call callee place arguments =>
    ⟨.call, callee, place, [.inner .arguments arguments.tree.2 arguments.tree.1]⟩
  | _, .group _ inside _ => inside.tree
  | _, .parameter spelling place => .leaf .name spelling place
  | _, .last _ first => [first.tree]
  | _, .more _ first rest => first.tree :: rest.tree
  | _, .lastItem _ first => [first.tree]
  | _, .moreItems _ first _ rest => first.tree :: rest.tree
  | _, .noItems _ opening _ => ([], opening)
  | _, .items _ opening list _ => (list.tree, opening)

end Derivation

/-! ## First tokens -/

/-- What an expression may start with. -/
def startsExpression : Lexeme → Bool
  | .number _ | .text _ | .name _ | .mark .openParen => true
  | _ => false

/-- What a statement may start with. -/
def startsStatement : Lexeme → Bool
  | .keyword k => k != .alternative
  | l => startsExpression l

def Phrase.starts : Phrase → Lexeme → Bool
  | .program | .statement | .construct => startsStatement
  | .block => fun l => l == .mark .openBrace
  | .condition => fun l => l == .mark .openParen
  | .expression | .level _ | .primary => startsExpression
  | .parameter => fun
    | .name _ => true
    | _ => false

/-- What the text of a symbol may start with. -/
def Symbol.starts : Symbol → Lexeme → Bool
  | .one p | .many p | .separated p => p.starts
  | .parenthesized _ => fun l => l == .mark .openParen
  | .alternative => fun l => l == .keyword .alternative
  | .operations l => fun
    | .operator op => l.operators op
    | _ => false

/-- Whether a symbol derives the empty text. -/
def Symbol.nullable : Symbol → Bool
  | .alternative | .operations _ => true
  | _ => false

@[simp] theorem Phrase.starts_level (l : Level) : (level l).starts = startsExpression := rfl

@[simp] theorem Level.starts_operand (l : Level) : l.operand.starts = startsExpression := by
  cases l <;> rfl

theorem Symbol.starts_endOfInput (s : Symbol) : s.starts .endOfInput = false := by
  cases s with
  | one p | many p | separated p => cases p <;> rfl
  | parenthesized | alternative | operations => rfl

theorem startsStatement_of_startsExpression {l : Lexeme} (h : startsExpression l = true) :
    startsStatement l = true := by
  cases l <;> simp_all [startsExpression, startsStatement]

namespace Derivation

variable {s : Symbol}

/-- A text is empty only if its symbol allows it, and starts as its symbol says. -/
theorem head_tokens (d : Derivation s) :
    (d.tokens = [] ∧ s.nullable = true) ∨
      ∃ t ts, d.tokens = t :: ts ∧ s.starts t.lexeme = true := by
  induction d with
  | noAlternative | noOperation => exact .inl ⟨rfl, rfl⟩
  | definition | conditional | loop | function | block | alternative | condition | assignment
  | number | text | name | call | group | parameter | noItems | items =>
      exact .inr ⟨_, _, rfl, rfl⟩
  | onlyOperation l _ op belongs | moreOperations l _ op belongs =>
      exact .inr ⟨_, _, rfl, belongs⟩
  | program body ih | statement inside ih | logical inside ih | last p first ih
  | lastItem p first ih =>
      obtain ⟨-, h⟩ | ⟨t, ts, ht, hs⟩ := ih
      · cases h
      · exact .inr ⟨t, ts, ht, hs⟩
  | evaluation e semicolon ih =>
      obtain ⟨-, h⟩ | ⟨t, ts, ht, hs⟩ := ih
      · cases h
      · exact .inr ⟨t, ts ++ _, by rw [tokens, ht]; rfl, startsStatement_of_startsExpression hs⟩
  | level l first rest ih =>
      obtain ⟨-, h⟩ | ⟨t, ts, ht, hs⟩ := ih
      · cases h
      · refine .inr ⟨t, ts ++ _, by rw [tokens, ht]; rfl, ?_⟩
        simpa [Symbol.starts] using hs
  | more p first rest ih | moreItems p first comma rest ih =>
      obtain ⟨-, h⟩ | ⟨t, ts, ht, hs⟩ := ih
      · cases h
      · exact .inr ⟨t, ts ++ _, by rw [tokens, ht]; rfl, hs⟩

/-- A symbol that does not derive the empty text has a first token. -/
theorem exists_head (d : Derivation s) (h : s.nullable = false) :
    ∃ t ts, d.tokens = t :: ts ∧ s.starts t.lexeme = true := by
  obtain ⟨-, hnull⟩ | hhead := d.head_tokens
  · rw [h] at hnull
    cases hnull
  · exact hhead

theorem length_tokens_pos {p : Phrase} (d : Derivation (.one p)) : 0 < d.tokens.length := by
  obtain ⟨t, ts, ht, -⟩ := d.exists_head rfl
  simp [ht]

/-- No rule derives the end of the input. -/
theorem lexeme_ne_endOfInput (d : Derivation s) {t : Token} (h : t ∈ d.tokens) :
    t.lexeme ≠ .endOfInput := by
  induction d with simp only [tokens, List.mem_cons, List.mem_append, List.not_mem_nil] at h <;> grind

end Derivation

end ScopeLang.Grammar
