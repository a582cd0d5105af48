-- SUMMARY: Lexemes, tokens, and how they are written.
import ScopeLang.Operator
import ScopeLang.Span

/-! # Tokens

A `Lexeme` is what a token is; a `Token` adds where it starts. Keywords,
operators and marks are written in one way each, and `Lexeme.render` is that
way. An integer keeps its digits as written and a string keeps its unescaped
content.
-/

namespace ScopeLang

/-- The reserved words. -/
inductive Keyword
  | var
  | conditional
  | alternative
  | loop
  | function
  deriving DecidableEq, Repr

/-- The fixed lexemes that are not operators. -/
inductive Mark
  | assign
  | comma
  | semicolon
  | openParen
  | closeParen
  | openBrace
  | closeBrace
  deriving DecidableEq, Repr

/-- What a token is. -/
inductive Lexeme
  /-- An integer literal, digits as written. -/
  | number (digits : String)
  /-- A string literal, escapes resolved. -/
  | text (content : String)
  | name (spelling : String)
  | keyword (word : Keyword)
  | operator (op : Operator)
  | mark (mark : Mark)
  | endOfInput
  deriving DecidableEq, Repr

/-- A lexeme and the place of its first byte. -/
structure Token where
  lexeme : Lexeme
  span : Span
  deriving DecidableEq, Repr

/-! ## Spelling -/

def Keyword.spelling : Keyword → String
  | .var => "var"
  | .conditional => "if"
  | .alternative => "else"
  | .loop => "while"
  | .function => "function"

/-- Every reserved word. -/
def Keyword.all : List Keyword :=
  [.var, .conditional, .alternative, .loop, .function]

def Mark.spelling : Mark → String
  | .assign => "="
  | .comma => ","
  | .semicolon => ";"
  | .openParen => "("
  | .closeParen => ")"
  | .openBrace => "\x7b"
  | .closeBrace => "\x7d"

namespace Lexeme

/-- How a lexeme is shown. The content of a string is shown as it is, between quotes. -/
def render : Lexeme → String
  | .number digits => digits
  | .text content => "\"" ++ content ++ "\""
  | .name spelling => spelling
  | .keyword word => word.spelling
  | .operator op => op.spelling
  | .mark m => m.spelling
  | .endOfInput => "end of input"

/-- The lexeme of a word: a keyword if it is reserved, else a name. -/
def ofWord (word : String) : Lexeme :=
  match Keyword.all.find? (·.spelling == word) with
  | some k => .keyword k
  | none => .name word

def isKeyword : Lexeme → Bool
  | .keyword _ => true
  | _ => false

/-- The operator of an operator lexeme. -/
def operator? : Lexeme → Option Operator
  | .operator op => some op
  | _ => none

end Lexeme

/-- Whether the token ends the input. -/
def Token.isEnd (t : Token) : Bool :=
  t.lexeme == .endOfInput

end ScopeLang
