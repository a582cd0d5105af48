-- SUMMARY: String literals: escaping a text and scanning the body of a literal.
import ScopeLang.Span

/-! # Quoted texts

A string literal stands between double quotes on one line. Four characters are
written with a backslash in front of a letter: line feed, tab, the double quote
and the backslash itself. `escape` writes a text that way. `scanBody` reads the
bytes after an opening quote; quotes, backslashes and line feeds are single
bytes of UTF-8 that no longer character contains, so it never cuts one.
-/

namespace ScopeLang.Text.Quoted

def quote : UInt8 := 34

def backslash : UInt8 := 92

/-- The letter that stands for a character after a backslash, if it has one. -/
def letter? : Char → Option Char
  | '\n' => some 'n'
  | '\t' => some 't'
  | '\"' => some '\"'
  | '\\' => some '\\'
  | _ => none

/-- The byte that an escape letter stands for. -/
def meaning? (letter : UInt8) : Option UInt8 :=
  match Char.ofUInt8 letter with
  | 'n' => some 10
  | 't' => some 9
  | '\"' => some quote
  | '\\' => some backslash
  | _ => none

/-- A character as it is written inside a literal. -/
def escapeChar (c : Char) : List Char :=
  match letter? c with
  | some letter => ['\\', letter]
  | none => [c]

/-- A text as it is written inside a literal. -/
def escape (s : String) : String :=
  String.ofList (s.toList.flatMap escapeChar)

/-- The literal of a text. -/
def literal (s : String) : String :=
  "\"" ++ escape s ++ "\""

/-- What the bytes after an opening quote turn out to be. -/
inductive Body
  /-- The unescaped content, and how many bytes the closing quote is the last of. -/
  | closed (content : List UInt8) (width : Nat)
  /-- The line or the text ends first. -/
  | unterminated
  /-- A backslash before a byte without meaning, which stands at `offset`. -/
  | unknownEscape (letter : UInt8) (offset : Nat)
  deriving DecidableEq, Repr

/-- A body with one more byte of content in front, written on `width` bytes. -/
def Body.prepend (b : UInt8) (width : Nat) : Body → Body
  | .closed content w => .closed (b :: content) (w + width)
  | .unterminated => .unterminated
  | .unknownEscape letter offset => .unknownEscape letter (offset + width)

/-- Scan the body of a literal up to its closing quote. -/
def scanBody : List UInt8 → Body
  | [] => .unterminated
  | b :: rest =>
    if b = Span.lineFeed then .unterminated
    else if b = quote then .closed [] 1
    else if b = backslash then
      match rest with
      | [] => .unterminated
      | letter :: rest =>
        match meaning? letter with
        | some c => (scanBody rest).prepend c 2
        | none => .unknownEscape letter 1
    else (scanBody rest).prepend b 1

end ScopeLang.Text.Quoted
