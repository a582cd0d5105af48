-- SUMMARY: The tokens of a source text: longest-match scanning over its bytes.
import ScopeLang.Fault.Cause
import ScopeLang.Text.Quoted

/-! # Scanning

A source text is a sequence of pieces: gaps, which are blanks and comments, and
lexemes. `Piece.first` says what the piece at the front of a byte sequence is
and how long it is; `tokenize` cuts piece after piece and gives each lexeme the
place where it starts. The first piece that is neither a gap nor a lexeme is
the fault of the whole text.
-/

namespace ScopeLang

/-! ## Byte classes -/

namespace Byte

/-- Blanks between lexemes: space, tab, carriage return, line feed. -/
def isBlank (b : UInt8) : Bool :=
  b == 32 || b == 9 || b == 13 || b == 10

/-- An ASCII digit. -/
def isDigit (b : UInt8) : Bool :=
  48 ≤ b && b ≤ 57

/-- An ASCII letter or an underscore: what a word may start with. -/
def isWordStart (b : UInt8) : Bool :=
  (97 ≤ b && b ≤ 122) || (65 ≤ b && b ≤ 90) || b == 95

/-- What a word may go on with. -/
def isWordPart (b : UInt8) : Bool :=
  isWordStart b || isDigit b

/-- The byte that starts a comment when doubled. -/
def slash : UInt8 := 47

end Byte

/-! ## Fixed lexemes -/

namespace Lexeme

/-- Operators and marks, those of two bytes before those of one. -/
def fixed : List Lexeme :=
  [.operator (.comparison .equal), .operator (.comparison .notEqual),
   .operator (.comparison .lessEqual), .operator (.comparison .greaterEqual),
   .operator (.connective .and), .operator (.connective .or),
   .operator (.arithmetic .add), .operator (.arithmetic .sub),
   .operator (.arithmetic .mul), .operator (.arithmetic .div),
   .operator (.comparison .less), .operator (.comparison .greater),
   .mark .assign, .mark .comma, .mark .semicolon, .mark .openParen, .mark .closeParen,
   .mark .openBrace, .mark .closeBrace]

/-- The longest fixed lexeme that a byte sequence starts with. -/
def fixedAt? (bs : List UInt8) : Option Lexeme :=
  fixed.find? fun l => (Text.bytes l.render).isPrefixOf bs

end Lexeme

/-- The operators whose first byte is no lexeme. -/
def Operator.unbreakable : List Operator :=
  [.comparison .notEqual, .connective .and, .connective .or]

/-- The operator that a lone byte should have been the start of. -/
def Operator.startedBy? (b : UInt8) : Option Operator :=
  unbreakable.find? fun op => (Text.bytes op.spelling).head? == some b

/-! ## Pieces -/

/-- What stands at the front of a byte sequence. Every piece has a first byte;
`more` counts the bytes after it. -/
inductive Piece
  | gap (more : Nat)
  | lexeme (l : Lexeme) (more : Nat)
  /-- No piece starts here; the byte to blame is `offset` bytes further on. -/
  | fault (cause : Cause) (offset : Nat)
  deriving DecidableEq, Repr

namespace Piece

/-- The literal whose opening quote stands before `rest`. -/
def ofLiteral (rest : List UInt8) : Piece :=
  match Text.Quoted.scanBody rest with
  | .closed content width => .lexeme (.text ((Text.ofBytes? content).getD "")) width
  | .unterminated => .fault .unterminatedString 0
  | .unknownEscape letter offset => .fault (.unknownEscape letter) (offset + 1)

/-- The piece that starts with byte `b`, when `rest` follows. -/
def first (b : UInt8) (rest : List UInt8) : Piece :=
  if Byte.isBlank b then
    .gap 0
  else if b = Byte.slash ∧ rest.head? = some Byte.slash then
    .gap (rest.takeWhile (· != Span.lineFeed)).length
  else if b = Text.Quoted.quote then
    ofLiteral rest
  else if Byte.isDigit b then
    let digits := rest.takeWhile Byte.isDigit
    .lexeme (.number (Text.ofCodes (b :: digits))) digits.length
  else if Byte.isWordStart b then
    let letters := rest.takeWhile Byte.isWordPart
    .lexeme (.ofWord (Text.ofCodes (b :: letters))) letters.length
  else
    match Lexeme.fixedAt? (b :: rest) with
    | some l => .lexeme l ((Text.bytes l.render).length - 1)
    | none =>
      match Operator.startedBy? b with
      | some op => .fault (.bareOperator op) 0
      | none => .fault (.unexpectedByte b) 0

end Piece

/-! ## Tokens -/

/-- The tokens of a byte sequence whose first byte stands at `here`, with the
end of input as the last one. -/
def scan (here : Span) : List UInt8 → Except Fault (List Token)
  | [] => .ok [⟨.endOfInput, here⟩]
  | b :: rest =>
    match Piece.first b rest with
    | .gap more => scan (here.after (b :: rest.take more)) (rest.drop more)
    | .lexeme l more => do
      let tokens ← scan (here.after (b :: rest.take more)) (rest.drop more)
      return ⟨l, here⟩ :: tokens
    | .fault cause offset => .error ⟨cause, here.after ((b :: rest).take offset)⟩
termination_by bs => bs.length
decreasing_by all_goals (simp only [List.length_drop, List.length_cons]; omega)

/-- The tokens of a source text. -/
def tokenize (source : String) : Except Fault (List Token) :=
  scan Span.start (Text.bytes source)

end ScopeLang
