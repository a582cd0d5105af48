-- SUMMARY: A token sequence as something to look ahead in and take from.
import ScopeLang.Token.Basic

/-! # Token streams

A stream always ends in a token that ends the input. Once nothing else is left,
looking ahead shows that token and taking the next token yields it again.
-/

namespace ScopeLang.Token

/-- The tokens not yet taken, and the end of input behind them. -/
structure Stream where
  ahead : List Token
  stop : Token
  deriving DecidableEq, Repr

namespace Stream

/-- The end of input after a token sequence that does not have one. -/
def endAfter (last? : Option Token) : Token :=
  ⟨.endOfInput, (last?.map fun t => t.span.nextColumn).getD Span.start⟩

/-- A stream over a token sequence, which is given an end of input if it lacks one. -/
def ofTokens (tokens : List Token) : Stream :=
  match tokens.getLast? with
  | some last => if last.isEnd then ⟨tokens.dropLast, last⟩ else ⟨tokens, endAfter last⟩
  | none => ⟨[], endAfter none⟩

/-- The token `n` places ahead, the next one being one place ahead. -/
def peekNth (s : Stream) (n : Nat) : Token :=
  (s.ahead.drop (n - 1)).headD s.stop

/-- The next token. -/
def peek (s : Stream) : Token :=
  s.peekNth 1

/-- The stream without its next token. -/
def advance (s : Stream) : Stream :=
  { s with ahead := s.ahead.tail }

/-- Take the next token. -/
def next (s : Stream) : Token × Stream :=
  (s.peek, s.advance)

/-- Whether the next token ends the input. -/
def isAtEnd (s : Stream) : Bool :=
  s.peek.isEnd

/-! ## Streams by what is ahead -/

@[simp] theorem peek_nil (stop : Token) : peek ⟨[], stop⟩ = stop := rfl

@[simp] theorem peek_cons (t : Token) (ts : List Token) (stop : Token) :
    peek ⟨t :: ts, stop⟩ = t := rfl

@[simp] theorem advance_nil (stop : Token) : advance ⟨[], stop⟩ = ⟨[], stop⟩ := rfl

@[simp] theorem advance_cons (t : Token) (ts : List Token) (stop : Token) :
    advance ⟨t :: ts, stop⟩ = ⟨ts, stop⟩ := rfl

/-- A stream over a token sequence ends in an end of input. -/
theorem isEnd_stop_ofTokens (tokens : List Token) : (ofTokens tokens).stop.isEnd = true := by
  unfold ofTokens
  split
  · split
    · assumption
    · rfl
  · rfl

end Stream

end ScopeLang.Token
