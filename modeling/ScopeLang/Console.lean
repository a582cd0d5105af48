-- SUMMARY: The console of a program: words read from input lines, bytes written to a sink.
import ScopeLang.Fault.Cause
import ScopeLang.Text.Blank

/-! # Consoles

Input arrives line by line. A line is taken when no word of an earlier line is
left, and a line that is not valid UTF-8 is a failure of the read that took it.
Output goes to a sink, which may have a limit: a write that does not fit leaves
the part that does and fails.
-/

namespace ScopeLang

/-! ## Sinks -/

/-- Where output goes. -/
structure Sink where
  /-- How many bytes the sink takes in all, if there is a limit. -/
  limit : Option Nat := none
  written : Array UInt8 := #[]
  deriving DecidableEq, Repr

namespace Sink

/-- Whether so many more bytes fit. -/
def fits (s : Sink) (count : Nat) : Bool :=
  match s.limit with
  | none => true
  | some limit => s.written.size + count ≤ limit

/-- Write bytes; only those that fit are kept, and it is a failure if some do not. -/
def write (s : Sink) (bytes : List UInt8) : Except ConsoleFailure Unit × Sink :=
  if s.fits bytes.length then
    (.ok (), { s with written := s.written.appendList bytes })
  else
    let room := s.limit.getD 0 - s.written.size
    (.error .full, { s with written := s.written.appendList (bytes.take room) })

end Sink

/-! ## Consoles -/

/-- Cut a byte sequence after each line feed. -/
def linesOf : List UInt8 → List (List UInt8)
  | [] => []
  | b :: bs =>
    if b = Span.lineFeed then
      [b] :: linesOf bs
    else
      match linesOf bs with
      | [] => [[b]]
      | line :: lines => (b :: line) :: lines

/-- An input that words are read from and a sink for the output. -/
structure Console where
  /-- Words of the line taken last that have not been read. -/
  pending : List String := []
  /-- Lines that have not been taken. -/
  lines : List (List UInt8) := []
  sink : Sink := {}
  /-- How many words have been asked for. -/
  requests : Nat := 0
  deriving DecidableEq, Repr

namespace Console

/-- A console over an input and a sink that takes the given number of bytes. -/
def ofInput (input : List UInt8) (limit : Option Nat) : Console :=
  { lines := linesOf input, sink := { limit := limit } }

/-- Read from another input. What is left of the old one is dropped. -/
def setInput (c : Console) (input : List UInt8) : Console :=
  { c with pending := [], lines := linesOf input }

/-- Write to another sink. -/
def setSink (c : Console) (sink : Sink) : Console :=
  { c with sink := sink }

/-- Write a text. -/
def write (c : Console) (text : String) : Except ConsoleFailure Unit × Console :=
  let (outcome, sink) := c.sink.write (Text.bytes text)
  (outcome, { c with sink := sink })

/-- The first word of some lines, or nothing at their end, with the words left
of its line and the lines left after it. -/
def takeWord : List (List UInt8) →
    Except ConsoleFailure (Option String) × List String × List (List UInt8)
  | [] => (.ok none, [], [])
  | line :: lines =>
    match Text.ofBytes? line with
    | none => (.error .notText, [], lines)
    | some text =>
      match Text.words text with
      | [] => takeWord lines
      | word :: rest => (.ok (some word), rest, lines)

/-- Read the next word; there is none at the end of the input. -/
def readWord (c : Console) : Except ConsoleFailure (Option String) × Console :=
  match c.pending with
  | word :: rest => (.ok (some word), { c with pending := rest, requests := c.requests + 1 })
  | [] =>
    let (outcome, pending, lines) := takeWord c.lines
    (outcome, { c with pending := pending, lines := lines, requests := c.requests + 1 })

end Console

end ScopeLang
