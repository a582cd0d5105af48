-- SUMMARY: The command line program.
import ScopeLang.Command

/-! # The program

Everything that is decided is decided by `Command.answer?`; this module reads
files and input and writes output. A run is pure, so input that it turns out to
need and fuel that it turns out to lack are provided by running it again:
output is written as far as it is known, and never twice.
-/

namespace ScopeLang.Main

/-- Why the system could not read a file. -/
def readFailure (e : IO.Error) : ReadFailure :=
  match e with
  | .noFileOrDirectory _ number details => .system details number.toNat
  | .permissionDenied _ number details => .system details number.toNat
  | .inappropriateType _ number details => .system details number.toNat
  | .invalidArgument _ number details => .system details number.toNat
  | .otherError number details => .system details number.toNat
  | e => .system (toString e) 0

/-- The bytes of a file. -/
def readFile (path : String) : IO (Except ReadFailure (List UInt8)) := do
  try
    let bytes ← IO.FS.withFile path .read fun h => h.readBinToEnd
    return .ok bytes.data.toList
  catch e =>
    return .error (readFailure e)

/-- A line of the input with its line feed; empty at the end of the input. -/
partial def readLine (input : IO.FS.Stream) (line : Array UInt8) : IO (List UInt8) := do
  let chunk ← input.read 1
  match chunk.data.toList with
  | [] => return line.toList
  | b :: _ => if b = Span.lineFeed then return (line.push b).toList else readLine input (line.push b)

/-- Write what has not been written yet. -/
def writeFrom (known : Nat) (bytes : List UInt8) : IO Nat := do
  let out ← IO.getStdout
  out.write ⟨(bytes.drop known).toArray⟩
  out.flush
  return max known bytes.length

/-- Run a file until it ends, with more input and more fuel as it needs them. -/
partial def runToEnd (c : Command) (source : String) (lines : Array (List UInt8)) (closed : Bool)
    (fuel known : Nat) : IO Answer := do
  let outcome := ScopeLang.run fuel source { lines := lines.toList }
  let known ← writeFrom known outcome.console.sink.written.toList
  if outcome.wantsInput && !closed then
    let line ← readLine (← IO.getStdin) #[]
    if line.isEmpty then
      runToEnd c source lines true fuel known
    else
      runToEnd c source (lines.push line) closed fuel known
  else
    match outcome.answer? c.path with
    | some answer => return { answer with output := answer.output.drop known }
    | none => runToEnd c source lines closed (2 * fuel) known

/-- The answer to a command. -/
def answer (c : Command) : IO Answer := do
  match c.mode, ← readFile c.path with
  | .run, .ok bytes =>
    match Text.ofBytes? bytes with
    | some source => runToEnd c source #[] false 1000 0
    | none => return .unreadable c.path .notText
  | _, file => return (c.answer? 0 file {}).getD .misused

end ScopeLang.Main

open ScopeLang in
/-- Answer the arguments of the command line. -/
def main (arguments : List String) : IO UInt32 := do
  let answer ← match Command.ofArguments? arguments with
    | some c => ScopeLang.Main.answer c
    | none => pure .misused
  let _ ← ScopeLang.Main.writeFrom 0 answer.output
  (← IO.getStderr).putStr answer.complaint
  return answer.status.toUInt32
