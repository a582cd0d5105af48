-- SUMMARY: The command line: what is asked for, and what is answered on the two output channels.
import ScopeLang.Program
import ScopeLang.Tree.Dump
import ScopeLang.Tree.Source

/-! # Commands

A command names a file and, with a flag, a view of it: its tokens, its tree, its
source written back, or its global symbols. Without a flag the file is run. The
answer to a command is what it writes to the two output channels and its exit
status: 0 when all went well, 1 when the file could not be read or has a fault,
2 when the arguments make no command.
-/

namespace ScopeLang

/-! ## Arguments -/

/-- What to do with a file. -/
inductive Mode
  | run
  | tokens
  | tree
  | source
  | symbols
  deriving DecidableEq, Repr

/-- The mode that a flag asks for. -/
def Mode.ofFlag? : String → Option Mode
  | "--tokens" => some .tokens
  | "--ast" => some .tree
  | "--source" => some .source
  | "--symbols" => some .symbols
  | _ => none

/-- A file and what to do with it. -/
structure Command where
  mode : Mode
  path : String
  deriving DecidableEq, Repr

/-- The command that some arguments make. A single argument is a file to run,
unless it looks like a flag. -/
def Command.ofArguments? : List String → Option Command
  | [path] => if "--".toList.isPrefixOf path.toList then none else some ⟨.run, path⟩
  | [flag, path] => (Mode.ofFlag? flag).map (⟨·, path⟩)
  | _ => none

/-! ## Answers -/

/-- Why a file could not be read. -/
inductive ReadFailure
  /-- The system's own words and number for it. -/
  | system (description : String) (number : Nat)
  | notText
  deriving DecidableEq, Repr

def ReadFailure.message : ReadFailure → String
  | .system description number => description ++ " (os error " ++ toString number ++ ")"
  | .notText => "stream did not contain valid UTF-8"

/-- What a command writes and its exit status. -/
structure Answer where
  status : UInt8
  output : List UInt8 := []
  complaint : String := ""
  deriving DecidableEq, Repr

/-- The line that says what the arguments should have been. -/
def usage : String :=
  "usage: quill [--tokens | --ast | --source | --symbols] <file>"

namespace Answer

/-- All went well. -/
def success (text : String) : Answer :=
  { status := 0, output := Text.bytes text }

/-- The file has a fault; what was written before it stays. -/
def fault (path : String) (f : Fault) (output : List UInt8) : Answer :=
  { status := 1, output := output, complaint := path ++ ":" ++ f.report.render ++ "\n" }

def unreadable (path : String) (why : ReadFailure) : Answer :=
  { status := 1, complaint := "quill: cannot read " ++ path ++ ": " ++ why.message ++ "\n" }

def misused : Answer :=
  { status := 2, complaint := usage ++ "\n" }

end Answer

/-! ## Views -/

/-- A text with blanks in front of it, up to a width. -/
def padLeft (width : Nat) (s : String) : String :=
  String.ofList (List.replicate (width - s.length) ' ') ++ s

/-- A text with blanks after it, up to a width. -/
def padRight (width : Nat) (s : String) : String :=
  s ++ String.ofList (List.replicate (width - s.length) ' ')

/-- A token as a line: its place and its lexeme. -/
def Token.row (t : Token) : String :=
  padLeft 4 (toString t.span.line) ++ ":" ++ padRight 3 (toString t.span.column) ++ " "
    ++ t.lexeme.render ++ "\n"

/-- A symbol as a line: its kind, its name and its place. -/
def Symbol.row (s : Symbol) : String :=
  padRight 10 s.kind.label ++ " " ++ padRight 16 s.name ++ " " ++ s.span.render ++ "\n"

/-- The view of a source text that a mode asks for; there is none for a run. -/
def Mode.view : Mode → String → Except Fault String
  | .run, _ => return ""
  | .tokens, given => do
    return String.join ((← tokenize given).map Token.row)
  | .tree, given => do
    return (← parse given).dump
  | .source, given => do
    (← parse given).source
  | .symbols, given => do
    let declared := (← compile given).symbols.globals.filter (·.kind != .intrinsic)
    return String.join (declared.map Symbol.row)

/-! ## Answering -/

/-- The answer to a run, if it has come to an end. -/
def Outcome.answer? (path : String) (o : Outcome) : Option Answer :=
  let output := o.console.sink.written.toList
  match o.ending with
  | .value text => some { status := 0, output := output ++ Text.bytes ("Result: " ++ text ++ "\n") }
  | .fault f => some (.fault path f output)
  | .outOfFuel => none

/-- Whether a run ended only because its input did. -/
def Outcome.wantsInput (o : Outcome) : Bool :=
  match o.ending with
  | .fault f => f.cause == .inputEnded
  | _ => false

/-- The answer of a command on the text of its file. -/
def Command.answerText? (c : Command) (fuel : Nat) (source : String) (console : Console) :
    Option Answer :=
  match c.mode with
  | .run => (ScopeLang.run fuel source console).answer? c.path
  | mode =>
    match mode.view source with
    | .ok text => some (.success text)
    | .error f => some (.fault c.path f [])

/-- The answer of a command on the bytes of its file. -/
def Command.answer? (c : Command) (fuel : Nat) (file : Except ReadFailure (List UInt8))
    (console : Console) : Option Answer :=
  match file with
  | .error why => some (.unreadable c.path why)
  | .ok bytes =>
    match Text.ofBytes? bytes with
    | none => some (.unreadable c.path .notText)
    | some source => c.answerText? fuel source console

/-- The answer to some arguments, where `read` gives the bytes of files. The
answer is missing only if a run is not over within its fuel. -/
def answer? (fuel : Nat) (arguments : List String)
    (read : String → Except ReadFailure (List UInt8)) (console : Console) : Option Answer :=
  match Command.ofArguments? arguments with
  | none => some .misused
  | some c => c.answer? fuel (read c.path) console

end ScopeLang
