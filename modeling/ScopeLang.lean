import ScopeLang.Command
import ScopeLang.Console
import ScopeLang.Eval
import ScopeLang.Fault.Cause
import ScopeLang.Fault.Code
import ScopeLang.Intrinsic
import ScopeLang.Main
import ScopeLang.NameMap
import ScopeLang.Operator
import ScopeLang.Program
import ScopeLang.Proofs.Concatenation
import ScopeLang.Proofs.Coupling
import ScopeLang.Proofs.CursorSteps
import ScopeLang.Proofs.Cursors
import ScopeLang.Proofs.DeclarationLog
import ScopeLang.Proofs.Escorts
import ScopeLang.Proofs.FaultPlaces
import ScopeLang.Proofs.Finders
import ScopeLang.Proofs.GlobalNames
import ScopeLang.Proofs.Grammar
import ScopeLang.Proofs.InputAnswers
import ScopeLang.Proofs.InputDemand
import ScopeLang.Proofs.IntegerExpressions
import ScopeLang.Proofs.LexicalGrammar
import ScopeLang.Proofs.LexicalScoping
import ScopeLang.Proofs.LiteralText
import ScopeLang.Proofs.Locality
import ScopeLang.Proofs.MovedPlaces
import ScopeLang.Proofs.NameGrowth
import ScopeLang.Proofs.NameSafety
import ScopeLang.Proofs.OutputLimit
import ScopeLang.Proofs.ParseExpression
import ScopeLang.Proofs.ParseProgram
import ScopeLang.Proofs.ParseStatement
import ScopeLang.Proofs.ParserProgress
import ScopeLang.Proofs.PlaceIndependence
import ScopeLang.Proofs.Places
import ScopeLang.Proofs.Positions
import ScopeLang.Proofs.PrintedIntegers
import ScopeLang.Proofs.Reading
import ScopeLang.Proofs.Rendering
import ScopeLang.Proofs.Resolution
import ScopeLang.Proofs.RoundTrip
import ScopeLang.Proofs.Scanning
import ScopeLang.Proofs.ScopeHistory
import ScopeLang.Proofs.ScopeMirrors
import ScopeLang.Proofs.Scopes
import ScopeLang.Proofs.ShapeSafety
import ScopeLang.Proofs.TreeDump
import ScopeLang.Proofs.Uses
import ScopeLang.Proofs.Visibility
import ScopeLang.Proofs.Watching
import ScopeLang.Proofs.WellFormed
import ScopeLang.Span
import ScopeLang.Store
import ScopeLang.Symbol.Resolve
import ScopeLang.Symbol.Table
import ScopeLang.Text.Blank
import ScopeLang.Text.Bytes
import ScopeLang.Text.Decimal
import ScopeLang.Text.GraphemeExtend
import ScopeLang.Text.Ignorable
import ScopeLang.Text.Inspect
import ScopeLang.Text.Printable
import ScopeLang.Text.Quoted
import ScopeLang.Text.Runs
import ScopeLang.Token.Basic
import ScopeLang.Token.Scan
import ScopeLang.Token.Stream
import ScopeLang.Tree.Basic
import ScopeLang.Tree.Dump
import ScopeLang.Tree.Parse
import ScopeLang.Tree.Source
import ScopeLang.Value
