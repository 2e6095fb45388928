import Monkey.Text.Decimal
import Monkey.Text.Fingerprint
import Monkey.Text.Lines
import Monkey.Text.Quoted
import Monkey.Text.Whitespace
import Monkey.Source
import Monkey.Token
import Monkey.Token.Lexer
import Monkey.Diagnostic
import Monkey.Tree
import Monkey.Tree.Parser
import Monkey.Tree.Printer
import Monkey.Fault
import Monkey.Hash
import Monkey.Value
import Monkey.Value.Printer
import Monkey.Machine
import Monkey.Eval
import Monkey.Operator
import Monkey.Builtin
import Monkey.Evaluator
import Monkey.Session
import Monkey.Main
import Monkey.Proofs.Grammar
import Monkey.Proofs.ParserCompleteness
import Monkey.Proofs.Effect
import Monkey.Proofs.Occurrence
import Monkey.Proofs.ParserSoundness
import Monkey.Proofs.Mention
import Monkey.Proofs.ScopeFrame
import Monkey.Proofs.Contents
import Monkey.Proofs.Logic
import Monkey.Proofs.Reachability
import Monkey.Proofs.Discipline
import Monkey.Proofs.Reference
import Monkey.Proofs.Tracking
import Monkey.Proofs.CleanReturn
import Monkey.Proofs.Activity
import Monkey.Proofs.DisciplinedRun
import Monkey.Proofs.ProgramResult
import Monkey.Proofs.NestedReturn
import Monkey.Proofs.Tokenization
import Monkey.Proofs.Scanner
import Monkey.Proofs.HashIndex
import Monkey.Proofs.WellFormedness
import Monkey.Proofs.Relocation
import Monkey.Proofs.RelocatedParse
import Monkey.Proofs.RelocatedValue
import Monkey.Proofs.RelocatedRun
import Monkey.Proofs.QuoteParity
import Monkey.Proofs.Seam
import Monkey.Proofs.Series
import Monkey.Proofs.Respelling
import Monkey.Proofs.Reprint
import Monkey.Proofs.Course
import Monkey.Proofs.Layout
import Monkey.Proofs.HiddenBinding
import Monkey.Proofs.UnmentionedBinding
import Monkey.Proofs.Transcript
import Monkey.Proofs.Identity
import Monkey.Proofs.Ledger
import Monkey.Proofs.LedgeredRun
import Monkey.Proofs.IdentityLaws
import Monkey.Proofs.InsertionOrder
import Monkey.Proofs.Blame
import Monkey.Proofs.DiagnosticOrder
import Monkey.Proofs.Foresight
import Monkey.Proofs.FirstDiagnostic
import Monkey.Proofs.Window
import Monkey.Proofs.WindowedParse
import Monkey.Proofs.HashLookup
import Monkey.Proofs.Equality
import Monkey.Proofs.HashRebuild
import Monkey.Proofs.DataLiteral
import Monkey.Proofs.Inspection
import Monkey.Proofs.MissingArguments
import Monkey.Proofs.FaultDominance
import Monkey.Proofs.Depth
import Monkey.Proofs.Arithmetic
import Monkey.Proofs.Continuation
import Monkey.Proofs.TotalCorrectness
import Monkey.Proofs.MapReduce
import Monkey.Proofs.NearestBinding
import Monkey.Proofs.WrittenTokens
import Monkey.Proofs.ArrayLaws
