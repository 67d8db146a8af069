import TensorShape.CallGraph.Analysis
import TensorShape.CallGraph.Environment
import TensorShape.CallGraph.Inlining
import TensorShape.CallGraph.Summary
import TensorShape.Check.Encoding
import TensorShape.Check.EncodingError
import TensorShape.Check.Query
import TensorShape.Check.Translator
import TensorShape.Check.Verifier
import TensorShape.Check.Witness
import TensorShape.Counter
import TensorShape.Error
import TensorShape.Event
import TensorShape.Json
import TensorShape.Json.Reader
import TensorShape.Json.Writer
import TensorShape.Logic.CheckResult
import TensorShape.Logic.Context
import TensorShape.Logic.Engine
import TensorShape.Logic.Flattening
import TensorShape.Logic.Formula
import TensorShape.Logic.Linear
import TensorShape.Logic.Search
import TensorShape.Logic.Session
import TensorShape.Logic.Settings
import TensorShape.Logic.SettingsFile
import TensorShape.Logic.Solver
import TensorShape.Logic.Symbol
import TensorShape.Logic.System
import TensorShape.Memo
import TensorShape.Program.Codec
import TensorShape.Program.Function
import TensorShape.Program.Instruction
import TensorShape.Program.Ty
import TensorShape.Program.WellFormed
import TensorShape.Report
import TensorShape.Symbolic.Builtin
import TensorShape.Symbolic.Codec
import TensorShape.Symbolic.Interpreter
import TensorShape.Symbolic.Machine
import TensorShape.Symbolic.Value
import TensorShape.Table
import TensorShape.Toml.Document
import TensorShape.Toml.Item
import TensorShape.Toml.Lexeme
import TensorShape.Toml.Number
import TensorShape.Word
import TensorShape.Proofs.Expansion
import TensorShape.Proofs.Inlining
import TensorShape.Proofs.Encoding
import TensorShape.Proofs.Entailment
import TensorShape.Proofs.Interpretation
import TensorShape.Proofs.DroppedFacts
import TensorShape.Proofs.Consequence
import TensorShape.Proofs.Weakening
import TensorShape.Proofs.Invalidation
import TensorShape.Proofs.Renaming
import TensorShape.Proofs.MissingSummary
import TensorShape.Proofs.Scoping
import TensorShape.Proofs.RenamedBlocks
import TensorShape.Proofs.RegisterNames
import TensorShape.Proofs.Paths
import TensorShape.Proofs.CallErrors
import TensorShape.Proofs.CallStack
import TensorShape.Proofs.JsonText
import TensorShape.Proofs.SessionHistory
import TensorShape.Proofs.JsonForms
import TensorShape.Proofs.Codec
import TensorShape.Proofs.CallerClosure
import TensorShape.Proofs.CallRecords
import TensorShape.Proofs.FailedSteps
import TensorShape.Proofs.Reordering
import TensorShape.Proofs.Kinds
import TensorShape.Proofs.Translation
import TensorShape.Proofs.SideConditions
import TensorShape.Proofs.Witnesses
import TensorShape.Proofs.Counting
import TensorShape.Proofs.Flaws
import TensorShape.Proofs.MemoHistory
import TensorShape.Proofs.Analysis
