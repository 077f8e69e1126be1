import DerivedSignal.Alignment
import DerivedSignal.Arguments
import DerivedSignal.Attempt
import DerivedSignal.CommandLine
import DerivedSignal.Config
import DerivedSignal.Definition
import DerivedSignal.Dialogue
import DerivedSignal.Document
import DerivedSignal.Error
import DerivedSignal.Evaluator
import DerivedSignal.Exchange
import DerivedSignal.FileTree
import DerivedSignal.Json.Printer
import DerivedSignal.Json.Reader
import DerivedSignal.Json.Value
import DerivedSignal.Limits
import DerivedSignal.Main
import DerivedSignal.NameMap
import DerivedSignal.Number.Binary
import DerivedSignal.Number.Decimal
import DerivedSignal.Number.FloatMath
import DerivedSignal.Number.Power
import DerivedSignal.Number.Text
import DerivedSignal.OutputShape
import DerivedSignal.Proofs.FloatOrder
import DerivedSignal.Proofs.SeriesOrder
import DerivedSignal.Registry
import DerivedSignal.Script.Builtin
import DerivedSignal.Script.Eval
import DerivedSignal.Script.Expr
import DerivedSignal.Script.Failure
import DerivedSignal.Script.HostMath
import DerivedSignal.Script.Lexer
import DerivedSignal.Script.Machine
import DerivedSignal.Script.Parser
import DerivedSignal.Script.Session
import DerivedSignal.Script.Simplify
import DerivedSignal.Script.Token
import DerivedSignal.Script.Value
import DerivedSignal.Series
import DerivedSignal.StandardSnippets
import DerivedSignal.Storage
import DerivedSignal.Template
import DerivedSignal.Text.Blank
import DerivedSignal.Text.Quoted
import DerivedSignal.Toml.Reader
import DerivedSignal.Toml.Scalar
import DerivedSignal.Toml.Tree
import DerivedSignal.Toml.Value
import DerivedSignal.Toml.Writer
import DerivedSignal.Transform
import DerivedSignal.TransformSet
import DerivedSignal.Xml.CharacterData
import DerivedSignal.Xml.Cursor
import DerivedSignal.Xml.Fault
import DerivedSignal.Xml.Node
import DerivedSignal.Xml.Reader
import DerivedSignal.Xml.Writer
import DerivedSignal.Proofs.OutputSeries
import DerivedSignal.Proofs.PassEvaluation
import DerivedSignal.Proofs.Compilation
import DerivedSignal.Proofs.OutputNames
import DerivedSignal.Proofs.SessionState
import DerivedSignal.Proofs.FailedPass
import DerivedSignal.Proofs.ScratchRun
import DerivedSignal.Proofs.IncrementalRun
import DerivedSignal.Proofs.EscapedText
import DerivedSignal.Proofs.TagReading
import DerivedSignal.Proofs.ContentReading
import DerivedSignal.Proofs.DocumentReading
import DerivedSignal.Proofs.DocumentRoundTrip
import DerivedSignal.Proofs.EvaluatorProtocol
import DerivedSignal.Proofs.Restart
import DerivedSignal.Proofs.TiedSamples
import DerivedSignal.Proofs.LoadOrder
import DerivedSignal.Proofs.SessionReload
import DerivedSignal.Proofs.IdlePasses
import DerivedSignal.Proofs.Custody
import DerivedSignal.Proofs.SharedOutputs
import DerivedSignal.Proofs.AllowedCharacters
import DerivedSignal.Proofs.Resaving
import DerivedSignal.Proofs.FloatRounding
import DerivedSignal.Proofs.FloatSubtraction
import DerivedSignal.Proofs.Timestamps
import DerivedSignal.Proofs.Eviction
import DerivedSignal.Proofs.RetentionWindow
import DerivedSignal.Proofs.WriteFootprint
import DerivedSignal.Proofs.CleanAddition
import DerivedSignal.Proofs.Independence
import DerivedSignal.Proofs.DocumentLoading
import DerivedSignal.Proofs.ReadableTexts
import DerivedSignal.Proofs.SavedDocuments
import DerivedSignal.Proofs.HostDomain
import DerivedSignal.Proofs.ScopeKeeping
import DerivedSignal.Proofs.RunEndings
import DerivedSignal.Proofs.CallNames
import DerivedSignal.Proofs.ScriptRuns
import DerivedSignal.Proofs.GlobalVariables
import DerivedSignal.Proofs.TokenNames
import DerivedSignal.Proofs.ParsedCalls
import DerivedSignal.Proofs.MentionedNames
import DerivedSignal.Proofs.SessionAborts
import DerivedSignal.Proofs.HostSafety
import DerivedSignal.Proofs.SortedWindow
import DerivedSignal.Proofs.SeriesLookups
import DerivedSignal.Proofs.Segmentation
import DerivedSignal.Proofs.CommandAgreement
import DerivedSignal.Proofs.ListedChannels
import DerivedSignal.Proofs.SampleRecurrences
import DerivedSignal.Proofs.StatefulSnippets
import DerivedSignal.Proofs.IntegerDivision
import DerivedSignal.Proofs.WidenedIntegers
import DerivedSignal.Proofs.HostCalls
import DerivedSignal.Proofs.ConstantFolding
import DerivedSignal.Proofs.FailedRequests
import DerivedSignal.Proofs.ShapeExtraction
import DerivedSignal.Proofs.ElementPlaces
import DerivedSignal.Proofs.DefinitionFormat
import DerivedSignal.Proofs.QuotedTexts
import DerivedSignal.Proofs.WrittenIntegers
import DerivedSignal.Proofs.SavedConfiguration
import DerivedSignal.Proofs.JsonTexts
import DerivedSignal.Proofs.JsonValues
import DerivedSignal.Proofs.ShortestDecimals
import DerivedSignal.Proofs.FloatMultiplication
import DerivedSignal.Proofs.DoubleLiterals
import DerivedSignal.Proofs.ResultReading
import DerivedSignal.Proofs.BindingOrder
import DerivedSignal.Proofs.CompilationOutcome
import DerivedSignal.Proofs.DistinctOutputs
import DerivedSignal.Proofs.FuelIndependence
import DerivedSignal.Proofs.PromptSteps
import DerivedSignal.Proofs.Termination
import DerivedSignal.Proofs.Linking
