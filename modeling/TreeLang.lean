import TreeLang.Text.Basic
import TreeLang.Text.Utf8
import TreeLang.Text.Printable
import TreeLang.Text.Quoted
import TreeLang.Text.Blank
import TreeLang.Text.Integer
import TreeLang.Yaml.Document
import TreeLang.Yaml.Print
import TreeLang.Tree.Basic
import TreeLang.Tree.Build
import TreeLang.Tree.Decode
import TreeLang.Tree.Stream
import TreeLang.Tree.Encode
import TreeLang.Scope.Forest
import TreeLang.Eval.Tree
import TreeLang.Eval.Request
import TreeLang.Eval.Source
import TreeLang.Eval.Store
import TreeLang.Library
import TreeLang.Library.Source
import TreeLang.Batch
import TreeLang.Batch.Schedule
import TreeLang.Log
import TreeLang.Session.Basic
import TreeLang.Command.Basic
import TreeLang.Main
import TreeLang.Proofs.Eval.Logic
import TreeLang.Proofs.Eval.Course
import TreeLang.Proofs.Scope.Discipline
import TreeLang.Proofs.Eval.Frames
import TreeLang.Proofs.Eval.Output
import TreeLang.Proofs.Eval.Simulation
import TreeLang.Proofs.Eval.CutShort
import TreeLang.Proofs.Eval.StepLimit
import TreeLang.Proofs.Eval.Halting
import TreeLang.Proofs.Eval.Cancellation
import TreeLang.Proofs.Scope.FrameMap
import TreeLang.Proofs.Eval.EmptyFrame
import TreeLang.Proofs.Eval.TopLevel
import TreeLang.Proofs.Eval.Renaming
import TreeLang.Proofs.Tree.Codec
import TreeLang.Proofs.Text.Utf8
import TreeLang.Proofs.Yaml.Source
import TreeLang.Proofs.Leads
import TreeLang.Proofs.Yaml.Cursor
import TreeLang.Proofs.Yaml.PlainScalar
import TreeLang.Proofs.Yaml.BlockScalar
import TreeLang.Proofs.Yaml.TokenRules
import TreeLang.Proofs.Yaml.TokenSteps
import TreeLang.Proofs.Yaml.Layout
import TreeLang.Proofs.Yaml.LayoutTokens
import TreeLang.Proofs.Yaml.EventRules
import TreeLang.Proofs.Yaml.Composed
import TreeLang.Proofs.Yaml.NodeLayout
import TreeLang.Proofs.Yaml.DecimalStyle
import TreeLang.Proofs.Tree.Grammar
import TreeLang.Proofs.Tree.Decoding
import TreeLang.Proofs.Tree.Anchoring
import TreeLang.Proofs.Tree.Expansion
import TreeLang.Proofs.Tree.AliasBound
import TreeLang.Proofs.Tree.Stream
import TreeLang.Proofs.Tree.Recovery
import TreeLang.Proofs.Tree.RoundTrip
import TreeLang.Proofs.Tree.TreeLayout
import TreeLang.Proofs.Tree.FlowStyle
import TreeLang.Proofs.Tree.StringForm
import TreeLang.Proofs.Tree.Build
import TreeLang.Proofs.Batch.Requests
import TreeLang.Proofs.Batch.Schedule
import TreeLang.Proofs.Eval.Obedience
import TreeLang.Proofs.Eval.Variables
import TreeLang.Proofs.Session.Account
import TreeLang.Proofs.Command.Together
import TreeLang.Proofs.Eval.Conduct
import TreeLang.Proofs.Eval.Shadowing
import TreeLang.Proofs.Eval.Sinks
import TreeLang.Proofs.Eval.Errors
import TreeLang.Proofs.Eval.Values
import TreeLang.Proofs.Library.Recursion
import TreeLang.Proofs.Scope.Binders
import TreeLang.Proofs.Library.Loops
import TreeLang.Proofs.Eval.Repetition
import TreeLang.Proofs.Eval.Nesting
import TreeLang.Proofs.Eval.Arithmetic
import TreeLang.Proofs.Library.Loading
import TreeLang.Proofs.Library.Sources
import TreeLang.Proofs.Carries
import TreeLang.Proofs.Yaml.Passage
import TreeLang.Proofs.Yaml.FlowMarks
import TreeLang.Proofs.Yaml.HandOut
import TreeLang.Proofs.Session.OneLine
