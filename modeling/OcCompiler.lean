import OcCompiler.Analysis.Check
import OcCompiler.Analysis.Resolve
import OcCompiler.Analysis.State
import OcCompiler.Analysis.Visit
import OcCompiler.Attributes
import OcCompiler.CommandLine
import OcCompiler.Compilation
import OcCompiler.Diagnostic
import OcCompiler.Execution
import OcCompiler.Fault
import OcCompiler.FileSystem
import OcCompiler.Location
import OcCompiler.Main
import OcCompiler.Oil.Emit
import OcCompiler.Oil.Module
import OcCompiler.Oil.OfAnalysis
import OcCompiler.Oil.Operand
import OcCompiler.Operator
import OcCompiler.Path
import OcCompiler.Program.Basic
import OcCompiler.Program.Cursor
import OcCompiler.Program.Parse
import OcCompiler.Program.ParseExpr
import OcCompiler.Proofs.Binding
import OcCompiler.Proofs.Building
import OcCompiler.Proofs.CallChecks
import OcCompiler.Proofs.Chains
import OcCompiler.Proofs.Coverage
import OcCompiler.Proofs.Definitions
import OcCompiler.Proofs.Deliveries
import OcCompiler.Proofs.Denotation
import OcCompiler.Proofs.Describes
import OcCompiler.Proofs.Diagnosed
import OcCompiler.Proofs.Dumps
import OcCompiler.Proofs.Effect
import OcCompiler.Proofs.Emission
import OcCompiler.Proofs.EqualityOrder
import OcCompiler.Proofs.ErrorPosition
import OcCompiler.Proofs.ExprCode
import OcCompiler.Proofs.ExprTyping
import OcCompiler.Proofs.Faultless
import OcCompiler.Proofs.FieldTables
import OcCompiler.Proofs.FilePlaces
import OcCompiler.Proofs.FirstDeclarations
import OcCompiler.Proofs.Forest
import OcCompiler.Proofs.Forward
import OcCompiler.Proofs.FunctionNames
import OcCompiler.Proofs.FunctionTyping
import OcCompiler.Proofs.Grammar
import OcCompiler.Proofs.GrammarComplete
import OcCompiler.Proofs.GrammarSound
import OcCompiler.Proofs.ItemTyping
import OcCompiler.Proofs.Judgement
import OcCompiler.Proofs.Labels
import OcCompiler.Proofs.Layout
import OcCompiler.Proofs.LexicalGrammar
import OcCompiler.Proofs.LineRoom
import OcCompiler.Proofs.Lockstep
import OcCompiler.Proofs.Lowering
import OcCompiler.Proofs.Machine
import OcCompiler.Proofs.Mentions
import OcCompiler.Proofs.NameWalk
import OcCompiler.Proofs.NamesKept
import OcCompiler.Proofs.NoCascade
import OcCompiler.Proofs.OperandValues
import OcCompiler.Proofs.PlaceIndependence
import OcCompiler.Proofs.Places
import OcCompiler.Proofs.Planting
import OcCompiler.Proofs.Preservation
import OcCompiler.Proofs.Printing
import OcCompiler.Proofs.Progress
import OcCompiler.Proofs.Queues
import OcCompiler.Proofs.Reading
import OcCompiler.Proofs.Realizes
import OcCompiler.Proofs.Registers
import OcCompiler.Proofs.Relabelling
import OcCompiler.Proofs.Releasing
import OcCompiler.Proofs.Renumbering
import OcCompiler.Proofs.Repetition
import OcCompiler.Proofs.Rescanning
import OcCompiler.Proofs.Resolution
import OcCompiler.Proofs.Returns
import OcCompiler.Proofs.ScopeFrame
import OcCompiler.Proofs.Scopes
import OcCompiler.Proofs.Scoping
import OcCompiler.Proofs.Segmentation
import OcCompiler.Proofs.Settled
import OcCompiler.Proofs.SingleDeclarations
import OcCompiler.Proofs.Spelling
import OcCompiler.Proofs.StmtCode
import OcCompiler.Proofs.StmtTyping
import OcCompiler.Proofs.StringConstants
import OcCompiler.Proofs.StringSlots
import OcCompiler.Proofs.StructTyping
import OcCompiler.Proofs.Structured
import OcCompiler.Proofs.Symbols
import OcCompiler.Proofs.TableChanges
import OcCompiler.Proofs.TableRuns
import OcCompiler.Proofs.TableSteps
import OcCompiler.Proofs.TokenPlaces
import OcCompiler.Proofs.TokenTexts
import OcCompiler.Proofs.TopLevelNames
import OcCompiler.Proofs.TreeLinks
import OcCompiler.Proofs.TreeOperations
import OcCompiler.Proofs.TreeShape
import OcCompiler.Proofs.Unplaced
import OcCompiler.Proofs.UnplacedAnalysis
import OcCompiler.Proofs.VariableScope
import OcCompiler.Proofs.Visits
import OcCompiler.Proofs.VoidCalls
import OcCompiler.Proofs.VoidOperands
import OcCompiler.Proofs.Walk
import OcCompiler.Proofs.WalkAgrees
import OcCompiler.Run
import OcCompiler.Symbol.Table
import OcCompiler.Tag
import OcCompiler.Text.Blank
import OcCompiler.Text.Padding
import OcCompiler.Token.Kind
import OcCompiler.Token.Piece
import OcCompiler.Token.Stream
import OcCompiler.Tree.Basic
import OcCompiler.Tree.Dump
import OcCompiler.Tree.Parse
import OcCompiler.Tree.Sapling
import OcCompiler.Typing
import OcCompiler.ValueType
import OcCompiler.Workspace
