import ChainLowering.Arena.Build
import ChainLowering.Arena.Chain
import ChainLowering.Diagnostic
import ChainLowering.Text.Blank
import ChainLowering.Source.Reader
import ChainLowering.Print.Layout
import ChainLowering.Lowering.Pass
import ChainLowering.Run.Eval
import ChainLowering.LogFormat
import ChainLowering.Proofs.Grown
import ChainLowering.Proofs.Holds
import ChainLowering.Proofs.EditSound
import ChainLowering.Proofs.Desugar
import ChainLowering.Proofs.LowerRules
import ChainLowering.Proofs.WalkSound
import ChainLowering.Proofs.SegmentSound
import ChainLowering.Proofs.TempSound
import ChainLowering.Proofs.GuardSound
import ChainLowering.Proofs.ChainSound
import ChainLowering.Proofs.Forest
import ChainLowering.Proofs.Rewriting
import ChainLowering.Proofs.ReadRules
import ChainLowering.Proofs.ReadSound
import ChainLowering.Proofs.NurserySound
import ChainLowering.Proofs.Descent
import ChainLowering.Proofs.Ends
import ChainLowering.Proofs.Soundness
import ChainLowering.Proofs.Settings
import ChainLowering.Proofs.PassSound
import ChainLowering.Proofs.Completeness
import ChainLowering.Proofs.Machines
import ChainLowering.Proofs.RunRules
import ChainLowering.Proofs.Simulation
import ChainLowering.Proofs.Misfits
import ChainLowering.Proofs.Merge
import ChainLowering.Proofs.OneChain
import ChainLowering.Proofs.Alike
import ChainLowering.Proofs.Fresh
import ChainLowering.Proofs.Twins
import ChainLowering.Proofs.AnyOrder
import ChainLowering.Proofs.Hygiene
import ChainLowering.Proofs.ReadRuns
import ChainLowering.Proofs.Levels
import ChainLowering.Proofs.Phrases
import ChainLowering.Proofs.Sentences
import ChainLowering.Proofs.Spelling
import ChainLowering.Proofs.Printing
import ChainLowering.Proofs.Recital
import ChainLowering.Proofs.Spacing
import ChainLowering.Proofs.GrammarSound
import ChainLowering.Proofs.RoundTrip
import ChainLowering.Proofs.Leaves
import ChainLowering.Proofs.Edits
import ChainLowering.Proofs.Loops
import ChainLowering.Proofs.Trees
import ChainLowering.Proofs.Faults
import ChainLowering.Proofs.Rejection
import ChainLowering.Proofs.Atomic
import ChainLowering.Proofs.Preserved
import ChainLowering.Proofs.CallDepth
import ChainLowering.Proofs.CallSound
import ChainLowering.Proofs.EvalRules
import ChainLowering.Proofs.CallMember
import ChainLowering.Proofs.LinkSound
import ChainLowering.Proofs.ExprSound
import ChainLowering.Proofs.TowerSound
import ChainLowering.Proofs.OperatorSound
import ChainLowering.Proofs.StatementSound
import ChainLowering.Proofs.ScriptSound
import ChainLowering.Proofs.Reports
import ChainLowering.Proofs.Partition
import ChainLowering.Proofs.Allocation
import ChainLowering.Proofs.Scanning
import ChainLowering.Proofs.ShortCircuit
import ChainLowering.Proofs.ReadEnds
import ChainLowering.Proofs.Requests
import ChainLowering.Proofs.UnusedGlobals
import ChainLowering.Proofs.Places
import ChainLowering.Proofs.Beside
import ChainLowering.Proofs.BesideSound
import ChainLowering.Proofs.Rounds
import ChainLowering.Proofs.Spans
import ChainLowering.Proofs.Lines
import ChainLowering.Proofs.Appending
import ChainLowering.Proofs.Traversal
import ChainLowering.Proofs.Lexemes
import ChainLowering.Proofs.Progress
import ChainLowering.Proofs.Templates
