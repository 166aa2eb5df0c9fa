import FlowGraph.Syntax.Substitution
import FlowGraph.Diagnostic
import FlowGraph.Simplification.Fixpoint
import FlowGraph.Graph.Consistency
import FlowGraph.Dot.Document
import FlowGraph.Construction.Build
import FlowGraph.Simplification.Exhaustion
import FlowGraph.Simplification.Prune
import FlowGraph.Traversal.Walk
import FlowGraph.Simplification.Absorption
import FlowGraph.Simplification.Bypass
import FlowGraph.Ssa.Conversion
import FlowGraph.Proofs.Construction.Reading
import FlowGraph.Proofs.Construction.Piece
import FlowGraph.Proofs.Construction.Realization
import FlowGraph.Proofs.Construction.Faithfulness
import FlowGraph.Proofs.Graph.Mirrored
import FlowGraph.Proofs.Graph.MapBlocks
import FlowGraph.Proofs.Simplification.Absorbed
import FlowGraph.Proofs.Simplification.Bypassed
import FlowGraph.Proofs.Graph.Reachability
import FlowGraph.Proofs.Simplification.Pruned
import FlowGraph.Proofs.Traversal.Walk
import FlowGraph.Proofs.Simplification.Rewriting
import FlowGraph.Proofs.Graph.Operation
import FlowGraph.Proofs.Simplification.Runs
import FlowGraph.Proofs.Graph.Path
import FlowGraph.Proofs.Traversal.Tracking
import FlowGraph.Proofs.Ssa.Definition
import FlowGraph.Proofs.Ssa.Placed
import FlowGraph.Proofs.Ssa.Renamed
import FlowGraph.Proofs.Ssa.UseDefinition
import FlowGraph.Proofs.Ssa.Issued
import FlowGraph.Proofs.Ssa.Traced
import FlowGraph.Proofs.Construction.WellFormed
import FlowGraph.Proofs.Simplification.Entry
import FlowGraph.Proofs.Ssa.Capture
import FlowGraph.Proofs.Ssa.Reads
import FlowGraph.Proofs.Ssa.Undeclared
import FlowGraph.Proofs.Construction.Exit
import FlowGraph.Proofs.Construction.Place
import FlowGraph.Proofs.Construction.Untouched
import FlowGraph.Proofs.Construction.Region
import FlowGraph.Proofs.Construction.Diagnosed
import FlowGraph.Proofs.Ssa.Retained
import FlowGraph.Proofs.Construction.Formed
import FlowGraph.Proofs.Simplification.Framed
import FlowGraph.Proofs.Ssa.Shaped
import FlowGraph.Proofs.Traversal.Lockstep
import FlowGraph.Proofs.Graph.Renumbered
import FlowGraph.Proofs.Simplification.Lockstep
import FlowGraph.Proofs.Ssa.Lockstep
import FlowGraph.Proofs.Construction.Deletion
import FlowGraph.Proofs.Construction.Widened
import FlowGraph.Proofs.Construction.DeadCode
import FlowGraph.Proofs.Graph.Tree
import FlowGraph.Proofs.Traversal.Ordered
import FlowGraph.Proofs.Ssa.Numbered
import FlowGraph.Proofs.Ssa.Delivered
import FlowGraph.Proofs.Dot.Legible
import FlowGraph.Proofs.Construction.Colored
import FlowGraph.Proofs.Construction.Guarded
import FlowGraph.Proofs.Simplification.Branches
import FlowGraph.Proofs.Construction.BranchColors
import FlowGraph.Proofs.Traversal.Recursive
import FlowGraph.Proofs.Ssa.Offered
import FlowGraph.Proofs.Ssa.NamesOnly
import FlowGraph.Proofs.Simplification.Gathered
import FlowGraph.Proofs.Traversal.DepthFirst
import FlowGraph.Proofs.Simplification.Contract
import FlowGraph.Proofs.Construction.Straight
import FlowGraph.Proofs.Construction.Drafted
import FlowGraph.Proofs.Simplification.Termination
import FlowGraph.Proofs.Graph.Disagreement
import FlowGraph.Proofs.Dot.Escaped
import FlowGraph.Proofs.Syntax.Substituted
import FlowGraph.Proofs.Syntax.Reader
