import SyntaxForest.Agenda
import SyntaxForest.Edit.Basic
import SyntaxForest.Edit.Resize
import SyntaxForest.Edit.Split
import SyntaxForest.Extent
import SyntaxForest.Fault
import SyntaxForest.Lengths
import SyntaxForest.Node.Basic
import SyntaxForest.Node.Id
import SyntaxForest.Pool.Basic
import SyntaxForest.Pool.Build
import SyntaxForest.Pool.Edit
import SyntaxForest.Pool.Event
import SyntaxForest.Pool.Ownership
import SyntaxForest.Pool.Walk
import SyntaxForest.Sexpr
import SyntaxForest.Span
import SyntaxForest.Symbol.Basic
import SyntaxForest.Symbol.Table
import SyntaxForest.Text.Extending
import SyntaxForest.Text.Glyphless
import SyntaxForest.Text.Quoted
import SyntaxForest.Word
import SyntaxForest.Proofs.Computes
import SyntaxForest.Proofs.Pool.View
import SyntaxForest.Proofs.Pool.Unit
import SyntaxForest.Proofs.Tree.Basic
import SyntaxForest.Proofs.Tree.Edit
import SyntaxForest.Proofs.Pool.Unfold
import SyntaxForest.Proofs.Pool.Owned
import SyntaxForest.Proofs.Pool.Handover
import SyntaxForest.Proofs.Pool.Depth
import SyntaxForest.Proofs.Edit.Carry
import SyntaxForest.Proofs.Pool.Build
import SyntaxForest.Proofs.Pool.Balance
import SyntaxForest.Proofs.Session
import SyntaxForest.Proofs.Tree.Measured
import SyntaxForest.Proofs.Measured
import SyntaxForest.Proofs.Edit.Refinement
import SyntaxForest.Proofs.Tree.Place
import SyntaxForest.Proofs.Tree.Asked
import SyntaxForest.Proofs.Tree.Cut
import SyntaxForest.Proofs.Tree.Tallied
import SyntaxForest.Proofs.Tree.Image
import SyntaxForest.Proofs.Tree.Outline
import SyntaxForest.Proofs.Outline
import SyntaxForest.Proofs.Tree.Commute
import SyntaxForest.Proofs.Tallied
import SyntaxForest.Proofs.Commute
import SyntaxForest.Proofs.Walks
import SyntaxForest.Proofs.Kind
import SyntaxForest.Proofs.Tree.Flags
import SyntaxForest.Proofs.Flags
import SyntaxForest.Proofs.Text.Measure
import SyntaxForest.Proofs.Tree.Spelling
import SyntaxForest.Proofs.Tree.Rewriting
import SyntaxForest.Proofs.Spelling
import SyntaxForest.Proofs.Tree.Moves
import SyntaxForest.Proofs.Tree.Overrun
import SyntaxForest.Proofs.Overrun
import SyntaxForest.Proofs.Ends
import SyntaxForest.Proofs.Pool.Turn
import SyntaxForest.Proofs.Pool.Course
import SyntaxForest.Proofs.Pool.Yields
import SyntaxForest.Proofs.Commons
import SyntaxForest.Proofs.Pool.Ranked
import SyntaxForest.Proofs.Edit.Ranked
import SyntaxForest.Proofs.Pool.Backed
import SyntaxForest.Proofs.Traversal
import SyntaxForest.Proofs.Apart
import SyntaxForest.Proofs.Edit.Exact
import SyntaxForest.Proofs.Tree.Parts
import SyntaxForest.Proofs.Edit.Arrivals
import SyntaxForest.Proofs.Total
import SyntaxForest.Proofs.Edit.Refusal
import SyntaxForest.Proofs.Text.Stretch
import SyntaxForest.Proofs.Tree.Leaves
import SyntaxForest.Proofs.Grouping
import SyntaxForest.Proofs.Pool.Wane
import SyntaxForest.Proofs.Release
import SyntaxForest.Proofs.Pool.Steady
import SyntaxForest.Proofs.Pool.Copy
import SyntaxForest.Proofs.Tree.Touched
import SyntaxForest.Proofs.Edit.Copies
import SyntaxForest.Proofs.Copies
import SyntaxForest.Proofs.Postorder
import SyntaxForest.Proofs.Comparison
import SyntaxForest.Proofs.Ruled
import SyntaxForest.Proofs.Recorded
import SyntaxForest.Proofs.Fragile
import SyntaxForest.Proofs.Frontier
import SyntaxForest.Proofs.Text.Residual
import SyntaxForest.Proofs.Text.Sum
import SyntaxForest.Proofs.Capacity
