import TreeQuery.Main
import TreeQuery.Proofs.Tree.Growth
import TreeQuery.Proofs.Tree.Ownership
import TreeQuery.Proofs.Tree.Preorder
import TreeQuery.Proofs.Evaluation.DepthFirst
import TreeQuery.Proofs.Evaluation.Union
import TreeQuery.Proofs.Tree.Traversal
import TreeQuery.Proofs.Token.Layout
import TreeQuery.Proofs.Token.Language
import TreeQuery.Proofs.Selector.Derivation
import TreeQuery.Proofs.Selector.Slices
import TreeQuery.Proofs.Selector.Acceptance
import TreeQuery.Proofs.Selector.Recovery
import TreeQuery.Proofs.Selector.RoundTrip
import TreeQuery.Proofs.Query.Alternation
import TreeQuery.Proofs.Evaluation.Comparison
import TreeQuery.Proofs.Tree.Isomorphism
import TreeQuery.Proofs.Evaluation.Invariance
import TreeQuery.Proofs.Evaluation.Reuse
import TreeQuery.Proofs.Evaluation.Anchors
import TreeQuery.Proofs.Query.Path
import TreeQuery.Proofs.Tree.Loading
import TreeQuery.Proofs.Json.Spelling
import TreeQuery.Proofs.Json.Text
import TreeQuery.Proofs.Json.Writing
import TreeQuery.Proofs.Json.Reader
import TreeQuery.Proofs.Json.Unambiguous
import TreeQuery.Proofs.Spec.Description
import TreeQuery.Proofs.Spec.Drafting
import TreeQuery.Proofs.Spec.Reading
import TreeQuery.Proofs.Spec.Nesting
import TreeQuery.Proofs.Tree.Document
import TreeQuery.Proofs.Tree.Reordering
import TreeQuery.Proofs.Selector.LexError
import TreeQuery.Proofs.Selector.Calls
import TreeQuery.Proofs.Query.Extension
import TreeQuery.Proofs.Query.Safety
import TreeQuery.Proofs.Query.Log
import TreeQuery.Proofs.Command.Check
import TreeQuery.Proofs.Command.Reordering
import TreeQuery.Proofs.Selector.Finished
import TreeQuery.Proofs.Selector.Misfit
import TreeQuery.Proofs.Tree.Arena
import TreeQuery.Proofs.Selector.Braces
import TreeQuery.Proofs.Tree.Generation
import TreeQuery.Proofs.Evaluation.Closure
import TreeQuery.Proofs.Evaluation.Distinct
import TreeQuery.Proofs.Evaluation.Filtering
import TreeQuery.Proofs.Evaluation.Fusion
import TreeQuery.Proofs.Evaluation.Navigation
import TreeQuery.Proofs.Tree.Path
import TreeQuery.Proofs.Query.Drawing
import TreeQuery.Proofs.Token.Runs
import TreeQuery.Proofs.Token.Literal
