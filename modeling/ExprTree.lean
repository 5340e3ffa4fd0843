import ExprTree.Main
import ExprTree.Proofs.CodeMotion
import ExprTree.Proofs.ConstantFolding
import ExprTree.Proofs.Soundness
import ExprTree.Proofs.GeneratedTrees
import ExprTree.Proofs.BenchmarkCheck
import ExprTree.Proofs.FreshVariables
import ExprTree.Proofs.ByNeed
import ExprTree.Proofs.GeneratorCalls
import ExprTree.Proofs.FailingTests
import ExprTree.Proofs.Nameless
import ExprTree.Proofs.FoldingFixpoint
import ExprTree.Proofs.ClosedPrograms
import ExprTree.Proofs.FoldingRenamed
import ExprTree.Proofs.DeadBranches
import ExprTree.Proofs.FunctionBodies
import ExprTree.Proofs.SharedCopies
import ExprTree.Proofs.Relevance
import ExprTree.Proofs.Interchange
import ExprTree.Proofs.CodeMotionTypes
import ExprTree.Proofs.CodeMotionSize
import ExprTree.Proofs.FoldingChanges
import ExprTree.Proofs.CodeMotionRenamed
import ExprTree.Proofs.DelayedOnce
import ExprTree.Proofs.Construction
import ExprTree.Proofs.ReplacementCounts
import ExprTree.Proofs.WrittenForms
import ExprTree.Proofs.TypeSpelling
import ExprTree.Proofs.WrappedText
import ExprTree.Proofs.GeneratorDepth
