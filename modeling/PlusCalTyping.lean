import PlusCalTyping.Inference
import PlusCalTyping.Syntax.Family
import PlusCalTyping.Proofs.Unify.Extension
import PlusCalTyping.Proofs.Unify.Solutions
import PlusCalTyping.Proofs.Solver.Runs
import PlusCalTyping.Proofs.Solver.Soundness
import PlusCalTyping.Proofs.Solver.MostGeneral
import PlusCalTyping.Proofs.Solver.Defaults
import PlusCalTyping.Proofs.Typing.Rules
import PlusCalTyping.Proofs.Typing.Soundness.Reading
import PlusCalTyping.Proofs.Typing.Soundness.Expr
import PlusCalTyping.Proofs.Typing.Soundness.Algorithm
import PlusCalTyping.Proofs.Typing.Prepared
import PlusCalTyping.Proofs.Typing.Soundness
import PlusCalTyping.Proofs.Typing.Completeness.Filling
import PlusCalTyping.Proofs.Typing.Completeness.Steps
import PlusCalTyping.Proofs.Typing.Completeness.Expr
import PlusCalTyping.Proofs.Typing.Completeness.Stmt
import PlusCalTyping.Proofs.Typing.Completeness.Algorithm
import PlusCalTyping.Proofs.Typing.Completeness
import PlusCalTyping.Proofs.Solver.Sessions
import PlusCalTyping.Proofs.Ty.Evaluation
import PlusCalTyping.Proofs.Unify.Recursion
import PlusCalTyping.Proofs.Solver.Steps
import PlusCalTyping.Proofs.Solver.Bindings
import PlusCalTyping.Proofs.Solver.Termination
import PlusCalTyping.Proofs.Typing.Registries
import PlusCalTyping.Proofs.Typing.CallChains
import PlusCalTyping.Proofs.Typing.Mappings
import PlusCalTyping.Proofs.Solver.Unbudgeted
import PlusCalTyping.Proofs.Solver.Components
import PlusCalTyping.Proofs.Ty.Variants
import PlusCalTyping.Proofs.Solver.Resemblance
import PlusCalTyping.Proofs.Solver.Reordering
import PlusCalTyping.Proofs.Solver.TwoPhases
import PlusCalTyping.Proofs.Typing.Choices
import PlusCalTyping.Proofs.Solver.Counterparts
import PlusCalTyping.Proofs.Typing.Nodes
import PlusCalTyping.Proofs.Typing.Alike
import PlusCalTyping.Proofs.Typing.Permutations
import PlusCalTyping.Proofs.Typing.DeclarationOrder
import PlusCalTyping.Proofs.Solver.Forced
import PlusCalTyping.Proofs.Typing.GoTypes
import PlusCalTyping.Proofs.Scope.Visibility
import PlusCalTyping.Proofs.Scope.Resolution
import PlusCalTyping.Proofs.Scope.LexicalScope
import PlusCalTyping.Proofs.Typing.Coverage.Steps
import PlusCalTyping.Proofs.Typing.Coverage.TypedNodes
import PlusCalTyping.Proofs.Typing.Coverage.Expr
import PlusCalTyping.Proofs.Typing.Coverage.Stmt
import PlusCalTyping.Proofs.Typing.Coverage.Algorithm
import PlusCalTyping.Proofs.Typing.Coverage.Kinds
import PlusCalTyping.Proofs.Typing.Coverage.Declared
import PlusCalTyping.Proofs.Typing.Coverage.Supplied
import PlusCalTyping.Proofs.Typing.Coverage
import PlusCalTyping.Proofs.Solver.Comparison
import PlusCalTyping.Proofs.Ty.Translation
import PlusCalTyping.Proofs.Solver.Translation
import PlusCalTyping.Proofs.Solver.Observability
import PlusCalTyping.Proofs.Solver.Renaming
import PlusCalTyping.Proofs.Solver.Truncation
import PlusCalTyping.Proofs.Typing.Lockstep.Expr
import PlusCalTyping.Proofs.Typing.Lockstep.Stmt
import PlusCalTyping.Proofs.Typing.Lockstep.Algorithm
import PlusCalTyping.Proofs.Typing.Histories
import PlusCalTyping.Proofs.Solver.Trials
import PlusCalTyping.Proofs.Solver.Commits
import PlusCalTyping.Proofs.Solver.Repetition
import PlusCalTyping.Proofs.Typing.Identities
import PlusCalTyping.Proofs.Solver.Charges
import PlusCalTyping.Proofs.Text.Items
import PlusCalTyping.Proofs.Ty.Canonical
import PlusCalTyping.Proofs.Go.Texts
import PlusCalTyping.Proofs.Go.Lowering
import PlusCalTyping.Proofs.Solver.Resolution
import PlusCalTyping.Proofs.Solver.Exhaustion
import PlusCalTyping.Proofs.Solver.Accounts
import PlusCalTyping.Proofs.Typing.Atomicity
import PlusCalTyping.Proofs.Solver.Roots
import PlusCalTyping.Proofs.Typing.Roots.Expr
import PlusCalTyping.Proofs.Typing.Roots.Algorithm
import PlusCalTyping.Proofs.Typing.Pointing
import PlusCalTyping.Proofs.Ty.Application
import PlusCalTyping.Proofs.Solver.Handover
import PlusCalTyping.Proofs.Solver.Reports
import PlusCalTyping.Proofs.Solver.Windows
import PlusCalTyping.Proofs.Scope.Lookups
import PlusCalTyping.Proofs.Typing.Pinned
import PlusCalTyping.Proofs.Typing.Integers
import PlusCalTyping.Proofs.Family.Blocks
import PlusCalTyping.Proofs.Family.ArithmeticChain
import PlusCalTyping.Proofs.Family.ProcessFleet
import PlusCalTyping.Proofs.Family.MappedInstances
import PlusCalTyping.Proofs.Family.Checked
import PlusCalTyping.Proofs.Solver.Reports
import PlusCalTyping.Proofs.Solver.Windows
