import PlusCalTyping.Solver.Log
import PlusCalTyping.Diagnostic

/-! # Failures of solving

Why constraints could not be solved, and how each reason reads. A failure
stands at the node whose constraint failed; notes point to the nodes that the
types in conflict came from.
-/

namespace PlusCalTyping

inductive Failure
  | mismatch (expected actual : Ty) (provenance : Provenance)
  | tupleSize (expected actual : Ty) (expectedSize actualSize : Nat) (provenance : Provenance)
  | paramCount (expected actual : Nat) (provenance : Provenance)
  | infinite (v : TypeVar) (t : Ty) (provenance : Provenance)
  /-- No candidate of the choice fits. The expected types are as known then. -/
  | exhausted (choice : Choice)
  /-- There was an equation too many. Listed are the last ones tried. -/
  | outOfBudget (limit : Nat) (recent : List Equation) (provenance : Provenance)

def Reason.subject : Reason → String
  | identity => "this process identity"
  | binaryOp op => s!"the operands of `{op.symbol}`"
  | unaryOp op => s!"the operand of `{op.symbol}`"
  | _ => "this expression"

def Reason.countMessage (reason : Reason) (expected actual : Nat) : String :=
  match reason with
  | procedureCall name =>
    s!"procedure `{name}` takes {expected} arguments, but {actual} were supplied"
  | operatorCall name =>
    s!"operator `{name}` takes {expected} arguments, but {actual} were supplied"
  | instanceArgs archetype =>
    s!"archetype `{archetype}` takes {expected} arguments, but {actual} were supplied"
  | _ => s!"expected {expected} parameters, found {actual}"

def Reason.mismatchMessage (reason : Reason) (expected actual : String) : String :=
  match reason with
  | binaryOp op =>
    s!"operands of `{op.symbol}` have incompatible types: `{expected}` and `{actual}`"
  | unaryOp op =>
    s!"operand of `{op.symbol}` must have type `{expected}`, but has type `{actual}`"
  | declaration => s!"variable has type `{expected}`, but is initialized with `{actual}`"
  | constantValue => s!"constant has type `{expected}`, but its value has type `{actual}`"
  | setElements => s!"set elements have different types: `{expected}` vs `{actual}`"
  | condition => s!"condition must have type `{expected}`, but has type `{actual}`"
  | ifBranches => s!"if/else branches have different types: `{expected}` vs `{actual}`"
  | caseArms => s!"case arms have different types: `{expected}` vs `{actual}`"
  | operatorCall name =>
    s!"call of `{name}` does not match its definition: expected `{expected}`, got `{actual}`"
  | procedureCall name =>
    s!"call of procedure `{name}` does not match its other uses: " ++
      s!"expected `{expected}`, got `{actual}`"
  | callerIdentity name =>
    s!"procedure `{name}` uses `self`, but is called by processes with identities of type " ++
      s!"`{expected}` and `{actual}`"
  | assignment =>
    s!"cannot assign a value of type `{actual}` to a variable of type `{expected}`"
  | yield => s!"yielded value has type `{actual}`, expected `{expected}`"
  | instanceArgs archetype =>
    s!"instance arguments do not match archetype `{archetype}`: " ++
      s!"expected `{expected}`, got `{actual}`"
  | mappingRead macroName =>
    s!"mapping macro `{macroName}` reads values of type `{actual}`, " ++
      s!"but the mapped variable has type `{expected}`"
  | mappingWrite macroName =>
    s!"mapping macro `{macroName}` writes values of type `{actual}`, " ++
      s!"but the mapped variable has type `{expected}`"
  | _ => s!"type mismatch: expected `{expected}`, got `{actual}`"

def Reason.mismatchHelp? : Reason → Option String
  | setElements => some "all elements of a set must share one type"
  | ifBranches => some "both branches must have the same type"
  | caseArms => some "all arms must produce the same type"
  | procedureCall _ =>
    some "every call of a procedure must pass arguments of the same types"
  | callerIdentity _ =>
    some "every process calling a procedure that uses `self` needs the same identity type"
  | _ => none

def Equation.render (e : Equation) : String :=
  let shown := Ty.displayPair e.expected e.actual
  s!"{shown.1} ~ {shown.2} ({e.provenance.reason.label} at {e.provenance.node})"

/-- The notes whose nodes are neither seen before nor noted earlier. -/
def firstNotes (seen : List NodeId) : List (Node String) → List (Node String)
  | [] => []
  | n :: ns => if n.id ∈ seen then firstNotes seen ns else n :: firstNotes (n.id :: seen) ns

theorem mem_map_id_firstNotes {n : NodeId} {seen : List NodeId} {ns : List (Node String)} :
    n ∈ (firstNotes seen ns).map (·.id) ↔ n ∈ ns.map (·.id) ∧ n ∉ seen := by
  induction ns generalizing seen with
  | nil => simp [firstNotes]
  | cons m ns ih =>
    rw [firstNotes]
    by_cases hm : m.id ∈ seen
    · rw [if_pos hm, ih, List.map_cons, List.mem_cons]
      refine and_congr_left fun hn => (or_iff_right ?_).symm
      exact fun heq => hn (heq ▸ hm)
    · rw [if_neg hm, List.map_cons, List.mem_cons, ih, List.map_cons, List.mem_cons,
        List.mem_cons]
      by_cases hn : n = m.id
      · simp [hn, hm]
      · simp [hn]

theorem nodup_map_id_firstNotes (seen : List NodeId) (ns : List (Node String)) :
    ((firstNotes seen ns).map (·.id)).Nodup := by
  induction ns generalizing seen with
  | nil => exact List.nodup_nil
  | cons m ns ih =>
    rw [firstNotes]
    split
    · exact ih seen
    · refine List.nodup_cons.mpr ⟨fun hm => ?_, ih (m.id :: seen)⟩
      exact (mem_map_id_firstNotes.mp hm).2 List.mem_cons_self

namespace Failure

/-- The failure that an event of unification is, if it is one. -/
def ofEvent? (provenance : Provenance) (e : UnifyEvent) : Option Failure :=
  match e.outcome with
  | .identical | .bind _ _ | .absorbed | .split _ => none
  | .infinite v t => some (.infinite v t provenance)
  | .clash (.tupleSize m n) => some (.tupleSize e.expected e.actual m n provenance)
  | .clash (.paramCount m n) => some (.paramCount m n provenance)
  | .clash .shape => some (.mismatch e.expected e.actual provenance)

def provenance : Failure → Provenance
  | mismatch _ _ p | tupleSize _ _ _ _ p | paramCount _ _ p | infinite _ _ p
  | outOfBudget _ _ p => p
  | exhausted c => c.provenance

def node (f : Failure) : NodeId := f.provenance.node

/-- Where a type in conflict came from, other than from the node itself. -/
def originNotes (own : NodeId) (side : String) (t : Ty) : List (Node String) :=
  ((t.origins?.getD .none).nodes.filter (· ≠ own)).map fun n =>
    ⟨n, s!"{side} `{t.display}` inferred here"⟩

/-- What stands against a candidate's equation, and where it was made. -/
def equationNotes (e : Equation) : List (Node String) :=
  let conflicts :=
    if e.expected.isVar then []
    else (Origins.ofList e.expected.allOrigins).nodes.map fun n =>
      (⟨n, s!"conflicting type `{e.expected.display}` inferred here"⟩ : Node String)
  let candidates := (Origins.ofList (e.provenance.node :: e.actual.allOrigins)).nodes.map fun n =>
    (⟨n, "candidate generated here"⟩ : Node String)
  conflicts ++ candidates

/-- The notes on an exhausted choice, one a node. -/
def choiceNotes (c : Choice) : List (Node String) :=
  firstNotes [c.provenance.node] (c.candidates.flatten.flatMap equationNotes)

def budgetHelp (recent : List Equation) : String :=
  let listed :=
    if recent.isEmpty then "no recent constraints captured"
    else "recent constraints:\n- " ++ "\n- ".intercalate (recent.map (·.render))
  listed ++ "\nraise `max_iterations` to allow more steps"

def category : Failure → Category
  | mismatch _ _ _ => .typeMismatch
  | tupleSize _ _ _ _ _ | paramCount _ _ _ => .arityMismatch
  | infinite _ _ _ => .infiniteType
  | exhausted _ => .alternativeExhausted
  | outOfBudget _ _ _ => .solverBudget

def message : Failure → String
  | mismatch expected actual p =>
    let shown := Ty.displayPair expected actual
    p.reason.mismatchMessage shown.1 shown.2
  | tupleSize expected actual m n _ =>
    let shown := Ty.displayPair expected actual
    s!"tuple has {n} elements where {m} are expected: `{shown.1}` vs `{shown.2}`"
  | paramCount m n p => p.reason.countMessage m n
  | infinite v t _ =>
    let shown := Ty.displayPair (.var v) t
    s!"infinite type: `{shown.1}` would have to contain itself as `{shown.2}`"
  | exhausted c =>
    let tried := ", ".intercalate (c.candidates.map describeCandidate)
    s!"no candidate type fits {c.provenance.reason.subject}: tried {tried}"
  | outOfBudget limit _ _ =>
    s!"type inference exceeded its budget of {limit} unification steps"

def notes : Failure → List (Node String)
  | mismatch expected actual p =>
    originNotes p.node "expected" expected ++ originNotes p.node "found" actual
  | exhausted c => choiceNotes c
  | tupleSize _ _ _ _ _ | paramCount _ _ _ | infinite _ _ _ | outOfBudget _ _ _ => []

def help? : Failure → Option String
  | mismatch _ _ p => p.reason.mismatchHelp?
  | outOfBudget _ recent _ => some (budgetHelp recent)
  | tupleSize _ _ _ _ _ | paramCount _ _ _ | infinite _ _ _ | exhausted _ => none

def toDiagnostic (f : Failure) : Diagnostic :=
  { Diagnostic.error f.category f.message with
    location := some f.node
    labels := f.notes
    help := f.help? }

end Failure

end PlusCalTyping
