import PlusCalTyping.Solver.Budget
import Std.Data.TreeSet

/-! # Sessions

What a solver remembers from one list of constraints to the next: the
bindings, the variables that any constraint mentioned, and the trace. Failures
are gathered while a list is solved and handed over when it is done.
-/

namespace PlusCalTyping

structure Session where
  substitution : Substitution := .empty
  constrained : Std.TreeSet TypeVar := ∅
  /-- The failures not yet handed over. -/
  failures : Array Failure := #[]
  varPrefix : String := "type"
  tracing : Bool := false
  trace : Array UnifyStep := #[]
deriving Inhabited

namespace Session

def ofOptions (o : Options) : Session where
  varPrefix := o.varPrefix
  tracing := o.tracing

def hasErrors (s : Session) : Bool := !s.failures.isEmpty

def fail (s : Session) (f : Failure) : Session := { s with failures := s.failures.push f }

/-- Put lines into the trace if one is kept. They name variables by a prefix. -/
def log (s : Session) (lines : String → List UnifyLine) : Session :=
  if s.tracing then { s with trace := appendLines s.trace (lines s.varPrefix) } else s

def constrain (s : Session) (cs : List Constraint) : Session :=
  { s with constrained := (cs.flatMap Constraint.vars).foldl (fun t v => t.insert v) s.constrained }

def absorb (s : Session) (p : Provenance) (events : List UnifyEvent) : Session :=
  let logged := s.log fun varPrefix => events.flatMap (·.lines varPrefix)
  { logged with
    substitution := Unify.extend s.substitution events
    failures := s.failures ++ (events.filterMap (Failure.ofEvent? p)).toArray }

def unify (s : Session) (e : Equation) : Session :=
  s.absorb e.provenance (s.substitution.unify e.expected e.actual)

/-- A choice with the types expected of it as far as they are known. -/
def current (s : Session) (c : Choice) : Choice :=
  { c with candidates := c.candidates.map (·.map fun e =>
      { e with expected := s.substitution.apply e.expected }) }

/-- Report that no candidate of a choice fits, unless something at its node
has failed already. -/
def reportExhausted (s : Session) (c : Choice) : Session :=
  if s.failures.any (·.node = c.provenance.node) then s else s.fail (.exhausted (s.current c))

/-- What can be said of the type of a node. -/
inductive Verdict
  | known (t : Ty)
  | unused
  | incomplete (t : Ty)

def verdict (s : Session) (v : TypeVar) : Verdict :=
  let t := s.substitution.apply (.var v)
  if !t.containsVars then .known t
  else if !s.substitution.isBound v && !s.constrained.contains v then .unused
  else .incomplete t

end Session

/-- The types found for nodes, with reports on those that are not fully known. -/
structure Resolution where
  types : NodeMap Ty := ∅
  diagnostics : List Diagnostic := []

namespace Resolution

def incompleteDiagnostic (node : NodeId) (t : Ty) : Diagnostic :=
  ((Diagnostic.error .unresolvedType
    s!"could not infer a concrete type, only `{t.display}`").atNode node).withHelp
    "use the value where its type is fixed, or initialize it"

/-- Take in the verdict on a node. What is missing of a type is marked. -/
def add (r : Resolution) (node : NodeId) : Session.Verdict → Resolution
  | .known t => { r with types := r.types.insert node t }
  | .unused => r
  | .incomplete t =>
    ⟨r.types.insert node t.ground, r.diagnostics ++ [incompleteDiagnostic node t]⟩

end Resolution

def Session.resolve (s : Session) (vars : NodeMap TypeVar) : Resolution :=
  vars.toList.foldl (fun r nv => r.add nv.1 (s.verdict nv.2)) {}

end PlusCalTyping
