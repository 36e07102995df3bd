import PlusCalTyping.Constraint.Algorithm
import PlusCalTyping.Solver.Solve

/-! # Type inference

The whole of inference for an algorithm: collect its constraints, solve them,
and read off the types of its nodes. A check also records the Go types of the
global variables, once all types are found.
-/

namespace PlusCalTyping

/-- What one run of inference found. The types are as good as they get where
there are errors. -/
structure Findings where
  types : NodeMap Ty := ∅
  diagnostics : List Diagnostic := []
  ruleTrace : Array RuleStep := #[]
  unifyTrace : Array UnifyStep := #[]

namespace Findings

instance : Inhabited Findings := ⟨{}⟩

def hasErrors (f : Findings) : Bool := Diagnostic.anyError f.diagnostics

def typeOf (f : Findings) (n : NodeId) : Option Ty := f.types[n]?

/-- A trace, where it is not empty. -/
def traceField (name : String) (steps : List Datum) : List (String × Datum) :=
  if steps.isEmpty then [] else [(name, .list steps)]

/-- The findings as a report for other tools, with the types as users see them. -/
def report (f : Findings) : Datum :=
  .record <|
    [("types", .record (f.types.toList.map fun nt =>
        (toString nt.1.val, .string nt.2.display))),
      ("diagnostics", .list (f.diagnostics.map (·.toDatum)))] ++
    traceField "gen_trace" (f.ruleTrace.toList.map (·.toDatum)) ++
    traceField "unify_trace" (f.unifyTrace.toList.map (·.toDatum))

end Findings

inductive InferenceError
  | failed (diagnostics : List Diagnostic)
  | noGoType (global : NodeId) (reason : NoGoType)

namespace InferenceError

def diagnostics : InferenceError → List Diagnostic
  | failed ds => ds
  | noGoType _ _ => []

def message : InferenceError → String
  | failed [] => "type inference failed"
  | failed ds =>
    "type inference failed:\n" ++ "\n".intercalate (ds.map fun d => s!"  - {d.render}")
  | noGoType n reason =>
    s!"global variable at {Diagnostic.showNode n} has no Go type: {reason.message}"

end InferenceError

namespace Registry

/-- Infer the types of an algorithm, with the slots of an earlier run. Names without
a declaration end the run before any constraint is collected. That a type is not
fully known is reported only if solving succeeded, so that one conflict is not
reported again for every node that depends on it. -/
def inferFrom (r : Registry) (slots : NodeMap Slots) (a : Algorithm) (o : Options) :
    Findings × Registry :=
  if Diagnostic.anyError r.diagnostics then ({ diagnostics := r.diagnostics }, r)
  else
    let draft := Draft.resume r slots a o
    let solution := Solution.ofConstraints o draft.collection.constraints.toList
    let resolution := solution.session.resolve draft.vars
    let unknown := if solution.hasErrors then [] else resolution.diagnostics
    ({ types := resolution.types
       diagnostics := r.diagnostics ++ solution.diagnostics ++ unknown
       ruleTrace := draft.collection.trace
       unifyTrace := solution.session.trace },
      { r with slots := draft.slots })

/-- Infer the types of an algorithm. No slots are needed for that, since a run gives
all slots that it asks for. -/
def infer (r : Registry) (a : Algorithm) (o : Options) : Findings × Registry :=
  r.inferFrom ∅ a o

/-- Infer the types of an algorithm with the slots that are left in the registry. -/
def reinfer (r : Registry) (a : Algorithm) (o : Options) : Findings × Registry :=
  r.inferFrom r.slots a o

def goTypes (types : NodeMap Ty) : List NodeId → Except InferenceError (List (NodeId × GoType))
  | [] => .ok []
  | n :: ns =>
    match types[n]? with
    | none => goTypes types ns
    | some t => do
      let g ← t.toGo.mapError (InferenceError.noGoType n)
      return (n, g) :: (← goTypes types ns)

/-- Record the Go types of the globals. A global without a type was never used
and is passed over. -/
def writeGlobalTypes (r : Registry) (types : NodeMap Ty) : Except InferenceError Registry := do
  let found ← goTypes types r.globalVariables
  return found.foldl (fun r ng => r.setGlobalType ng.1 ng.2) r

/-- Record the Go types of the globals, if a run found no error. -/
def complete (r : Registry) (findings : Findings) :
    Except InferenceError Findings × Registry :=
  if findings.hasErrors then (.error (.failed findings.diagnostics), r)
  else
    match r.writeGlobalTypes findings.types with
    | .ok r => (.ok findings, r)
    | .error e => (.error e, r)

/-- Infer the types of an algorithm and, if there is no error, record the Go
types of its globals. -/
def check (r : Registry) (a : Algorithm) (o : Options) :
    Except InferenceError Findings × Registry :=
  let (findings, r) := r.infer a o
  r.complete findings

/-- The same with the slots that are left in the registry. -/
def recheck (r : Registry) (a : Algorithm) (o : Options) :
    Except InferenceError Findings × Registry :=
  let (findings, r) := r.reinfer a o
  r.complete findings

end Registry

end PlusCalTyping
