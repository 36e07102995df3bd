import PlusCalTyping.Unify
import PlusCalTyping.Ty.Display
import PlusCalTyping.Constraint.Basic
import PlusCalTyping.Trace

/-! # The log of unification

How the events of unification and the decisions between candidates read in a
trace. Every event has one line, except that a binding which would make a type
infinite is first tried and then prevented.
-/

namespace PlusCalTyping

namespace Ty

def pairing : Ty → String
  | set _ _ => "Set(A) ~ Set(B) → A ~ B"
  | tuple _ _ => "Tuple(A..) ~ Tuple(B..) → pairwise"
  | map _ _ _ => "Map(K1, V1) ~ Map(K2, V2) → K1 ~ K2, V1 ~ V2"
  | _ => "Func(A..) ~ Func(B..) → pairwise"

end Ty

def Clash.describe : Clash → String
  | tupleSize _ _ => "tuple arity differs"
  | paramCount _ _ => "parameter count differs"
  | shape => "incompatible types"

namespace UnifyLine

def ofTypes (varPrefix : String) (action : UnifyAction) (left right : Ty) (detail : String) :
    UnifyLine :=
  ⟨action, left.traced varPrefix, right.traced varPrefix, detail⟩

end UnifyLine

namespace UnifyEvent

def bindLine (varPrefix : String) (e : UnifyEvent) (v : TypeVar) (t : Ty) : UnifyLine :=
  .ofTypes varPrefix .bind e.expected e.actual
    ((Ty.var v).traced varPrefix ++ " := " ++ t.traced varPrefix)

def lines (varPrefix : String) (e : UnifyEvent) : List UnifyLine :=
  let line (action : UnifyAction) (detail : String) : UnifyLine :=
    .ofTypes varPrefix action e.expected e.actual detail
  match e.outcome with
  | .identical => [line .identity "types already equal"]
  | .bind v t => [e.bindLine varPrefix v t]
  | .infinite v t =>
    let shown := Ty.displayPair (.var v) t
    [e.bindLine varPrefix v t,
      .ofTypes varPrefix .occursCheck (.var v) t
        (shown.1 ++ " occurs in " ++ shown.2 ++ ", infinite type prevented")]
  | .absorbed => [line .identity "unresolved type unifies with any type"]
  | .split _ => [line .decompose e.expected.pairing]
  | .clash c => [line .error c.describe]

end UnifyEvent

/-- The types that a candidate asks for, each once. -/
def describeCandidate (candidate : List Equation) : String :=
  " with ".intercalate ((candidate.map (·.actual.display)).eraseDups.map fun t => s!"`{t}`")

namespace Choice

/-- The line of committing to the candidate at an index, which has the types
of no side to show. -/
def commitLine (c : Choice) (action : UnifyAction) (i : Nat) (candidate : List Equation) :
    UnifyLine :=
  ⟨action, "?", "?",
    s!"{c.provenance.reason.label} at {c.provenance.node}: candidate {i + 1} of " ++
      s!"{c.candidates.length} ({describeCandidate candidate})"⟩

end Choice

end PlusCalTyping
