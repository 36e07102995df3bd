import PlusCalTyping.Ty.Basic
import PlusCalTyping.Syntax.Operator

/-! # Constraints

What the parts of an algorithm demand of their types: that two types are
equal, or that one of several lists of equations holds. Every equation knows
the node that demands it and why.
-/

namespace PlusCalTyping

inductive Reason
  | declaration
  | constantValue
  | exprType
  | setElements
  | range
  | binaryOp (op : BinaryOp)
  | unaryOp (op : UnaryOp)
  | membership
  | functionApply
  | functionLiteral
  | setFormer
  | condition
  | ifBranches
  | caseArms
  | operatorCall (name : String)
  | operatorDefinition
  | procedureCall (name : String)
  | callerIdentity (name : String)
  | procedureSignature
  | assignment
  | yield
  | archetypeParam (index : Nat)
  | archetypeSignature
  | instanceArgs (archetype : String)
  | mappingRead (macroName : String)
  | mappingWrite (macroName : String)
  | identity
deriving DecidableEq, Inhabited

def Reason.heading : Reason → String
  | declaration => "declaration"
  | constantValue => "constant value"
  | exprType => "expression"
  | setElements => "set elements"
  | range => "range"
  | binaryOp _ => "operator"
  | unaryOp _ => "operator"
  | membership => "membership"
  | functionApply => "function application"
  | functionLiteral => "function constructor"
  | setFormer => "set former"
  | condition => "condition"
  | ifBranches => "if branches"
  | caseArms => "case arms"
  | operatorCall _ => "call of"
  | operatorDefinition => "operator definition"
  | procedureCall _ => "call of procedure"
  | callerIdentity _ => "caller of"
  | procedureSignature => "procedure signature"
  | assignment => "assignment"
  | yield => "yield"
  | archetypeParam _ => "archetype parameter"
  | archetypeSignature => "archetype signature"
  | instanceArgs _ => "instance of"
  | mappingRead _ => "read through"
  | mappingWrite _ => "write through"
  | identity => "process identity"

/-- What a reason speaks of besides its heading. -/
def Reason.subject? : Reason → Option String
  | binaryOp op => some s!"`{op.symbol}`"
  | unaryOp op => some s!"`{op.symbol}`"
  | operatorCall name => some s!"`{name}`"
  | procedureCall name => some s!"`{name}`"
  | callerIdentity name => some s!"`{name}`"
  | archetypeParam index => some s!"{index}"
  | instanceArgs archetype => some s!"`{archetype}`"
  | mappingRead macroName => some s!"`{macroName}`"
  | mappingWrite macroName => some s!"`{macroName}`"
  | _ => none

/-- The short form of a reason in lists of constraints. -/
def Reason.label (r : Reason) : String :=
  match r.subject? with
  | none => r.heading
  | some subject => s!"{r.heading} {subject}"

structure Provenance where
  node : NodeId
  reason : Reason
deriving DecidableEq, Inhabited

structure Equation where
  expected : Ty
  actual : Ty
  provenance : Provenance

/-- A demand that all equations of some candidate hold. Earlier candidates are
preferred where several would do. -/
structure Choice where
  candidates : List (List Equation)
  provenance : Provenance

inductive Constraint
  | equal (e : Equation)
  | oneOf (c : Choice)

def Equation.vars (e : Equation) : List TypeVar := e.expected.vars ++ e.actual.vars

namespace Constraint

def provenance : Constraint → Provenance
  | equal e => e.provenance
  | oneOf c => c.provenance

def vars : Constraint → List TypeVar
  | equal e => e.vars
  | oneOf c => c.candidates.flatten.flatMap (·.vars)

end Constraint

end PlusCalTyping
