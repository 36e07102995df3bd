import PlusCalTyping.Constraint.Draft

/-! # Constraints of expressions

Each rule first goes through the parts of an expression, then says what type
they give the whole. Every expression has a variable of its own, and the last
constraint of an expression equates it with the type that the rule gives.
-/

namespace PlusCalTyping.Drafting

def settle (node : NodeId) (t : Ty) : Drafting Ty := do
  let v ← typeOf node
  demand v t node .exprType
  return v

def conclude (node : NodeId) (rule : TypingRule) (t : Ty) : Drafting Ty := do
  record node rule t ""
  settle node t

def literalType (node : NodeId) : Literal → Ty
  | .int _ => .int node
  | .real _ => .real node
  | .bool _ => .bool node
  | .string _ => .string node

/-- One argument is a key by itself, several are one as a tuple. -/
def keyType (node : NodeId) : List Ty → Ty
  | [t] => t
  | ts => .tuple ts (.single node)

def unaryType (node : NodeId) (op : UnaryOp) (operand : Ty) : Drafting Ty := do
  let own := Origins.single node
  match op with
  | .not =>
    demand (.bool node) operand node (.unaryOp op)
    return .bool node
  | .neg =>
    let result ← fresh
    demandNumeric result [operand] node (.unaryOp op)
    return result
  | .domain =>
    let key ← fresh
    let value ← fresh
    demand (.map key value own) operand node (.unaryOp op)
    return .set key own
  | .powerSet =>
    let elem ← fresh
    demand (.set elem own) operand node (.unaryOp op)
    return .set (.set elem own) own
  | .bigUnion =>
    let elem ← fresh
    demand (.set (.set elem own) own) operand node (.unaryOp op)
    return .set elem own
  | .cardinality =>
    let elem ← fresh
    demand (.set elem own) operand node (.unaryOp op)
    return .int node

/-- Demand one type of both operands, each at the node of its own. -/
def demandBoth (t : Ty) (left right : NodeId × Ty) (reason : Reason) : Drafting Unit := do
  demand t left.2 left.1 reason
  demand t right.2 right.1 reason

/-- The type of applying a built-in operator to two operands, which are given
with their nodes. -/
def binaryType (node : NodeId) (op : BinaryOp) (left right : NodeId × Ty) : Drafting Ty := do
  let reason := Reason.binaryOp op
  match op with
  | .add | .sub | .mul =>
    let result ← fresh
    demandNumeric result [left.2, right.2] node reason
    return result
  | .intDiv | .mod =>
    demandBoth (.int node) left right reason
    return .int node
  | .realDiv =>
    demandBoth (.real node) left right reason
    return .real node
  | .lt | .le | .gt | .ge =>
    let operand ← fresh
    demandNumeric operand [left.2, right.2] node reason
    return .bool node
  | .eq | .neq =>
    demand left.2 right.2 node reason
    return .bool node
  | .and | .or | .implies | .equiv =>
    demandBoth (.bool node) left right reason
    return .bool node
  | .mem | .notMem =>
    demand (.set left.2 (.single node)) right.2 node .membership
    return .bool node
  | .union | .intersect | .setMinus =>
    let set := Ty.set (← fresh) (.single node)
    demandBoth set left right reason
    return set
  | .subset =>
    let set := Ty.set (← fresh) (.single node)
    demandBoth set left right reason
    return .bool node
  | .range =>
    demandBoth (.int node) left right .range
    return .set (.int node) (.single node)
  | .concat =>
    demandBoth (.string node) left right reason
    return .string node

/-- The type shared by the members of a sequence: that of the first, which the
others have to equal. -/
def share (reason : Reason) (first : Option Ty) (node : NodeId) (t : Ty) :
    Drafting (Option Ty) := do
  match first with
  | none => return some t
  | some shared =>
    demand shared t node reason
    return some shared

/-- The type shared by a sequence, which may be any if the sequence is empty. -/
def sharedOrFresh : Option Ty → Drafting Ty
  | some t => return t
  | none => fresh

variable (around : Surroundings)

mutual

/-- The type of an expression, which is always a variable. -/
def infer : Expr → Drafting Ty
  | .literal id value => conclude id .literal (literalType id value)
  | .ident id _ | .ref id _ => do
    conclude id .identifier (← nameType around id Slots.read)
  | .tuple id elems => do
    conclude id .tuple (.tuple (← inferList elems) (.single id))
  | .set id elems => do
    let elem ← sharedOrFresh (← inferElements none elems)
    conclude id .set (.set elem (.single id))
  | .unary id op operand => do
    conclude id .operator (← unaryType id op (← infer operand))
  | .binary id op left right => do
    let leftTy ← infer left
    let rightTy ← infer right
    conclude id .operator (← binaryType id op (left.id, leftTy) (right.id, rightTy))
  | .apply id func args => do
    let funcTy ← infer func
    let key := keyType id (← inferList args)
    let value ← fresh
    demand funcTy (.map key value (.single id)) id .functionApply
    conclude id .functionApply value
  | .function id bounds body => do
    let key := keyType id (← inferBounds bounds)
    conclude id .functionLiteral (.map key (← infer body) (.single id))
  | .refinement id bound predicate => do
    let member ← inferBound bound
    demandBool predicate.id (← infer predicate)
    conclude id .setFormer (.set member (.single id))
  | .comprehension id body bounds => do
    let _ ← inferBounds bounds
    conclude id .setFormer (.set (← infer body) (.single id))
  | .quantified id _ bounds body => do
    let _ ← inferBounds bounds
    demandBool body.id (← infer body)
    conclude id .quantifier (.bool id)
  | .choose id bound predicate => do
    let chosen ← inferBound bound
    demandBool predicate.id (← infer predicate)
    conclude id .choose chosen
  | .ite id condition thenBranch elseBranch => do
    demandBool condition.id (← infer condition)
    let thenTy ← infer thenBranch
    let elseTy ← infer elseBranch
    demand thenTy elseTy elseBranch.id .ifBranches
    conclude id .conditional thenTy
  | .cases id arms none => do
    checkArms arms
    conclude id .cases (← sharedOrFresh (← inferResults none arms))
  | .cases id arms (some other) => do
    checkArms arms
    let first ← inferResults none arms
    let shared ← share .caseArms first other.id (← infer other)
    conclude id .cases (← sharedOrFresh shared)
  | .letIn id definitions body => do
    inferDefinitions definitions
    conclude id .letIn (← infer body)
  | .call id name args => do
    let args ← inferList args
    let result ← fresh
    if let some definition := around.registry.followReference id then
      let signature ← typeOf definition
      demand signature (.operator args result (.single id)) id (.operatorCall name)
    conclude id .operatorCall result

def inferList : List Expr → Drafting (List Ty)
  | [] => return []
  | e :: es => do
    let t ← infer e
    return t :: (← inferList es)

def inferElements (first : Option Ty) : List Expr → Drafting (Option Ty)
  | [] => return first
  | e :: es => do
    let t ← infer e
    inferElements (← share .setElements first e.id t) es

/-- A bound variable is a member of the set it ranges over. -/
def inferBound : Bound → Drafting Ty
  | ⟨id, _, set⟩ => do
    let setTy ← infer set
    let member ← typeOf id
    demand (.set member (.single id)) setTy id .membership
    return member

def inferBounds : List Bound → Drafting (List Ty)
  | [] => return []
  | b :: bs => do
    let t ← inferBound b
    return t :: (← inferBounds bs)

def checkArms : List Arm → Drafting Unit
  | [] => return ()
  | ⟨condition, _⟩ :: arms => do
    demandBool condition.id (← infer condition)
    checkArms arms

def inferResults (first : Option Ty) : List Arm → Drafting (Option Ty)
  | [] => return first
  | ⟨_, result⟩ :: arms => do
    let t ← infer result
    inferResults (← share .caseArms first result.id t) arms

/-- An operator has the type of its arguments and its body. -/
def inferDefinition : Definition → Drafting Unit
  | ⟨id, name, args, body⟩ => do
    let signature ← typeOf id
    let params ← args.mapM fun arg => typeOf arg.id
    let result ← infer body
    let actual := Ty.operator params result (.single id)
    record id .signature actual name
    demand signature actual id .operatorDefinition

def inferDefinitions : List Definition → Drafting Unit
  | [] => return ()
  | d :: ds => do
    inferDefinition d
    inferDefinitions ds

end

end PlusCalTyping.Drafting
