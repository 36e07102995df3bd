import PlusCalTyping.Constraint.Algorithm
import PlusCalTyping.Proofs.Ty.Agreement
import Mathlib.Data.List.Forall2

/-! # The typing rules of the language

When types of nodes are right for an algorithm, said by recursion on the
algorithm alone. A typing gives types to nodes; each rule relates the type of a
node to those of its parts and of the declarations that its names refer to.
Origins do not matter, so the rules write types without them.
-/

namespace PlusCalTyping

/-- Types of nodes. -/
abbrev Typing := NodeId → Option Ty

namespace Typing

variable (τ : Typing) (r : Registry)

def Has (n : NodeId) (t : Ty) : Prop := ∃ u, τ n = some u ∧ u.agrees t

def Share (m n : NodeId) : Prop := ∃ t, τ.Has m t ∧ τ.Has n t

def HasAll (ns : List NodeId) (ts : List Ty) : Prop := List.Forall₂ τ.Has ns ts

/-- Processes are identified by integers or by strings. -/
def HasIdentity (n : NodeId) : Prop := τ.Has n (.prim .int .none) ∨ τ.Has n (.prim .string .none)

/-- The name at a node has a declaration and the type of that declaration. -/
def Refers (site : NodeId) : Prop := ∃ decl, r.followReference site = some decl ∧ τ.Share site decl

end Typing

namespace Prim

def Numeric (p : Prim) : Prop := p = .int ∨ p = .real

end Prim

def Literal.prim : Literal → Prim
  | int _ => .int
  | real _ => .real
  | bool _ => .bool
  | string _ => .string

/-- The operator takes an operand of the one type to a value of the other. -/
def UnaryOp.Types (operand whole : Ty) : UnaryOp → Prop
  | not => operand = .prim .bool .none ∧ whole = .prim .bool .none
  | neg => ∃ p : Prim, p.Numeric ∧ operand = .prim p .none ∧ whole = .prim p .none
  | domain => ∃ k v, operand = .map k v .none ∧ whole = .set k .none
  | powerSet => ∃ t, operand = .set t .none ∧ whole = .set (.set t .none) .none
  | bigUnion => ∃ t, operand = .set (.set t .none) .none ∧ whole = .set t .none
  | cardinality => ∃ t, operand = .set t .none ∧ whole = .prim .int .none

/-- The operator takes operands of the first two types to a value of the third. -/
def BinaryOp.Types (left right whole : Ty) : BinaryOp → Prop
  | add | sub | mul =>
    ∃ p : Prim, p.Numeric ∧ left = .prim p .none ∧ right = .prim p .none ∧ whole = .prim p .none
  | intDiv | mod =>
    left = .prim .int .none ∧ right = .prim .int .none ∧ whole = .prim .int .none
  | realDiv => left = .prim .real .none ∧ right = .prim .real .none ∧ whole = .prim .real .none
  | lt | le | gt | ge =>
    ∃ p : Prim, p.Numeric ∧ left = .prim p .none ∧ right = .prim p .none ∧
      whole = .prim .bool .none
  | eq | neq => left = right ∧ whole = .prim .bool .none
  | and | or | implies | equiv =>
    left = .prim .bool .none ∧ right = .prim .bool .none ∧ whole = .prim .bool .none
  | mem | notMem => right = .set left .none ∧ whole = .prim .bool .none
  | union | intersect | setMinus =>
    ∃ t, left = .set t .none ∧ right = .set t .none ∧ whole = .set t .none
  | subset => ∃ t, left = .set t .none ∧ right = .set t .none ∧ whole = .prim .bool .none
  | range =>
    left = .prim .int .none ∧ right = .prim .int .none ∧ whole = .set (.prim .int .none) .none
  | concat =>
    left = .prim .string .none ∧ right = .prim .string .none ∧ whole = .prim .string .none

namespace Typing

/-- Maps over several arguments have tuples as keys. -/
def key : List Ty → Ty
  | [t] => t
  | ts => .tuple ts .none

variable (τ : Typing) (r : Registry)

/-! ## Expressions -/

mutual

/-- The expression and all its parts have types that fit each other. -/
def ExprTyped : Expr → Prop
  | .literal id value => τ.Has id (.prim value.prim .none)
  | .ident id _ | .ref id _ => τ.Refers r id
  | .tuple id elems =>
    ListTyped elems ∧ ∃ ts, τ.HasAll (elems.map (·.id)) ts ∧ τ.Has id (.tuple ts .none)
  | .set id elems =>
    ListTyped elems ∧ ∃ t, (∀ e ∈ elems, τ.Has e.id t) ∧ τ.Has id (.set t .none)
  | .unary id op operand =>
    ExprTyped operand ∧ ∃ s t, τ.Has operand.id s ∧ τ.Has id t ∧ op.Types s t
  | .binary id op left right =>
    ExprTyped left ∧ ExprTyped right ∧
      ∃ s t u, τ.Has left.id s ∧ τ.Has right.id t ∧ τ.Has id u ∧ op.Types s t u
  | .apply id func args =>
    ExprTyped func ∧ ListTyped args ∧
      ∃ ts t, τ.HasAll (args.map (·.id)) ts ∧ τ.Has id t ∧ τ.Has func.id (.map (key ts) t .none)
  | .function id bounds body =>
    BoundsTyped bounds ∧ ExprTyped body ∧
      ∃ ts t, τ.HasAll (bounds.map (·.id)) ts ∧ τ.Has body.id t ∧
        τ.Has id (.map (key ts) t .none)
  | .refinement id bound predicate =>
    BoundTyped bound ∧ ExprTyped predicate ∧ τ.Has predicate.id (.prim .bool .none) ∧
      ∃ t, τ.Has bound.id t ∧ τ.Has id (.set t .none)
  | .comprehension id body bounds =>
    BoundsTyped bounds ∧ ExprTyped body ∧ ∃ t, τ.Has body.id t ∧ τ.Has id (.set t .none)
  | .quantified id _ bounds body =>
    BoundsTyped bounds ∧ ExprTyped body ∧ τ.Has body.id (.prim .bool .none) ∧
      τ.Has id (.prim .bool .none)
  | .choose id bound predicate =>
    BoundTyped bound ∧ ExprTyped predicate ∧ τ.Has predicate.id (.prim .bool .none) ∧
      τ.Share id bound.id
  | .ite id condition thenBranch elseBranch =>
    ExprTyped condition ∧ ExprTyped thenBranch ∧ ExprTyped elseBranch ∧
      τ.Has condition.id (.prim .bool .none) ∧
      ∃ t, τ.Has thenBranch.id t ∧ τ.Has elseBranch.id t ∧ τ.Has id t
  | .cases id arms none =>
    ArmsTyped arms ∧ ∃ t, (∀ a ∈ arms, τ.Has a.result.id t) ∧ τ.Has id t
  | .cases id arms (some other) =>
    ArmsTyped arms ∧ ExprTyped other ∧
      ∃ t, (∀ a ∈ arms, τ.Has a.result.id t) ∧ τ.Has other.id t ∧ τ.Has id t
  | .letIn id definitions body =>
    DefinitionsTyped definitions ∧ ExprTyped body ∧ τ.Share id body.id
  | .call id _ args =>
    ListTyped args ∧ ∃ decl ts t, r.followReference id = some decl ∧
      τ.HasAll (args.map (·.id)) ts ∧ τ.Has id t ∧ τ.Has decl (.operator ts t .none)

def ListTyped : List Expr → Prop
  | [] => True
  | e :: es => ExprTyped e ∧ ListTyped es

/-- A bound variable is a member of the set it ranges over. -/
def BoundTyped : Bound → Prop
  | ⟨id, _, set⟩ => ExprTyped set ∧ ∃ t, τ.Has id t ∧ τ.Has set.id (.set t .none)

def BoundsTyped : List Bound → Prop
  | [] => True
  | b :: bs => BoundTyped b ∧ BoundsTyped bs

def ArmsTyped : List Arm → Prop
  | [] => True
  | ⟨condition, result⟩ :: arms =>
    ExprTyped condition ∧ ExprTyped result ∧ τ.Has condition.id (.prim .bool .none) ∧
      ArmsTyped arms

/-- An operator takes its arguments to its body. -/
def DefinitionTyped : Definition → Prop
  | ⟨id, _, args, body⟩ =>
    ExprTyped body ∧ ∃ ts t, τ.HasAll (args.map (·.id)) ts ∧ τ.Has body.id t ∧
      τ.Has id (.operator ts t .none)

def DefinitionsTyped : List Definition → Prop
  | [] => True
  | d :: ds => DefinitionTyped d ∧ DefinitionsTyped ds

end

/-! ## Declarations and statements -/

def DeclTyped (d : Decl) : Prop :=
  match d.init with
  | none => True
  | some (.value e) => τ.ExprTyped r e ∧ τ.Share d.id e.id
  | some (.member s) => τ.ExprTyped r s ∧ ∃ t, τ.Has d.id t ∧ τ.Has s.id (.set t .none)

def ConditionTyped (e : Expr) : Prop := τ.ExprTyped r e ∧ τ.Has e.id (.prim .bool .none)

/-- The place that is written is an expression of the type of the value. -/
def AssignmentTyped (a : Assignment) : Prop :=
  τ.ExprTyped r a.target ∧ τ.ExprTyped r a.value ∧ τ.Share a.target.id a.value.id

/-- What the statements of a body may depend on: the node that declares the
identity of the process, and in a mapping macro the node with the type that
`yield` has to have. -/
structure Place where
  self : Option NodeId := none
  yields : Option NodeId := none

/-- A procedure that uses `self` sees the identity of its callers. -/
def CallerTyped (place : Place) (procedure : String) : Prop :=
  ∀ caller p, place.self = some caller → r.findProcedure procedure = some p →
    r.isReferenced p.selfId → τ.Share p.selfId caller

/-- A call fits the signature of the procedure that it refers to. -/
def CallTyped (id : NodeId) (args : List Expr) : Prop :=
  τ.ListTyped r args ∧ ∃ decl ts, r.followReference id = some decl ∧
    τ.HasAll (args.map (·.id)) ts ∧ τ.Has decl (.procedure ts .none)

variable (place : Place)

mutual

def StmtTyped : Stmt → Prop
  | .labeled _ _ body => StmtsTyped body
  | .assign _ pairs => ∀ a ∈ pairs, τ.AssignmentTyped r a
  | .ret _ | .skip _ | .goto _ _ => True
  | .ite _ condition thenBranch elseBranch =>
    τ.ConditionTyped r condition ∧ StmtsTyped thenBranch ∧ StmtsTyped elseBranch
  | .either _ branches => BranchesTyped branches
  | .whileDo _ condition body => τ.ConditionTyped r condition ∧ StmtsTyped body
  | .withDo _ decls body => (∀ d ∈ decls, τ.DeclTyped r d) ∧ StmtsTyped body
  | .print _ e => τ.ExprTyped r e
  | .assert _ e | .await _ e => τ.ConditionTyped r e
  | .call id procedure args => τ.CallTyped r id args ∧ τ.CallerTyped r place procedure
  | .yield _ e => τ.ExprTyped r e ∧ ∀ n, place.yields = some n → τ.Share e.id n

def StmtsTyped : List Stmt → Prop
  | [] => True
  | s :: ss => StmtTyped s ∧ StmtsTyped ss

def BranchesTyped : List (List Stmt) → Prop
  | [] => True
  | b :: bs => StmtsTyped b ∧ BranchesTyped bs

end

/-! ## Algorithms -/

/-- A procedure or archetype has the signature of its parameters. -/
def SignatureTyped (id : NodeId) (params : List NodeId) : Prop :=
  ∃ ts, τ.HasAll params ts ∧ τ.Has id (.procedure ts .none)

def ConstantTyped (c : Node String) : Prop :=
  ∀ value, r.constantValue c.id = some value → τ.ExprTyped r value ∧ τ.Share c.id value.id

structure ProcedureTyped (p : Procedure) : Prop where
  identity : r.isReferenced p.selfId → τ.HasIdentity p.selfId
  params : ∀ d ∈ p.params, τ.DeclTyped r d
  locals : ∀ d ∈ p.locals, τ.DeclTyped r d
  body : τ.StmtsTyped r { self := p.selfId } p.body
  signature : τ.SignatureTyped p.id (p.params.map (·.id))

structure ArchetypeTyped (a : Archetype) : Prop where
  identity : τ.HasIdentity a.selfId
  params : ∀ p ∈ a.params, τ.DeclTyped r p.decl
  locals : ∀ d ∈ a.locals, τ.DeclTyped r d
  body : τ.StmtsTyped r { self := a.selfId } a.body
  signature : τ.SignatureTyped a.id (a.params.map (·.decl.id))

/-- A read yields a value of the type that the macro reads, a write one of the
type that the variable stores. -/
structure MacroTyped (m : MappingMacro) : Prop where
  reads : τ.StmtsTyped r { yields := m.readValueId } m.readBody
  writes : τ.StmtsTyped r { yields := m.variableId } m.writeBody

/-- A parameter that a mapped global is passed to by reference has the types
that the macro reads and writes. -/
structure MappingTyped (args : List Expr) (params : List Param) (m : Mapping) : Prop where
  variableExpr : τ.ExprTyped r m.variableExpr
  param : ∀ global p x, r.followReference m.variableExpr.id = some global →
    Drafting.paramOf? r args params global = some p → p.byRef →
    r.findMappingMacro m.macroName = some x →
    τ.Share p.decl.id x.readValueId ∧ τ.Share p.decl.id x.valueId

structure InstanceTyped (i : Instance) : Prop where
  name : τ.DeclTyped r i.name
  identity : τ.HasIdentity i.name.id
  args : τ.ListTyped r i.args
  target : ∃ a, r.findArchetype i.target = some a ∧
    τ.SignatureTyped a.id (i.args.map (·.id)) ∧
    ∀ m ∈ i.mappings, τ.MappingTyped r i.args a.params m

structure ProcessTyped (p : Process) : Prop where
  name : τ.DeclTyped r p.name
  identity : τ.HasIdentity p.name.id
  locals : ∀ d ∈ p.locals, τ.DeclTyped r d
  body : τ.StmtsTyped r { self := p.name.id } p.body

def ProcessesTyped : Processes → Prop
  | .single body => τ.StmtsTyped r {} body
  | .multi processes => ∀ p ∈ processes, τ.ProcessTyped r p

/-- The types are right for an algorithm, with the references and the values of
constants that a registry knows. -/
structure AlgorithmTyped (a : Algorithm) : Prop where
  constants : ∀ c ∈ r.constants, τ.ConstantTyped r c
  globals : ∀ d ∈ a.globals, τ.DeclTyped r d
  units : ∀ d ∈ a.units, τ.DefinitionTyped r d
  procedures : ∀ p ∈ a.procedures, τ.ProcedureTyped r p
  archetypes : ∀ x ∈ a.archetypes, τ.ArchetypeTyped r x
  mappingMacros : ∀ m ∈ a.mappingMacros, τ.MacroTyped r m
  instances : ∀ i ∈ a.instances, τ.InstanceTyped r i
  processes : τ.ProcessesTyped r a.processes

end Typing

end PlusCalTyping
