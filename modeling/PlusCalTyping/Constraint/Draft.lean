import PlusCalTyping.Constraint.Collection
import PlusCalTyping.Registry

/-! # Drafts

The state in which an algorithm is gone through: the variable of every node
met so far, the slots of archetype parameters, and the constraints. A node has
one variable, which it gets when it is first asked for.
-/

namespace PlusCalTyping

structure Draft where
  collection : Collection := {}
  vars : NodeMap TypeVar := ∅
  slots : NodeMap Slots := ∅

/-- A passage through part of an algorithm. -/
abbrev Drafting := StateM Draft

/-- The kind of body that is gone through. In an archetype, its parameters are
read and written through slots; in a mapping macro, `yield` produces the value
that is read or stored. -/
inductive Role
  | general
  | archetype (params : List NodeId)
  | macroRead (result : Ty)
  | macroWrite (stored : Ty)

/-- What a part of an algorithm sees around it. -/
structure Surroundings where
  registry : Registry
  role : Role := .general
  self : Option NodeId := none

namespace Drafting

def fresh : Drafting Ty := fun d =>
  let (v, collection) := d.collection.fresh
  (.var v, { d with collection })

def varOf (node : NodeId) : Drafting TypeVar := fun d =>
  match d.vars[node]? with
  | some v => (v, d)
  | none =>
    let (v, collection) := d.collection.fresh
    (v, { d with collection, vars := d.vars.insert node v })

def typeOf (node : NodeId) : Drafting Ty := return .var (← varOf node)

def add (c : Constraint) : Drafting Unit :=
  modify fun d => { d with collection := d.collection.add c }

def demand (expected actual : Ty) (node : NodeId) (reason : Reason) : Drafting Unit :=
  add (.equal ⟨expected, actual, node, reason⟩)

/-- Demand that a type is one of two, the first by preference. -/
def demandEither (t first second : Ty) (node : NodeId) (reason : Reason) : Drafting Unit :=
  add (.oneOf ⟨[[⟨t, first, node, reason⟩], [⟨t, second, node, reason⟩]], node, reason⟩)

def record (node : NodeId) (rule : TypingRule) (t : Ty) (detail : String) : Drafting Unit :=
  modify fun d => { d with collection := d.collection.record node rule t detail }

/-- A condition is a truth value. -/
def demandBool (node : NodeId) (t : Ty) : Drafting Unit := demand (.bool node) t node .condition

/-- Operands of one type, which is that of the integers or of the reals. -/
def demandNumeric (shared : Ty) (operands : List Ty) (node : NodeId) (reason : Reason) :
    Drafting Unit := do
  operands.forM fun t => demand shared t node reason
  demandEither shared (.int node) (.real node) node reason

/-- Processes are identified by integers or by strings. -/
def demandIdentity (node : NodeId) : Drafting Unit := do
  let t ← typeOf node
  demandEither t (.int node) (.string node) node .identity
  record node .alternative t "Int | String"

/-- The slots of a declaration, if it is a parameter of the archetype that is
gone through. -/
def slots? (around : Surroundings) (decl : NodeId) : Drafting (Option Slots) := fun d =>
  match around.role with
  | .archetype params => (if decl ∈ params then d.slots[decl]? else none, d)
  | _ => (none, d)

@[simp]
theorem slots?_snd (around : Surroundings) (decl : NodeId) (d : Draft) :
    (slots? around decl d).2 = d := by
  unfold slots?
  split <;> rfl

theorem slots?_fst_eq_some {around : Surroundings} {decl : NodeId} {d : Draft} {s : Slots}
    (h : (slots? around decl d).1 = some s) :
    (∃ params, around.role = .archetype params ∧ decl ∈ params) ∧ d.slots[decl]? = some s := by
  unfold slots? at h
  split at h
  · next params hrole =>
    obtain ⟨hmem, hs⟩ := Option.ite_none_right_eq_some.mp h
    exact ⟨⟨params, hrole, hmem⟩, hs⟩
  · cases h

/-- The type of what a name at a node stands for; anything if it is unknown. -/
def nameType (around : Surroundings) (site : NodeId) (slot : Slots → TypeVar) : Drafting Ty := do
  match around.registry.followReference site with
  | none => fresh
  | some decl =>
    match ← slots? around decl with
    | some s => return .var (slot s)
    | none => typeOf decl

end Drafting

end PlusCalTyping
