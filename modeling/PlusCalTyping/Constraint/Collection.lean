import PlusCalTyping.Constraint.Basic
import PlusCalTyping.Ty.Display
import PlusCalTyping.Options
import PlusCalTyping.Trace

/-! # Collecting constraints

A collection gathers constraints in the order they are demanded, hands out
type variables that occur nowhere else, and keeps a trace if asked to.
-/

namespace PlusCalTyping

/-- A supply of type variables, handed out in increasing order. -/
structure VarSupply where
  varPrefix : String := "type"
  next : Nat := 0
deriving Inhabited

def VarSupply.fresh (s : VarSupply) : TypeVar × VarSupply :=
  (⟨s.next⟩, { s with next := s.next + 1 })

structure Collection where
  supply : VarSupply := {}
  constraints : Array Constraint := #[]
  tracing : Bool := false
  trace : Array RuleStep := #[]
deriving Inhabited

namespace Collection

def ofOptions (o : Options) : Collection where
  supply := { varPrefix := o.varPrefix }
  tracing := o.tracing

def fresh (c : Collection) : TypeVar × Collection :=
  let (v, supply) := c.supply.fresh
  (v, { c with supply })

def add (c : Collection) (k : Constraint) : Collection :=
  { c with constraints := c.constraints.push k }

def take (c : Collection) : List Constraint × Collection :=
  (c.constraints.toList, { c with constraints := #[] })

def record (c : Collection) (node : NodeId) (rule : TypingRule) (t : Ty) (detail : String) :
    Collection :=
  if c.tracing then
    let step := ⟨c.trace.size + 1, node, rule, t.traced c.supply.varPrefix, detail⟩
    { c with trace := c.trace.push step }
  else c

variable (c : Collection) (node : NodeId) (rule : TypingRule) (t : Ty) (detail : String)

@[simp]
theorem constraints_record : (c.record node rule t detail).constraints = c.constraints := by
  unfold record
  split <;> rfl

@[simp]
theorem supply_record : (c.record node rule t detail).supply = c.supply := by
  unfold record
  split <;> rfl

end Collection

end PlusCalTyping
