import Std.Data.TreeMap

/-! # Syntax nodes

Every node of an algorithm carries an identity, and everything the checker
finds out is filed under it. Identities are ordered, so that tables keyed by
them list their entries in the order the nodes were made.
-/

namespace PlusCalTyping

structure NodeId where
  val : Nat
deriving DecidableEq, Inhabited

namespace NodeId

instance : Ord NodeId := ⟨fun a b => compare a.val b.val⟩

instance : Std.TransOrd NodeId where
  eq_swap {a b} := @Std.OrientedCmp.eq_swap Nat compare _ a.val b.val
  isLE_trans {a b c} := @Std.TransCmp.isLE_trans Nat compare _ a.val b.val c.val

instance : Std.LawfulEqOrd NodeId where
  eq_of_compare {a b} h := by
    cases a
    cases b
    exact congrArg NodeId.mk (Nat.compare_eq_eq.mp h)

instance : ToString NodeId := ⟨fun n => s!"#{n.val}"⟩

end NodeId

/-- A table keyed by nodes, listed in ascending order. -/
abbrev NodeMap (α : Type) := Std.TreeMap NodeId α

/-- A value together with the node it stands at. -/
structure Node (α : Type) where
  id : NodeId
  value : α

def Node.map {α β : Type} (f : α → β) (n : Node α) : Node β := ⟨n.id, f n.value⟩

theorem Node.id_map {α β : Type} (f : α → β) (n : Node α) : (n.map f).id = n.id := rfl

/-- A supply of node identities, handed out in increasing order. -/
structure NodeSupply where
  next : Nat := 0
deriving Inhabited

namespace NodeSupply

def startingAt (first : Nat) : NodeSupply := ⟨first⟩

def fresh (s : NodeSupply) : NodeId × NodeSupply := (⟨s.next⟩, ⟨s.next + 1⟩)

theorem fresh_lt (s : NodeSupply) : s.fresh.1.val < s.fresh.2.next := Nat.lt_succ_self _

end NodeSupply

end PlusCalTyping
