import PlusCalTyping.Ty.Basic

/-! # Substitutions

The bindings of type variables that a solution has collected. A binding may
mention variables that are bound themselves, so applying a substitution
follows bindings until none is left to follow.
-/

namespace PlusCalTyping

structure Substitution where
  bindings : Std.TreeMap TypeVar Ty := ∅

namespace Substitution

def empty : Substitution := {}

instance : Inhabited Substitution := ⟨empty⟩

/-- Bind a variable; an earlier binding of it is forgotten. -/
def bind (σ : Substitution) (v : TypeVar) (t : Ty) : Substitution := ⟨σ.bindings.insert v t⟩

def lookup (σ : Substitution) (v : TypeVar) : Option Ty := σ.bindings[v]?

def isBound (σ : Substitution) (v : TypeVar) : Bool := σ.bindings.contains v

def size (σ : Substitution) : Nat := σ.bindings.size

theorem lookup_empty (v : TypeVar) : empty.lookup v = none := by
  simp [lookup, empty]

theorem lookup_bind (σ : Substitution) (v w : TypeVar) (t : Ty) :
    (σ.bind v t).lookup w = if w = v then some t else σ.lookup w := by
  simp only [lookup, bind, Std.TreeMap.getElem?_insert, Std.LawfulEqCmp.compare_eq_iff_eq,
    @eq_comm _ v w]

theorem isBound_eq (σ : Substitution) (v : TypeVar) : σ.isBound v = (σ.lookup v).isSome :=
  Std.TreeMap.isSome_getElem?_eq_contains.symm

/-- Put bindings for variables along chains of at most `depth` of them. -/
def expand (σ : Substitution) : Nat → Ty → Ty
  | 0, t => t
  | depth + 1, t => t.subst fun v =>
    match σ.lookup v with
    | some u => σ.expand depth u
    | none => .var v

/-- Put bindings for variables throughout. Where no variable reaches itself, a
chain of bindings visits each bound variable at most once, so their number
bounds its length. -/
def apply (σ : Substitution) (t : Ty) : Ty := σ.expand σ.size t

end Substitution

end PlusCalTyping
