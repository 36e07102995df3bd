import PlusCalTyping.Node
import PlusCalTyping.Syntax.Operator

/-! # Expressions

Expressions of Modular PlusCal with the names that they bind. Every
constructor begins with the node it stands at.
-/

namespace PlusCalTyping

inductive Literal
  | int (n : Int)
  | real (x : Float)
  | bool (b : Bool)
  | string (s : String)

inductive Quantifier
  | existential
  | universal
deriving DecidableEq, Inhabited

mutual

/-- An expression. `self`, `$variable` and `$value` are ordinary identifiers. -/
inductive Expr
  | literal (id : NodeId) (value : Literal)
  /-- `x` -/
  | ident (id : NodeId) (name : String)
  /-- `ref x` -/
  | ref (id : NodeId) (name : String)
  /-- `<<a, b>>` -/
  | tuple (id : NodeId) (elems : List Expr)
  | set (id : NodeId) (elems : List Expr)
  | unary (id : NodeId) (op : UnaryOp) (operand : Expr)
  | binary (id : NodeId) (op : BinaryOp) (left right : Expr)
  /-- `f[a, b]` -/
  | apply (id : NodeId) (func : Expr) (args : List Expr)
  /-- `[x \in S |-> body]` -/
  | function (id : NodeId) (bounds : List Bound) (body : Expr)
  /-- The members of a set that satisfy a predicate. -/
  | refinement (id : NodeId) (bound : Bound) (predicate : Expr)
  /-- The values of the body over the bounds. -/
  | comprehension (id : NodeId) (body : Expr) (bounds : List Bound)
  | quantified (id : NodeId) (quantifier : Quantifier) (bounds : List Bound) (body : Expr)
  /-- `CHOOSE x \in S : predicate` -/
  | choose (id : NodeId) (bound : Bound) (predicate : Expr)
  | ite (id : NodeId) (condition thenBranch elseBranch : Expr)
  /-- `CASE c -> e [] OTHER -> e` -/
  | cases (id : NodeId) (arms : List Arm) (other : Option Expr)
  | letIn (id : NodeId) (definitions : List Definition) (body : Expr)
  /-- `Op(a, b)` for a defined operator -/
  | call (id : NodeId) (name : String) (args : List Expr)

/-- `x \in S`, the declaration of `x`. -/
structure Bound where
  id : NodeId
  name : String
  set : Expr

structure Arm where
  condition : Expr
  result : Expr

/-- `Op(a, b) == body` -/
structure Definition where
  id : NodeId
  name : String
  args : List (Node String)
  body : Expr

end

namespace Literal

def same : Literal → Literal → Bool
  | int m, int n => m = n
  | real x, real y => x == y
  | bool b, bool c => b = c
  | string s, string t => s = t
  | _, _ => false

instance : BEq Literal := ⟨same⟩

end Literal

instance : BEq (Node String) := ⟨fun a b => a.id = b.id && a.value = b.value⟩

namespace Expr

instance : Inhabited Expr := ⟨ident ⟨0⟩ ""⟩

def id : Expr → NodeId
  | literal id _ | ident id _ | ref id _ | tuple id _ | set id _ | unary id _ _
  | binary id _ _ _ | apply id _ _ | function id _ _ | refinement id _ _
  | comprehension id _ _ | quantified id _ _ _ | choose id _ _ | ite id _ _ _
  | cases id _ _ | letIn id _ _ | call id _ _ => id

def withId (n : NodeId) : Expr → Expr
  | literal _ value => literal n value
  | ident _ name => ident n name
  | ref _ name => ref n name
  | tuple _ elems => tuple n elems
  | set _ elems => set n elems
  | unary _ op operand => unary n op operand
  | binary _ op left right => binary n op left right
  | apply _ func args => apply n func args
  | function _ bounds body => function n bounds body
  | refinement _ bound predicate => refinement n bound predicate
  | comprehension _ body bounds => comprehension n body bounds
  | quantified _ quantifier bounds body => quantified n quantifier bounds body
  | choose _ bound predicate => choose n bound predicate
  | ite _ condition thenBranch elseBranch => ite n condition thenBranch elseBranch
  | cases _ arms other => cases n arms other
  | letIn _ definitions body => letIn n definitions body
  | call _ name args => call n name args

theorem id_withId (n : NodeId) (e : Expr) : (e.withId n).id = n := by
  cases e <;> rfl

mutual

/-- Equality of expressions, the nodes they stand at included. Real numbers
are compared as numbers, so zero equals its negative. -/
def same : Expr → Expr → Bool
  | literal i a, literal j b => i = j && a == b
  | ident i x, ident j y => i = j && x = y
  | ref i x, ref j y => i = j && x = y
  | tuple i xs, tuple j ys => i = j && sameList xs ys
  | set i xs, set j ys => i = j && sameList xs ys
  | unary i o x, unary j p y => i = j && o = p && same x y
  | binary i o x u, binary j p y v => i = j && o = p && same x y && same u v
  | apply i f xs, apply j g ys => i = j && same f g && sameList xs ys
  | function i bs x, function j cs y => i = j && sameBounds bs cs && same x y
  | refinement i b x, refinement j c y => i = j && sameBound b c && same x y
  | comprehension i x bs, comprehension j y cs => i = j && same x y && sameBounds bs cs
  | quantified i q bs x, quantified j r cs y => i = j && q = r && sameBounds bs cs && same x y
  | choose i b x, choose j c y => i = j && sameBound b c && same x y
  | ite i a b c, ite j x y z => i = j && same a x && same b y && same c z
  | cases i as none, cases j bs none => i = j && sameArms as bs
  | cases i as (some x), cases j bs (some y) => i = j && sameArms as bs && same x y
  | letIn i ds x, letIn j es y => i = j && sameDefinitions ds es && same x y
  | call i f xs, call j g ys => i = j && f = g && sameList xs ys
  | _, _ => false

def sameList : List Expr → List Expr → Bool
  | [], [] => true
  | x :: xs, y :: ys => same x y && sameList xs ys
  | _, _ => false

def sameBound : Bound → Bound → Bool
  | ⟨i, x, s⟩, ⟨j, y, t⟩ => i = j && x = y && same s t

def sameBounds : List Bound → List Bound → Bool
  | [], [] => true
  | b :: bs, c :: cs => sameBound b c && sameBounds bs cs
  | _, _ => false

def sameArms : List Arm → List Arm → Bool
  | [], [] => true
  | ⟨a, b⟩ :: as, ⟨x, y⟩ :: bs => same a x && same b y && sameArms as bs
  | _, _ => false

def sameDefinitions : List Definition → List Definition → Bool
  | [], [] => true
  | ⟨i, f, xs, a⟩ :: ds, ⟨j, g, ys, b⟩ :: es =>
    i = j && f = g && xs == ys && same a b && sameDefinitions ds es
  | _, _ => false

end

instance : BEq Expr := ⟨same⟩

/-- Equality of expressions wherever the two themselves stand. -/
def sameKind (a b : Expr) : Bool := a.withId b.id == b

end Expr

end PlusCalTyping
