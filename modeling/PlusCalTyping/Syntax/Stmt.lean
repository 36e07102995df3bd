import PlusCalTyping.Syntax.Expr

/-! # Declarations and statements -/

namespace PlusCalTyping

/-- What a declared variable starts as: the value of `x = e`, or any member of
the set in `x \in S`. -/
inductive Init
  | value (e : Expr)
  | member (s : Expr)

structure Decl where
  id : NodeId
  name : String
  init : Option Init

namespace Decl

instance : Inhabited Decl := ⟨⟨⟨0⟩, "", none⟩⟩

def initial? (d : Decl) : Option Expr :=
  match d.init with
  | none => none
  | some (.value e) | some (.member e) => some e

end Decl

structure Assignment where
  target : Expr
  value : Expr

/-- A statement. A procedure call refers to the procedure at the node of the
statement itself; `yield` is for the bodies of mapping macros. -/
inductive Stmt
  | labeled (id : NodeId) (label : String) (body : List Stmt)
  | assign (id : NodeId) (pairs : List Assignment)
  | ret (id : NodeId)
  | skip (id : NodeId)
  | goto (id : NodeId) (label : String)
  | ite (id : NodeId) (condition : Expr) (thenBranch elseBranch : List Stmt)
  | either (id : NodeId) (branches : List (List Stmt))
  | whileDo (id : NodeId) (condition : Expr) (body : List Stmt)
  | withDo (id : NodeId) (decls : List Decl) (body : List Stmt)
  | print (id : NodeId) (e : Expr)
  | assert (id : NodeId) (e : Expr)
  | await (id : NodeId) (e : Expr)
  | call (id : NodeId) (procedure : String) (args : List Expr)
  | yield (id : NodeId) (e : Expr)

namespace Stmt

instance : Inhabited Stmt := ⟨skip ⟨0⟩⟩

def id : Stmt → NodeId
  | labeled id _ _ | assign id _ | ret id | skip id | goto id _ | ite id _ _ _ | either id _
  | whileDo id _ _ | withDo id _ _ | print id _ | assert id _ | await id _ | call id _ _
  | yield id _ => id

def withId (n : NodeId) : Stmt → Stmt
  | labeled _ label body => labeled n label body
  | assign _ pairs => assign n pairs
  | ret _ => ret n
  | skip _ => skip n
  | goto _ label => goto n label
  | ite _ condition thenBranch elseBranch => ite n condition thenBranch elseBranch
  | either _ branches => either n branches
  | whileDo _ condition body => whileDo n condition body
  | withDo _ decls body => withDo n decls body
  | print _ e => print n e
  | assert _ e => assert n e
  | await _ e => await n e
  | call _ procedure args => call n procedure args
  | yield _ e => yield n e

theorem id_withId (n : NodeId) (s : Stmt) : (s.withId n).id = n := by
  cases s <;> rfl

end Stmt

end PlusCalTyping
