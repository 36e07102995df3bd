import PlusCalTyping.Syntax.Algorithm

/-! # Building algorithms

Constructors that draw a new node for everything they make. Parts are made
before the whole, so nodes are numbered in the order of the calls.
-/

namespace PlusCalTyping

/-- A construction that draws nodes from a supply. -/
abbrev Build := StateM NodeSupply

namespace Build

def fresh : Build NodeId := fun s => s.fresh

def literal (value : Literal) : Build Expr := return .literal (← fresh) value

def int (n : Int) : Build Expr := literal (.int n)

def ident (name : String) : Build Expr := return .ident (← fresh) name

def ref (name : String) : Build Expr := return .ref (← fresh) name

def tuple (elems : List Expr) : Build Expr := return .tuple (← fresh) elems

def set (elems : List Expr) : Build Expr := return .set (← fresh) elems

def unary (op : UnaryOp) (operand : Expr) : Build Expr := return .unary (← fresh) op operand

def binary (op : BinaryOp) (left right : Expr) : Build Expr :=
  return .binary (← fresh) op left right

/-- `lo .. hi` for two integer literals. -/
def range (lo hi : Int) : Build Expr := do
  let lo ← int lo
  let hi ← int hi
  binary .range lo hi

def apply (func : Expr) (args : List Expr) : Build Expr := return .apply (← fresh) func args

def bound (name : String) (set : Expr) : Build Bound := return ⟨← fresh, name, set⟩

def function (bounds : List Bound) (body : Expr) : Build Expr :=
  return .function (← fresh) bounds body

def refinement (bound : Bound) (predicate : Expr) : Build Expr :=
  return .refinement (← fresh) bound predicate

def comprehension (body : Expr) (bounds : List Bound) : Build Expr :=
  return .comprehension (← fresh) body bounds

def quantified (quantifier : Quantifier) (bounds : List Bound) (body : Expr) : Build Expr :=
  return .quantified (← fresh) quantifier bounds body

def choose (bound : Bound) (predicate : Expr) : Build Expr :=
  return .choose (← fresh) bound predicate

def ite (condition thenBranch elseBranch : Expr) : Build Expr :=
  return .ite (← fresh) condition thenBranch elseBranch

def cases (arms : List Arm) (other : Option Expr) : Build Expr :=
  return .cases (← fresh) arms other

/-- `name(args) == body`; the arguments come before the definition itself. -/
def definition (name : String) (args : List String) (body : Expr) : Build Definition := do
  let args ← args.mapM fun arg => return ⟨← fresh, arg⟩
  return ⟨← fresh, name, args, body⟩

def letIn (definitions : List Definition) (body : Expr) : Build Expr :=
  return .letIn (← fresh) definitions body

def call (name : String) (args : List Expr) : Build Expr := return .call (← fresh) name args

/-- `name` without an initializer. -/
def declare (name : String) : Build Decl := return ⟨← fresh, name, none⟩

/-- `name = value` -/
def declareEq (name : String) (value : Expr) : Build Decl :=
  return ⟨← fresh, name, some (.value value)⟩

/-- `name \in set` -/
def declareIn (name : String) (set : Expr) : Build Decl :=
  return ⟨← fresh, name, some (.member set)⟩

def stmt (make : NodeId → Stmt) : Build Stmt := return make (← fresh)

/-- `name := value` -/
def assignTo (name : String) (value : Expr) : Build Stmt := do
  let target ← ident name
  stmt (.assign · [⟨target, value⟩])

def constant (name : String) : Build (Node String) := return ⟨← fresh, name⟩

def procedure (name : String) (params locals : List Decl) (body : List Stmt) :
    Build Procedure := do
  let id ← fresh
  return ⟨id, name, ← fresh, params, locals, body⟩

def param (name : String) (byRef : Bool) : Build Param := return ⟨← declare name, byRef⟩

def archetype (name : String) (params : List Param) (locals : List Decl) (body : List Stmt) :
    Build Archetype := do
  let id ← fresh
  return ⟨id, name, ← fresh, params, locals, body⟩

def mappingMacro (name : String) (readBody writeBody : List Stmt) : Build MappingMacro := do
  let id ← fresh
  let variableId ← fresh
  let valueId ← fresh
  let readValueId ← fresh
  return ⟨id, name, variableId, valueId, readValueId, readBody, writeBody⟩

/-- `mapping name via macroName`; the mapping comes before the name it maps. -/
def mapping (name macroName : String) : Build Mapping := do
  let id ← fresh
  return ⟨id, ← ident name, macroName⟩

def mappingOf (variableExpr : Expr) (macroName : String) : Build Mapping :=
  return ⟨← fresh, variableExpr, macroName⟩

def inst (name : Decl) (target : String) (args : List Expr) (mappings : List Mapping) :
    Build Instance :=
  return ⟨← fresh, name, target, args, mappings⟩

def process (name : Decl) (locals : List Decl) (body : List Stmt) : Build Process :=
  return ⟨← fresh, name, locals, body⟩

/-- What is built from a supply that begins at zero. -/
def run {α : Type} (b : Build α) : α := (StateT.run b (.startingAt 0)).1

end Build

end PlusCalTyping
