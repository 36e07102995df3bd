import PlusCalTyping.Constraint.Expr

/-! # Constraints of declarations and statements -/

namespace PlusCalTyping.Drafting

variable (around : Surroundings)

/-- `x = e` gives `x` the type of `e`; `x \in S` makes `S` a set of `x`. -/
def declare (d : Decl) : Drafting Ty := do
  let v ← typeOf d.id
  match d.init with
  | none => pure ()
  | some (.value e) =>
    let t ← infer around e
    demand v t d.id .declaration
  | some (.member set) =>
    let t ← infer around set
    let member ← fresh
    demand (.set member (.single d.id)) t d.id .declaration
    demand v member d.id .declaration
  record d.id .declaration v d.name
  return v

def declareAll (ds : List Decl) : Drafting Unit := ds.forM fun d => do
  let _ ← declare around d

def check (condition : Expr) : Drafting Unit := do
  demandBool condition.id (← infer around condition)

/-- The type of the place that an assignment writes to. Writing `f[i]` writes
a value of `f`; whatever is neither a name nor such a place is read. Places
leave no trace of their own. -/
def targetType : Expr → Drafting Ty
  | .ident id _ => do
    settle id (← nameType around id Slots.written)
  | .apply id func args => do
    let base ← targetType func
    let key := keyType id (← inferList around args)
    let value ← fresh
    demand base (.map key value (.single id)) id .functionApply
    settle id value
  | e => infer around e

def assign (a : Assignment) : Drafting Unit := do
  let target ← targetType around a.target
  let value ← infer around a.value
  demand target value a.value.id .assignment

/-- A procedure that uses `self` sees the identity of every caller. -/
def demandCaller (call : NodeId) (procedure : String) : Drafting Unit := do
  if let some caller := around.self then
    if let some callee := (around.registry.findProcedure procedure).map (·.selfId) then
      if around.registry.isReferenced callee then
        let calleeTy ← typeOf callee
        let callerTy ← typeOf caller
        demand calleeTy callerTy call (.callerIdentity procedure)

/-- A call fits the signature of the procedure that it refers to. -/
def checkCall (id : NodeId) (procedure : String) (args : List Expr) : Drafting Unit := do
  let args ← inferList around args
  if let some decl := around.registry.followReference id then
    let signature ← typeOf decl
    demand signature (.procedure args (.single id)) id (.procedureCall procedure)
    demandCaller around id procedure

/-- In a mapping macro, `yield` produces the value read or stored. -/
def checkYield (e : Expr) : Drafting Unit := do
  let value ← infer around e
  match around.role with
  | .macroRead target | .macroWrite target => demand target value e.id .yield
  | .general | .archetype _ => pure ()

mutual

def checkStmt : Stmt → Drafting Unit
  | .labeled _ _ body => checkStmts body
  | .assign _ pairs => pairs.forM (assign around)
  | .ret _ | .skip _ | .goto _ _ => pure ()
  | .ite _ condition thenBranch elseBranch => do
    check around condition
    checkStmts thenBranch
    checkStmts elseBranch
  | .either _ branches => checkBranches branches
  | .whileDo _ condition body => do
    check around condition
    checkStmts body
  | .withDo _ decls body => do
    declareAll around decls
    checkStmts body
  | .print _ e => do
    let _ ← infer around e
  | .assert _ e | .await _ e => check around e
  | .call id procedure args => checkCall around id procedure args
  | .yield _ e => checkYield around e

def checkStmts : List Stmt → Drafting Unit
  | [] => pure ()
  | s :: ss => do
    checkStmt s
    checkStmts ss

def checkBranches : List (List Stmt) → Drafting Unit
  | [] => pure ()
  | b :: bs => do
    checkStmts b
    checkBranches bs

end

end PlusCalTyping.Drafting
