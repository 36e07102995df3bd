import PlusCalTyping.Constraint.Stmt

/-! # Constraints of a whole algorithm

Constants, globals and operators come first, then the bodies of procedures,
archetypes and mapping macros, and last the instances and processes. All uses
of an operator, procedure or archetype share one signature.
-/

namespace PlusCalTyping.Drafting

def visitConstant (r : Registry) (c : Node String) : Drafting Unit := do
  let v ← typeOf c.id
  if let some value := r.constantValue c.id then
    let t ← infer ⟨r, .general, none⟩ value
    demand v t value.id .constantValue

/-- Demand a signature for a definition without a result. -/
def demandSignature (id : NodeId) (name : String) (params : List Ty) (reason : Reason) :
    Drafting Unit := do
  let signature ← typeOf id
  let actual := Ty.procedure params (.single id)
  record id .signature actual name
  demand signature actual id reason

/-- The identity of a procedure matters if the procedure uses it. -/
def visitProcedure (r : Registry) (p : Procedure) : Drafting Unit := do
  let around : Surroundings := { registry := r, self := some p.selfId }
  if r.isReferenced p.selfId then
    demandIdentity p.selfId
  let params ← p.params.mapM (declare around)
  declareAll around p.locals
  checkStmts around p.body
  demandSignature p.id p.name params .procedureSignature

def addSlots (p : Param) : Drafting Unit := fun d =>
  let (read, collection) := d.collection.fresh
  let (written, collection) := collection.fresh
  ((), { d with collection, slots := d.slots.insert p.decl.id ⟨read, written⟩ })

/-- Both slots of a parameter have its type. -/
def visitParam (r : Registry) (p : Param) (index : Nat) : Drafting Ty := do
  let t ← declare { registry := r } p.decl
  if let some slots := (← get).slots[p.decl.id]? then
    demand t (.var slots.read) p.decl.id (.archetypeParam index)
    demand t (.var slots.written) p.decl.id (.archetypeParam index)
  return t

def visitParams (r : Registry) : List Param → Nat → Drafting (List Ty)
  | [], _ => return []
  | p :: ps, index => do
    let t ← visitParam r p index
    return t :: (← visitParams r ps (index + 1))

def visitArchetype (r : Registry) (a : Archetype) : Drafting Unit := do
  a.params.forM addSlots
  demandIdentity a.selfId
  let params ← visitParams r a.params 0
  let around : Surroundings :=
    { registry := r, role := .archetype (a.params.map (·.decl.id)), self := some a.selfId }
  declareAll around a.locals
  checkStmts around a.body
  demandSignature a.id a.name params .archetypeSignature

def visitMappingMacro (r : Registry) (m : MappingMacro) : Drafting Unit := do
  let stored ← typeOf m.variableId
  let _ ← typeOf m.valueId
  let result ← typeOf m.readValueId
  checkStmts { registry := r, role := .macroRead result } m.readBody
  checkStmts { registry := r, role := .macroWrite stored } m.writeBody

/-- The parameter that a global is first passed to. -/
def paramOf? (r : Registry) (args : List Expr) (params : List Param) (global : NodeId) :
    Option Param := do
  let index ← args.findIdx? fun arg => r.followReference arg.id = some global
  params[index]?

/-- What is read from and written to a global that is passed by reference goes
through the mapping macro. A value passed by copy does not. -/
def visitMapping (r : Registry) (args : List Expr) (params : List Param) (m : Mapping) :
    Drafting Unit := do
  let _ ← infer { registry := r } m.variableExpr
  if let some global := r.followReference m.variableExpr.id then
    if let some param := (paramOf? r args params global).filter (·.byRef) then
      if let some mappingMacro := r.findMappingMacro m.macroName then
        if let some slots := (← get).slots[param.decl.id]? then
          let readValue ← typeOf mappingMacro.readValueId
          demand (.var slots.read) readValue m.id (.mappingRead mappingMacro.name)
          let value ← typeOf mappingMacro.valueId
          demand (.var slots.written) value m.id (.mappingWrite mappingMacro.name)

def visitInstance (r : Registry) (i : Instance) : Drafting Unit := do
  let around : Surroundings := { registry := r }
  let _ ← declare around i.name
  demandIdentity i.name.id
  let args ← inferList around i.args
  if let some archetype := r.findArchetype i.target then
    let signature ← typeOf archetype.id
    demand signature (.procedure args (.single i.id)) i.id (.instanceArgs archetype.name)
    i.mappings.forM (visitMapping r i.args archetype.params)

def visitProcess (r : Registry) (p : Process) : Drafting Unit := do
  let _ ← declare { registry := r } p.name
  demandIdentity p.name.id
  let around : Surroundings := { registry := r, self := some p.name.id }
  declareAll around p.locals
  checkStmts around p.body

def visitProcesses (r : Registry) : Processes → Drafting Unit
  | .single body => checkStmts { registry := r } body
  | .multi processes => processes.forM (visitProcess r)

/-- Go through an algorithm. The nodes of all signatures come before anything
that may use them. -/
def visitAlgorithm (r : Registry) (a : Algorithm) : Drafting Unit := do
  let signatures := a.units.map (·.id) ++ a.procedures.map (·.id) ++ a.archetypes.map (·.id)
  signatures.forM fun id => do
    let _ ← varOf id
  r.constants.forM (visitConstant r)
  declareAll { registry := r } a.globals
  a.units.forM (inferDefinition { registry := r })
  a.procedures.forM (visitProcedure r)
  a.archetypes.forM (visitArchetype r)
  a.mappingMacros.forM (visitMappingMacro r)
  a.instances.forM (visitInstance r)
  visitProcesses r a.processes

end PlusCalTyping.Drafting

namespace PlusCalTyping

/-- The constraints of an algorithm with the variables of its nodes. The slots of an
earlier run stay until they are replaced. -/
def Draft.resume (r : Registry) (slots : NodeMap Slots) (a : Algorithm) (o : Options) : Draft :=
  ((Drafting.visitAlgorithm r a).run { collection := .ofOptions o, slots }).2

def Draft.ofAlgorithm (r : Registry) (a : Algorithm) (o : Options) : Draft :=
  .resume r ∅ a o

end PlusCalTyping
