import PlusCalTyping.Scope
import PlusCalTyping.GoType

/-! # The registry of an algorithm

What is known of an algorithm by name and by node: its top-level definitions,
the declaration of every use of a name, the values supplied for constants, and
the Go types of the globals once they are found. An operation that fails
leaves the registry as it was.
-/

namespace PlusCalTyping

/-- The types of the values read from and written to a parameter. -/
structure Slots where
  read : TypeVar
  written : TypeVar
deriving DecidableEq, Inhabited

structure Registry where
  references : NodeMap NodeId := ∅
  globalScope : Scope := ∅
  constants : List (Node String) := []
  constantValues : NodeMap Expr := ∅
  globalVariables : List NodeId := []
  procedures : Std.TreeMap String Procedure := ∅
  archetypes : Std.TreeMap String Archetype := ∅
  mappingMacros : Std.TreeMap String MappingMacro := ∅
  slots : NodeMap Slots := ∅
  globalTypes : NodeMap GoType := ∅
  diagnostics : List Diagnostic := []

/-- Definitions by name. Of two of one name the later holds. -/
def byName {α : Type} (name : α → String) (ds : List α) : Std.TreeMap String α :=
  ds.foldl (fun m d => m.insert (name d) d) ∅

namespace Algorithm

def globalScope (a : Algorithm) : Scope :=
  ((Scope.declareArgs ∅ a.constants).declareDecls a.globals).declareDefinitions a.units

def procedureScope (a : Algorithm) : Scope := Scope.declareAll ∅ (·.name) (·.id) a.procedures

def archetypeScope (a : Algorithm) : Scope := Scope.declareAll ∅ (·.name) (·.id) a.archetypes

def mappingMacroScope (a : Algorithm) : Scope :=
  Scope.declareAll ∅ (·.name) (·.id) a.mappingMacros

/-- The uses in a body that declares its own names. -/
def bodyUses (a : Algorithm) (scope : Scope) (decls : List Decl) (body : List Stmt) : List Use :=
  scope.declUses decls ++ Scope.stmtsUses a.procedureScope (scope.declareDecls decls) body

def procedureUses (a : Algorithm) (p : Procedure) : List Use :=
  a.bodyUses (a.globalScope.declare "self" p.selfId) (p.params ++ p.locals) p.body

def archetypeUses (a : Algorithm) (x : Archetype) : List Use :=
  a.bodyUses (a.globalScope.declare "self" x.selfId) (x.params.map (·.decl) ++ x.locals) x.body

/-- Both bodies see `$variable`, the body of writing sees `$value` as well. -/
def mappingMacroUses (a : Algorithm) (m : MappingMacro) : List Use :=
  let readScope := a.globalScope.declare "$variable" m.variableId
  a.bodyUses readScope [] m.readBody ++
    a.bodyUses (readScope.declare "$value" m.valueId) [] m.writeBody

def mappingUses (a : Algorithm) (m : Mapping) : List Use :=
  a.globalScope.exprUses m.variableExpr ++
    a.mappingMacroScope.missing m.id .mappingMacroName m.macroName

def instanceUses (a : Algorithm) (i : Instance) : List Use :=
  a.globalScope.initUses i.name ++
    a.archetypeScope.missing i.id .archetypeName i.target ++
    (a.globalScope.declare "self" i.name.id).listUses i.args ++
    i.mappings.flatMap a.mappingUses

def processUses (a : Algorithm) (p : Process) : List Use :=
  a.globalScope.initUses p.name ++
    a.bodyUses (a.globalScope.declare "self" p.name.id) p.locals p.body

/-- Every use of a name, in the order of the algorithm's parts. -/
def uses (a : Algorithm) : List Use :=
  a.globals.flatMap a.globalScope.initUses ++
    a.units.flatMap a.globalScope.definitionUse ++
    a.procedures.flatMap a.procedureUses ++
    a.archetypes.flatMap a.archetypeUses ++
    a.mappingMacros.flatMap a.mappingMacroUses ++
    a.instances.flatMap a.instanceUses ++
    match a.processes with
    | .single body => a.bodyUses a.globalScope [] body
    | .multi processes => processes.flatMap a.processUses

end Algorithm

namespace Registry

def ofAlgorithm (a : Algorithm) : Registry where
  references := Use.references a.uses ∅
  globalScope := a.globalScope
  constants := a.constants
  globalVariables := a.globals.map (·.id)
  procedures := byName (·.name) a.procedures
  archetypes := byName (·.name) a.archetypes
  mappingMacros := byName (·.name) a.mappingMacros
  diagnostics := Use.diagnostics a.uses

def followReference (r : Registry) (site : NodeId) : Option NodeId := r.references[site]?

def isReferenced (r : Registry) (decl : NodeId) : Bool := r.references.toList.any (·.2 = decl)

def constantValue (r : Registry) (id : NodeId) : Option Expr := r.constantValues[id]?

def findProcedure (r : Registry) (name : String) : Option Procedure := r.procedures[name]?

def findArchetype (r : Registry) (name : String) : Option Archetype := r.archetypes[name]?

def findMappingMacro (r : Registry) (name : String) : Option MappingMacro := r.mappingMacros[name]?

def slotsOf (r : Registry) (param : NodeId) : Option Slots := r.slots[param]?

def globalType (r : Registry) (id : NodeId) : Option GoType := r.globalTypes[id]?

def setGlobalType (r : Registry) (id : NodeId) (t : GoType) : Registry :=
  { r with globalTypes := r.globalTypes.insert id t }

inductive ConstantError
  | undeclared (name : String) (value : NodeId)
  | undefinedNames (uses : List Use)

def ConstantError.diagnostics : ConstantError → List Diagnostic
  | undeclared name value =>
    [(Diagnostic.error .undefinedName
      s!"cannot set value of undeclared constant `{name}`").atNode value]
  | undefinedNames uses => Use.diagnostics uses

/-- Give a value to the first constant of the name. The names in the value are
those of the global scope. -/
def setConstantValue (r : Registry) (name : String) (value : Expr) :
    Except ConstantError Registry :=
  match r.constants.find? (·.value = name) with
  | none => .error (.undeclared name value.id)
  | some c =>
    let uses := r.globalScope.exprUses value
    if (Use.diagnostics uses).isEmpty then
      .ok { r with
        references := Use.references uses r.references
        constantValues := r.constantValues.insert c.id value }
    else .error (.undefinedNames uses)

end Registry

end PlusCalTyping
