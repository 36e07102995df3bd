import PlusCalTyping.Syntax.Stmt

/-! # Algorithms

A whole Modular PlusCal algorithm: constants, operators, global variables,
procedures, archetypes, mapping macros, and the processes and instances that
run.
-/

namespace PlusCalTyping

/-- A procedure. The identity of the process that calls it is declared at
`selfId`. -/
structure Procedure where
  id : NodeId
  name : String
  selfId : NodeId
  params : List Decl
  locals : List Decl
  body : List Stmt

/-- A parameter of an archetype, passed by reference if declared `ref x`. -/
structure Param where
  decl : Decl
  byRef : Bool

/-- A process with parameters. Its own identity is declared at `selfId`. -/
structure Archetype where
  id : NodeId
  name : String
  selfId : NodeId
  params : List Param
  locals : List Decl
  body : List Stmt

/-- What to do on reading and on writing a mapped variable. `$variable` and
`$value` are declared at `variableId` and `valueId`; `readValueId` stands for
the value that a read yields. -/
structure MappingMacro where
  id : NodeId
  name : String
  variableId : NodeId
  valueId : NodeId
  readValueId : NodeId
  readBody : List Stmt
  writeBody : List Stmt

/-- `mapping x via M` -/
structure Mapping where
  id : NodeId
  variableExpr : Expr
  macroName : String

/-- `process (name \in S) == instance A(args) mapping x via M` -/
structure Instance where
  id : NodeId
  name : Decl
  target : String
  args : List Expr
  mappings : List Mapping

/-- A process, whose identity is declared by its name. -/
structure Process where
  id : NodeId
  name : Decl
  locals : List Decl
  body : List Stmt

/-- One nameless body, or any number of named processes. -/
inductive Processes
  | single (body : List Stmt)
  | multi (processes : List Process)

instance : Inhabited Processes := ⟨.multi []⟩

structure Algorithm where
  name : String := ""
  constants : List (Node String) := []
  units : List Definition := []
  globals : List Decl := []
  procedures : List Procedure := []
  archetypes : List Archetype := []
  mappingMacros : List MappingMacro := []
  instances : List Instance := []
  processes : Processes := .multi []

namespace Algorithm

/-- The first archetype of the name. -/
def findArchetype (a : Algorithm) (name : String) : Option Archetype :=
  a.archetypes.find? (·.name = name)

/-- The first mapping macro of the name. -/
def findMappingMacro (a : Algorithm) (name : String) : Option MappingMacro :=
  a.mappingMacros.find? (·.name = name)

/-- The first procedure of the name. -/
def findProcedure (a : Algorithm) (name : String) : Option Procedure :=
  a.procedures.find? (·.name = name)

end Algorithm

end PlusCalTyping
