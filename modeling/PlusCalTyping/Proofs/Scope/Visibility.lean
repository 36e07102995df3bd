import Mathlib.Data.List.Basic
import PlusCalTyping.Registry

/-! # Visibility of names

Which declarations are visible where a name stands, as rules. An environment
lists the visible declarations, the innermost first. The rules say which
environment each part of a construct sees; a name that occurs in a part occurs
in the whole. Procedures, archetypes and mapping macros have environments of
their own, in which calls, instances and mappings look their names up.
-/

namespace PlusCalTyping

def Bound.declares (b : Bound) : Node String := ⟨b.id, b.name⟩

def Definition.declares (d : Definition) : Node String := ⟨d.id, d.name⟩

def Decl.declares (d : Decl) : Node String := ⟨d.id, d.name⟩

/-- The declarations that are visible, the innermost first. -/
abbrev Env := List (Node String)

namespace Env

/-- The innermost visible declaration of a name. -/
def innermost (env : Env) (name : String) : Option NodeId :=
  (env.find? (·.value = name)).map (·.id)

/-- The environment after declarations in sequence, each of which hides those
of its name that are already there. -/
def declare (env : Env) (ds : List (Node String)) : Env := ds.reverse ++ env

end Env

/-- Whether what the name refers to is recorded. Instances and mappings only
need their archetypes and mapping macros to be there. -/
def NameKind.isReference : NameKind → Bool
  | .variableName | .operatorName | .procedureName => true
  | .archetypeName | .mappingMacroName => false

/-- A name at a node, with the declarations that it may refer to. -/
structure Occurrence where
  site : NodeId
  kind : NameKind
  name : String
  visible : Env

namespace Occurrence

def declaration? (o : Occurrence) : Option NodeId := o.visible.innermost o.name

def report (o : Occurrence) : Diagnostic :=
  (Diagnostic.error .undefinedName
    s!"cannot find {o.kind.describe} `{o.name}` in this scope").atNode o.site

end Occurrence

/-! ## Expressions -/

namespace Expr

/-- The parts that see what the whole expression sees. -/
def operands : Expr → List Expr
  | .tuple _ elems | .set _ elems | .call _ _ elems => elems
  | .unary _ _ operand => [operand]
  | .binary _ _ left right => [left, right]
  | .apply _ func args => func :: args
  | .ite _ condition thenBranch elseBranch => [condition, thenBranch, elseBranch]
  | .cases _ arms other => arms.flatMap (fun x => [x.condition, x.result]) ++ other.toList
  | _ => []

/-- The bounds of a quantifier, function or set former, and its body. -/
def binder? : Expr → Option (List Bound × Expr)
  | .function _ bounds body | .comprehension _ body bounds | .quantified _ _ bounds body =>
    some (bounds, body)
  | .refinement _ bound body | .choose _ bound body => some ([bound], body)
  | _ => none

/-- An environment that a direct part of an expression sees. -/
inductive Part (env : Env) : Expr → Env → Expr → Prop
  | operand {e x : Expr} (h : x ∈ e.operands) : Part env e env x
  /-- The sets of all bounds see what is outside. -/
  | boundSet {e body : Expr} {bounds : List Bound} {b : Bound}
    (h : e.binder? = some (bounds, body)) (hb : b ∈ bounds) : Part env e env b.set
  /-- The body sees all bounds. -/
  | boundBody {e body : Expr} {bounds : List Bound} (h : e.binder? = some (bounds, body)) :
    Part env e (env.declare (bounds.map (·.declares))) body
  /-- A local definition sees its arguments and the definitions before it, but not itself. -/
  | definition {id : NodeId} {before after : List Definition} {d : Definition} {body : Expr} :
    Part env (.letIn id (before ++ d :: after) body)
      ((env.declare (before.map (·.declares))).declare d.args) d.body
  | letBody {id : NodeId} {ds : List Definition} {body : Expr} :
    Part env (.letIn id ds body) (env.declare (ds.map (·.declares))) body

/-- The names that occur in an expression. -/
inductive Occurs : Env → Expr → Occurrence → Prop
  | ident {env : Env} {id : NodeId} {name : String} :
    Occurs env (.ident id name) ⟨id, .variableName, name, env⟩
  | ref {env : Env} {id : NodeId} {name : String} :
    Occurs env (.ref id name) ⟨id, .variableName, name, env⟩
  | call {env : Env} {id : NodeId} {name : String} {args : List Expr} :
    Occurs env (.call id name args) ⟨id, .operatorName, name, env⟩
  | part {env env' : Env} {e x : Expr} {o : Occurrence} (h : Part env e env' x)
    (ho : Occurs env' x o) : Occurs env e o

end Expr

/-- The names that occur in what declarations start as. Later initial values see
earlier declarations, but not their own. -/
inductive Decl.OccursIn (env : Env) : List Decl → Occurrence → Prop
  | initial {before after : List Decl} {d : Decl} {e : Expr} {o : Occurrence}
    (he : d.initial? = some e) (ho : e.Occurs (env.declare (before.map (·.declares))) o) :
    OccursIn env (before ++ d :: after) o

/-! ## Statements -/

namespace Stmt

/-- The expressions that see what the whole statement sees. -/
def exprs : Stmt → List Expr
  | .assign _ pairs => pairs.flatMap fun p => [p.target, p.value]
  | .ite _ condition _ _ | .whileDo _ condition _ => [condition]
  | .print _ e | .assert _ e | .await _ e | .yield _ e => [e]
  | .call _ _ args => args
  | _ => []

/-- The statements that see what the whole statement sees. -/
def blocks : Stmt → List Stmt
  | .labeled _ _ body | .whileDo _ _ body => body
  | .ite _ _ thenBranch elseBranch => thenBranch ++ elseBranch
  | .either _ branches => branches.flatten
  | _ => []

/-- The names that occur in a statement, given the procedures that it may call. -/
inductive Occurs (procedures : Env) : Env → Stmt → Occurrence → Prop
  | expr {env : Env} {s : Stmt} {e : Expr} {o : Occurrence} (h : e ∈ s.exprs)
    (ho : e.Occurs env o) : Occurs procedures env s o
  | block {env : Env} {s t : Stmt} {o : Occurrence} (h : t ∈ s.blocks)
    (ho : Occurs procedures env t o) : Occurs procedures env s o
  | call {env : Env} {id : NodeId} {name : String} {args : List Expr} :
    Occurs procedures env (.call id name args) ⟨id, .procedureName, name, procedures⟩
  | withDecls {env : Env} {id : NodeId} {decls : List Decl} {body : List Stmt} {o : Occurrence}
    (ho : Decl.OccursIn env decls o) : Occurs procedures env (.withDo id decls body) o
  | withBody {env : Env} {id : NodeId} {decls : List Decl} {body : List Stmt} {s : Stmt}
    {o : Occurrence} (h : s ∈ body)
    (ho : Occurs procedures (env.declare (decls.map (·.declares))) s o) :
    Occurs procedures env (.withDo id decls body) o

end Stmt

/-- The names that occur in a body or in the declarations before it. -/
inductive BodyOccurs (procedures env : Env) (decls : List Decl) (body : List Stmt) :
    Occurrence → Prop
  | decls {o : Occurrence} (ho : Decl.OccursIn env decls o) :
    BodyOccurs procedures env decls body o
  | body {s : Stmt} {o : Occurrence} (h : s ∈ body)
    (ho : s.Occurs procedures (env.declare (decls.map (·.declares))) o) :
    BodyOccurs procedures env decls body o

/-! ## Algorithms -/

namespace Algorithm

variable (a : Algorithm)

/-- Constants, global variables and operators are visible everywhere. Of several
of one name the last operator comes before variables and constants. -/
def globalEnv : Env :=
  Env.declare [] (a.constants ++ a.globals.map (·.declares) ++ a.units.map (·.declares))

def procedureEnv : Env := Env.declare [] (a.procedures.map fun p => ⟨p.id, p.name⟩)

def archetypeEnv : Env := Env.declare [] (a.archetypes.map fun x => ⟨x.id, x.name⟩)

def mappingMacroEnv : Env := Env.declare [] (a.mappingMacros.map fun m => ⟨m.id, m.name⟩)

/-- What a body sees that knows its own identity. -/
def selfEnv (selfId : NodeId) : Env := a.globalEnv.declare [⟨selfId, "self"⟩]

/-- The names that occur in an instance. -/
inductive InstanceOccurs (i : Instance) : Occurrence → Prop
  | name {e : Expr} {o : Occurrence} (he : i.name.initial? = some e)
    (ho : e.Occurs a.globalEnv o) : InstanceOccurs i o
  | target : InstanceOccurs i ⟨i.id, .archetypeName, i.target, a.archetypeEnv⟩
  | arg {e : Expr} {o : Occurrence} (he : e ∈ i.args) (ho : e.Occurs (a.selfEnv i.name.id) o) :
    InstanceOccurs i o
  | mappedVariable {m : Mapping} {o : Occurrence} (hm : m ∈ i.mappings)
    (ho : m.variableExpr.Occurs a.globalEnv o) : InstanceOccurs i o
  | mappingMacro {m : Mapping} (hm : m ∈ i.mappings) :
    InstanceOccurs i ⟨m.id, .mappingMacroName, m.macroName, a.mappingMacroEnv⟩

/-- The names that occur in processes. A single body has no identity. -/
inductive ProcessesOccurs : Processes → Occurrence → Prop
  | single {body : List Stmt} {o : Occurrence}
    (ho : BodyOccurs a.procedureEnv a.globalEnv [] body o) : ProcessesOccurs (.single body) o
  | name {ps : List Process} {p : Process} {e : Expr} {o : Occurrence} (hp : p ∈ ps)
    (he : p.name.initial? = some e) (ho : e.Occurs a.globalEnv o) :
    ProcessesOccurs (.multi ps) o
  | body {ps : List Process} {p : Process} {o : Occurrence} (hp : p ∈ ps)
    (ho : BodyOccurs a.procedureEnv (a.selfEnv p.name.id) p.locals p.body o) :
    ProcessesOccurs (.multi ps) o

/-- The names that occur in an algorithm. -/
inductive Occurs : Occurrence → Prop
  | global {d : Decl} {e : Expr} {o : Occurrence} (hd : d ∈ a.globals)
    (he : d.initial? = some e) (ho : e.Occurs a.globalEnv o) : Occurs o
  | unit {d : Definition} {o : Occurrence} (hd : d ∈ a.units)
    (ho : d.body.Occurs (a.globalEnv.declare d.args) o) : Occurs o
  | procedure {p : Procedure} {o : Occurrence} (hp : p ∈ a.procedures)
    (ho : BodyOccurs a.procedureEnv (a.selfEnv p.selfId) (p.params ++ p.locals) p.body o) :
    Occurs o
  | archetype {x : Archetype} {o : Occurrence} (hx : x ∈ a.archetypes)
    (ho : BodyOccurs a.procedureEnv (a.selfEnv x.selfId) (x.params.map (·.decl) ++ x.locals)
      x.body o) : Occurs o
  | readBody {m : MappingMacro} {o : Occurrence} (hm : m ∈ a.mappingMacros)
    (ho : BodyOccurs a.procedureEnv (a.globalEnv.declare [⟨m.variableId, "$variable"⟩]) []
      m.readBody o) : Occurs o
  | writeBody {m : MappingMacro} {o : Occurrence} (hm : m ∈ a.mappingMacros)
    (ho : BodyOccurs a.procedureEnv
      (a.globalEnv.declare [⟨m.variableId, "$variable"⟩, ⟨m.valueId, "$value"⟩]) []
      m.writeBody o) : Occurs o
  | instances {i : Instance} {o : Occurrence} (hi : i ∈ a.instances)
    (ho : a.InstanceOccurs i o) : Occurs o
  | processes {o : Occurrence} (ho : a.ProcessesOccurs a.processes o) : Occurs o

end Algorithm

end PlusCalTyping
