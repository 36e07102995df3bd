import PlusCalTyping.Syntax.Algorithm
import PlusCalTyping.Diagnostic

/-! # Scopes

Which declaration each use of a name refers to. A scope holds the innermost
declaration of every visible name, and each construct passes on the scope that
its parts see. The uses are listed in the order they are met.
-/

namespace PlusCalTyping

abbrev Scope := Std.TreeMap String NodeId

/-- What a used name is the name of. -/
inductive NameKind
  | variableName
  | operatorName
  | procedureName
  | archetypeName
  | mappingMacroName
deriving DecidableEq, Inhabited

def NameKind.describe : NameKind → String
  | variableName => "variable"
  | operatorName => "operator"
  | procedureName => "procedure"
  | archetypeName => "archetype"
  | mappingMacroName => "mapping macro"

/-- A use of a name: bound to a declaration, or undefined where it stands. -/
inductive Use
  | bound (site decl : NodeId)
  | undefined (site : NodeId) (kind : NameKind) (name : String)
deriving DecidableEq, Inhabited

namespace Use

/-- The references among uses. Where a node is used twice, the later holds. -/
def references (uses : List Use) (known : NodeMap NodeId) : NodeMap NodeId :=
  uses.foldl (fun refs u => match u with
    | bound site decl => refs.insert site decl
    | undefined _ _ _ => refs) known

def diagnostic? : Use → Option Diagnostic
  | bound _ _ => none
  | undefined site kind name =>
    some ((Diagnostic.error .undefinedName
      s!"cannot find {kind.describe} `{name}` in this scope").atNode site)

def diagnostics (uses : List Use) : List Diagnostic := uses.filterMap diagnostic?

end Use

namespace Scope

/-- The use of a name at a node. -/
def use (scope : Scope) (site : NodeId) (kind : NameKind) (name : String) : Use :=
  match scope[name]? with
  | some decl => .bound site decl
  | none => .undefined site kind name

/-- The report that a name is not there. That it is leaves no reference. -/
def missing (scope : Scope) (site : NodeId) (kind : NameKind) (name : String) : List Use :=
  if scope.contains name then [] else [.undefined site kind name]

/-- The scope after a declaration, which hides an earlier one of its name. -/
def declare (scope : Scope) (name : String) (id : NodeId) : Scope := scope.insert name id

/-- The scope after declarations in sequence. -/
def declareAll {α : Type} (scope : Scope) (name : α → String) (id : α → NodeId)
    (ds : List α) : Scope :=
  ds.foldl (fun s d => s.declare (name d) (id d)) scope

def declareArgs (scope : Scope) (args : List (Node String)) : Scope :=
  scope.declareAll (·.value) (·.id) args

def declareBounds (scope : Scope) (bounds : List Bound) : Scope :=
  scope.declareAll (·.name) (·.id) bounds

def declareDefinitions (scope : Scope) (definitions : List Definition) : Scope :=
  scope.declareAll (·.name) (·.id) definitions

def declareDecls (scope : Scope) (decls : List Decl) : Scope :=
  scope.declareAll (·.name) (·.id) decls

mutual

/-- The uses in an expression. The sets of bounds see the scope around them,
the body sees all bounds; a local definition is visible after itself. -/
def exprUses (scope : Scope) : Expr → List Use
  | .literal _ _ => []
  | .ident id name | .ref id name => [scope.use id .variableName name]
  | .tuple _ elems | .set _ elems => listUses scope elems
  | .unary _ _ operand => exprUses scope operand
  | .binary _ _ left right => exprUses scope left ++ exprUses scope right
  | .apply _ func args => exprUses scope func ++ listUses scope args
  | .function _ bounds body => boundUses scope bounds ++ exprUses (scope.declareBounds bounds) body
  | .refinement _ bound predicate | .choose _ bound predicate =>
    boundUse scope bound ++ exprUses (scope.declare bound.name bound.id) predicate
  | .comprehension _ body bounds =>
    boundUses scope bounds ++ exprUses (scope.declareBounds bounds) body
  | .quantified _ _ bounds body =>
    boundUses scope bounds ++ exprUses (scope.declareBounds bounds) body
  | .ite _ condition thenBranch elseBranch =>
    exprUses scope condition ++ exprUses scope thenBranch ++ exprUses scope elseBranch
  | .cases _ arms none => armUses scope arms
  | .cases _ arms (some other) => armUses scope arms ++ exprUses scope other
  | .letIn _ definitions body =>
    definitionUses scope definitions ++
      exprUses (scope.declareDefinitions definitions) body
  | .call id name args => scope.use id .operatorName name :: listUses scope args

def listUses (scope : Scope) : List Expr → List Use
  | [] => []
  | e :: es => exprUses scope e ++ listUses scope es

def boundUse (scope : Scope) : Bound → List Use
  | ⟨_, _, set⟩ => exprUses scope set

def boundUses (scope : Scope) : List Bound → List Use
  | [] => []
  | b :: bs => boundUse scope b ++ boundUses scope bs

def armUses (scope : Scope) : List Arm → List Use
  | [] => []
  | ⟨condition, result⟩ :: arms =>
    exprUses scope condition ++ exprUses scope result ++ armUses scope arms

def definitionUse (scope : Scope) : Definition → List Use
  | ⟨_, _, args, body⟩ => exprUses (scope.declareArgs args) body

def definitionUses (scope : Scope) : List Definition → List Use
  | [] => []
  | d :: ds => definitionUse scope d ++ definitionUses (scope.declare d.name d.id) ds

end

def initUses (scope : Scope) (d : Decl) : List Use := (d.initial?.map (exprUses scope)).getD []

/-- The uses in a sequence of declarations, each visible after itself. -/
def declUses (scope : Scope) : List Decl → List Use
  | [] => []
  | d :: ds => initUses scope d ++ declUses (scope.declare d.name d.id) ds

variable (procedures : Scope)

mutual

/-- The uses in a statement, with the procedures that it may call. -/
def stmtUses (scope : Scope) : Stmt → List Use
  | .labeled _ _ body => stmtsUses scope body
  | .assign _ pairs => pairs.flatMap fun p => exprUses scope p.target ++ exprUses scope p.value
  | .ret _ | .skip _ | .goto _ _ => []
  | .ite _ condition thenBranch elseBranch =>
    exprUses scope condition ++ stmtsUses scope thenBranch ++ stmtsUses scope elseBranch
  | .either _ branches => branchesUses scope branches
  | .whileDo _ condition body => exprUses scope condition ++ stmtsUses scope body
  | .withDo _ decls body =>
    declUses scope decls ++ stmtsUses (scope.declareDecls decls) body
  | .print _ e | .assert _ e | .await _ e | .yield _ e => exprUses scope e
  | .call id procedure args => procedures.use id .procedureName procedure :: listUses scope args

def stmtsUses (scope : Scope) : List Stmt → List Use
  | [] => []
  | s :: ss => stmtUses scope s ++ stmtsUses scope ss

def branchesUses (scope : Scope) : List (List Stmt) → List Use
  | [] => []
  | b :: bs => stmtsUses scope b ++ branchesUses scope bs

end

end Scope

end PlusCalTyping
