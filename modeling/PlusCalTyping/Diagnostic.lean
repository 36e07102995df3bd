import PlusCalTyping.Node
import PlusCalTyping.Datum

/-! # Diagnostics

What the checker has to say about an algorithm: a message of some category at
some node, with notes at other nodes and perhaps advice.
-/

namespace PlusCalTyping

inductive Severity
  | error
  | warning
  | info
deriving DecidableEq, Inhabited

def Severity.name : Severity → String
  | error => "error"
  | warning => "warning"
  | info => "info"

inductive Category
  | typeMismatch
  | arityMismatch
  | infiniteType
  | alternativeExhausted
  | unresolvedType
  | undefinedName
  | solverBudget
deriving DecidableEq, Inhabited

namespace Category

def all : List Category :=
  [typeMismatch, arityMismatch, infiniteType, alternativeExhausted, unresolvedType,
    undefinedName, solverBudget]

theorem mem_all (c : Category) : c ∈ all := by
  cases c <;> decide

def name : Category → String
  | typeMismatch => "type_mismatch"
  | arityMismatch => "arity_mismatch"
  | infiniteType => "infinite_type"
  | alternativeExhausted => "alternative_exhausted"
  | unresolvedType => "unresolved_type"
  | undefinedName => "undefined_name"
  | solverBudget => "solver_budget"

/-- The stable code that users look a category up by. -/
def code : Category → String
  | typeMismatch => "E0001"
  | arityMismatch => "E0002"
  | infiniteType => "E0003"
  | alternativeExhausted => "E0004"
  | unresolvedType => "E0005"
  | undefinedName => "E0006"
  | solverBudget => "E0007"

def description : Category → String
  | typeMismatch => "Two values that must share a type have incompatible types."
  | arityMismatch => "A tuple or call has the wrong number of components."
  | infiniteType => "A type would have to contain itself."
  | alternativeExhausted => "A value that may take one of several types fits none of them."
  | unresolvedType => "The type of a value could not be determined."
  | undefinedName => "A referenced variable, operator, or macro is undefined."
  | solverBudget => "Type inference did not finish within its iteration budget."

end Category

structure Diagnostic where
  code : Option String
  severity : Severity
  category : Category
  message : String
  location : Option NodeId := none
  labels : List (Node String) := []
  help : Option String := none

namespace Diagnostic

/-- A diagnostic with the code of its category. -/
def ofSeverity (severity : Severity) (category : Category) (message : String) : Diagnostic where
  code := some category.code
  severity := severity
  category := category
  message := message

def error : Category → String → Diagnostic := ofSeverity .error

def warning : Category → String → Diagnostic := ofSeverity .warning

def atNode (d : Diagnostic) (n : NodeId) : Diagnostic := { d with location := some n }

def withLabel (d : Diagnostic) (n : NodeId) (message : String) : Diagnostic :=
  { d with labels := d.labels ++ [⟨n, message⟩] }

def withHelp (d : Diagnostic) (help : String) : Diagnostic := { d with help := some help }

def isError (d : Diagnostic) : Bool := d.severity = .error

/-- The nodes pointed at, the location first, each once. -/
def nodes (d : Diagnostic) : List NodeId := (d.location.toList ++ d.labels.map (·.id)).eraseDups

def showNode (n : NodeId) : String := s!"node {n}"

def render (d : Diagnostic) : String :=
  let head := match d.code with
    | some code => s!"{d.severity.name}[{code}]: {d.message}"
    | none => s!"{d.severity.name}: {d.message}"
  let place := match d.location with
    | some n => s!"\n  --> {showNode n}"
    | none => ""
  let notes := d.labels.map fun l => s!"\n  note: {showNode l.id}: {l.value}"
  let advice := match d.help with
    | some help => s!"\n  help: {help}"
    | none => ""
  head ++ place ++ String.join notes ++ advice

instance : ToString Diagnostic := ⟨render⟩

def toDatum (d : Diagnostic) : Datum :=
  .record [
    ("code", .ofOption .string d.code),
    ("severity", .string d.severity.name),
    ("category", .string d.category.name),
    ("message", .string d.message),
    ("location", .ofOption (fun n => .nat n.val) d.location),
    ("labels", .list (d.labels.map fun l =>
      .record [("location", .nat l.id.val), ("message", .string l.value)])),
    ("help", .ofOption .string d.help)]

def anyError (ds : List Diagnostic) : Bool := ds.any isError

/-- A failure with several diagnostics reads as its first. -/
def headline : List Diagnostic → String
  | [] => ""
  | d :: _ => d.render

end Diagnostic

end PlusCalTyping
