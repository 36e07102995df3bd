import PlusCalTyping.Node
import PlusCalTyping.Datum

/-! # Traces

Records of what inference did, one line a step: which rule gave a node its
type, and what unification made of two types. They are kept on demand only.
-/

namespace PlusCalTyping

inductive UnifyAction
  | identity
  | decompose
  | bind
  | occursCheck
  | commitAlternative
  | defaultAlternative
  | error
deriving DecidableEq, Inhabited

def UnifyAction.name : UnifyAction → String
  | identity => "identity"
  | decompose => "decompose"
  | bind => "bind"
  | occursCheck => "occurs_check"
  | commitAlternative => "commit_alternative"
  | defaultAlternative => "default_alternative"
  | error => "error"

structure UnifyLine where
  action : UnifyAction
  left : String
  right : String
  detail : String
deriving DecidableEq, Inhabited

structure UnifyStep extends UnifyLine where
  step : Nat
deriving DecidableEq, Inhabited

def UnifyStep.toDatum (s : UnifyStep) : Datum :=
  .record [("step", .nat s.step), ("action", .string s.action.name), ("left", .string s.left),
    ("right", .string s.right), ("detail", .string s.detail)]

/-- Put further lines at the end of a trace, numbered from one on. -/
def appendLines (trace : Array UnifyStep) (lines : List UnifyLine) : Array UnifyStep :=
  lines.foldl (fun t l => t.push ⟨l, t.size + 1⟩) trace

inductive TypingRule
  | literal
  | identifier
  | tuple
  | set
  | operator
  | functionApply
  | functionLiteral
  | setFormer
  | quantifier
  | choose
  | conditional
  | cases
  | letIn
  | operatorCall
  | declaration
  | signature
  | alternative
deriving DecidableEq, Inhabited

def TypingRule.name : TypingRule → String
  | literal => "literal"
  | identifier => "identifier"
  | tuple => "tuple"
  | set => "set"
  | operator => "operator"
  | functionApply => "function_apply"
  | functionLiteral => "function_literal"
  | setFormer => "set_former"
  | quantifier => "quantifier"
  | choose => "choose"
  | conditional => "if"
  | cases => "case"
  | letIn => "let"
  | operatorCall => "operator_call"
  | declaration => "declaration"
  | signature => "signature"
  | alternative => "alternative"

structure RuleStep where
  step : Nat
  node : NodeId
  rule : TypingRule
  type : String
  detail : String
deriving DecidableEq, Inhabited

/-- An empty detail is left out. -/
def RuleStep.toDatum (s : RuleStep) : Datum :=
  .record ([("step", .nat s.step), ("node", .nat s.node.val), ("rule", .string s.rule.name),
    ("type", .string s.type)] ++ if s.detail = "" then [] else [("detail", .string s.detail)])

end PlusCalTyping
