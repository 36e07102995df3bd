/-! # Operators

The built-in operators of expressions, each with the symbol it is written as.
-/

namespace PlusCalTyping

inductive UnaryOp
  | not
  | neg
  | domain
  | powerSet
  | bigUnion
  | cardinality
deriving DecidableEq, Inhabited

namespace UnaryOp

def all : List UnaryOp := [not, neg, domain, powerSet, bigUnion, cardinality]

theorem mem_all (op : UnaryOp) : op ∈ all := by
  cases op <;> decide

def symbol : UnaryOp → String
  | not => "~"
  | neg => "-"
  | domain => "DOMAIN"
  | powerSet => "SUBSET"
  | bigUnion => "UNION"
  | cardinality => "Cardinality"

def ofSymbol? (s : String) : Option UnaryOp := all.find? (·.symbol = s)

end UnaryOp

inductive BinaryOp
  | add
  | sub
  | mul
  | intDiv
  | mod
  | realDiv
  | lt
  | le
  | gt
  | ge
  | eq
  | neq
  | and
  | or
  | implies
  | equiv
  | mem
  | notMem
  | union
  | intersect
  | setMinus
  | subset
  | range
  | concat
deriving DecidableEq, Inhabited

namespace BinaryOp

def all : List BinaryOp :=
  [add, sub, mul, intDiv, mod, realDiv, lt, le, gt, ge, eq, neq, and, or, implies, equiv, mem,
    notMem, union, intersect, setMinus, subset, range, concat]

theorem mem_all (op : BinaryOp) : op ∈ all := by
  cases op <;> decide

def symbol : BinaryOp → String
  | add => "+"
  | sub => "-"
  | mul => "*"
  | intDiv => "\\div"
  | mod => "%"
  | realDiv => "/"
  | lt => "<"
  | le => "<="
  | gt => ">"
  | ge => ">="
  | eq => "="
  | neq => "/="
  | and => "/\\"
  | or => "\\/"
  | implies => "=>"
  | equiv => "<=>"
  | mem => "\\in"
  | notMem => "\\notin"
  | union => "\\union"
  | intersect => "\\intersect"
  | setMinus => "\\"
  | subset => "\\subseteq"
  | range => ".."
  | concat => "\\o"

def ofSymbol? (s : String) : Option BinaryOp := all.find? (·.symbol = s)

end BinaryOp

end PlusCalTyping
