import PlusCalTyping.Datum

/-! # Options

The settings of one run of inference, and how they are read.
-/

namespace PlusCalTyping

structure Options where
  /-- The most equations that may be tried, trials of candidates included. -/
  maxIterations : Nat := 1000000
  /-- How many of the last equations a report of an exhausted budget lists. -/
  traceLimit : Nat := 8
  /-- Whether to record what generation and unification do. -/
  tracing : Bool := false
  /-- How variables are called in traces. -/
  varPrefix : String := "type"
deriving Inhabited, DecidableEq

namespace Options

/-- A count is an integer of 64 bits. -/
def count? : Datum → Option Nat
  | .int (.ofNat n) => if n < UInt64.size then some n else none
  | _ => none

def flag? : Datum → Option Bool
  | .bool b => some b
  | _ => none

def text? : Datum → Option String
  | .string s => some s
  | _ => none

/-- A setting that keeps its default where nothing is given. -/
def setting {α : Type} (read : Datum → Option α) (default : α) : Option Datum → Option α
  | none => some default
  | some d => read d

def ofSettings? (maxIterations traceLimit tracing varPrefix : Option Datum) : Option Options := do
  let d : Options := {}
  return {
    maxIterations := ← setting count? d.maxIterations maxIterations
    traceLimit := ← setting count? d.traceLimit traceLimit
    tracing := ← setting flag? d.tracing tracing
    varPrefix := ← setting text? d.varPrefix varPrefix }

/-- Read options from a record of named settings, where unknown names do no
harm, or from a list of at most four settings in order. -/
def ofDatum? : Datum → Option Options
  | .record fields =>
    ofSettings? (Datum.field? "max_iterations" fields) (Datum.field? "trace_limit" fields)
      (Datum.field? "tracing" fields) (Datum.field? "type_var_prefix" fields)
  | .list items =>
    if items.length ≤ 4 then ofSettings? items[0]? items[1]? items[2]? items[3]? else none
  | _ => none

end Options

end PlusCalTyping
