import PlusCalTyping.Ty.Display
import PlusCalTyping.Datum

/-! # Go types

The Go type that values of a resolved type are given. Sets become sorted
slices, tuples anonymous structs, and functions maps where their keys can be
compared and slices of pairs where they cannot. A type has a Go type exactly
when neither a variable nor the marker of failure is left in it.
-/

namespace PlusCalTyping

inductive GoType
  | int
  | float64
  | bool
  | string
  | slice (elem : GoType)
  | struct (fields : List (String × GoType))
  | map (key value : GoType)
  | func (params : List GoType) (result : Option GoType)

namespace GoType

instance : Inhabited GoType := ⟨int⟩

mutual

def isComparable : GoType → Bool
  | int | float64 | bool | string => true
  | struct fields => areComparable fields
  | slice _ | map _ _ | func _ _ => false

def areComparable : List (String × GoType) → Bool
  | [] => true
  | (_, t) :: rest => isComparable t && areComparable rest

end

mutual

def render : GoType → String
  | int => "int"
  | float64 => "float64"
  | bool => "bool"
  | string => "string"
  | slice elem => "[]" ++ render elem
  | struct fields => "struct\x7b" ++ renderFields fields ++ "\x7d"
  | map key value => "map[" ++ render key ++ "]" ++ render value
  | func params none => "func(" ++ renderParams params ++ ")"
  | func params (some result) => "func(" ++ renderParams params ++ ") " ++ render result

def renderFields : List (String × GoType) → String
  | [] => ""
  | [(name, t)] => name ++ " " ++ render t
  | (name, t) :: f :: rest => name ++ " " ++ render t ++ "; " ++ renderFields (f :: rest)

def renderParams : List GoType → String
  | [] => ""
  | [t] => render t
  | t :: u :: rest => render t ++ ", " ++ renderParams (u :: rest)

end

instance : ToString GoType := ⟨render⟩

mutual

def toDatum : GoType → Datum
  | int => .record [("kind", .string "int")]
  | float64 => .record [("kind", .string "float64")]
  | bool => .record [("kind", .string "bool")]
  | string => .record [("kind", .string "string")]
  | slice elem => .record [("kind", .string "slice"), ("elem", toDatum elem)]
  | struct fields => .record [("kind", .string "struct"), ("fields", .list (fieldData fields))]
  | map key value =>
    .record [("kind", .string "map"), ("key", toDatum key), ("value", toDatum value)]
  | func params none =>
    .record [("kind", .string "func"), ("params", .list (paramData params)), ("ret", .null)]
  | func params (some result) =>
    .record [("kind", .string "func"), ("params", .list (paramData params)),
      ("ret", toDatum result)]

def fieldData : List (String × GoType) → List Datum
  | [] => []
  | (name, t) :: rest =>
    .record [("name", .string name), ("ty", toDatum t)] :: fieldData rest

def paramData : List GoType → List Datum
  | [] => []
  | t :: rest => toDatum t :: paramData rest

end

/-- A map, or where its keys cannot be compared a slice of pairs. -/
def keyed (key value : GoType) : GoType :=
  if key.isComparable then map key value
  else slice (struct [("key", key), ("value", value)])

def ofPrim : Prim → GoType
  | .int => int
  | .real => float64
  | .bool => bool
  | .string => string

mutual

/-- The Go type of values of a type, if the type is fully known. -/
def ofTy? : Ty → Option GoType
  | .prim p _ => some (ofPrim p)
  | .var _ | .unresolved _ => none
  | .set elem _ => (ofTy? elem).map slice
  | .tuple elems _ => (fieldsOf? 0 elems).map struct
  | .map key value _ => do
    let key ← ofTy? key
    let value ← ofTy? value
    return keyed key value
  | .procedure params _ => do
    let params ← paramsOf? params
    return func params none
  | .operator params result _ => do
    let params ← paramsOf? params
    let result ← ofTy? result
    return func params (some result)

/-- The components of a tuple are called `e0`, `e1` and so on. -/
def fieldsOf? (i : Nat) : List Ty → Option (List (String × GoType))
  | [] => some []
  | t :: rest => do
    let t ← ofTy? t
    let rest ← fieldsOf? (i + 1) rest
    return (s!"e{i}", t) :: rest

def paramsOf? : List Ty → Option (List GoType)
  | [] => some []
  | t :: rest => do
    let t ← ofTy? t
    let rest ← paramsOf? rest
    return t :: rest

end

end GoType

inductive NoGoType
  | undetermined (t : Ty)
  | hasVariables (t : Ty)

def NoGoType.message : NoGoType → String
  | undetermined t => s!"type `{t.display}` could not be determined"
  | hasVariables t => s!"type `{t.display}` still contains type variables"

/-- The Go type of a type. What could not be determined is reported before
what is not yet determined. -/
def Ty.toGo (t : Ty) : Except NoGoType GoType :=
  match GoType.ofTy? t with
  | some g => .ok g
  | none => if t.containsUnresolved then .error (.undetermined t) else .error (.hasVariables t)

end PlusCalTyping
