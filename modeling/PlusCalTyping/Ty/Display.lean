import PlusCalTyping.Ty.Basic

/-! # Written types

A type is written with one of three namings of its variables: by number for
the makers of the checker, by a chosen prefix and number in traces, and by
letters in order of appearance for users. The letters hide the numbers, so
two types that differ only in the choice of variables read the same.
-/

namespace PlusCalTyping

def Prim.name : Prim → String
  | .int => "Int"
  | .real => "Real"
  | .bool => "Bool"
  | .string => "String"

namespace Ty

mutual

/-- The text of a type under a naming of its variables. -/
def render (name : TypeVar → String) : Ty → String
  | prim p _ => p.name
  | var v => name v
  | set elem _ => "Set(" ++ render name elem ++ ")"
  | tuple elems _ => "Tuple(" ++ renderList name elems ++ ")"
  | map key value _ => "Map(" ++ render name key ++ ", " ++ render name value ++ ")"
  | procedure params _ => "Func(" ++ renderList name params ++ ")"
  | operator params result _ =>
    "Func(" ++ renderList name params ++ ") -> " ++ render name result
  | unresolved _ => "?"

def renderList (name : TypeVar → String) : List Ty → String
  | [] => ""
  | [t] => render name t
  | t :: u :: ts => render name t ++ ", " ++ renderList name (u :: ts)

end

instance : ToString TypeVar := ⟨fun v => s!"t{v.index}"⟩

instance : ToString Ty := ⟨render toString⟩

/-- The text of a type in a trace, its variables named `type0`, `type1` and so
on for the prefix `type`. -/
def traced (varPrefix : String) : Ty → String := render fun v => varPrefix ++ toString v.index

/-- The names `a` to `z`, then `a1` to `z1`, and so on. -/
def letterName (i : Nat) : String :=
  let letter := String.singleton (Char.ofNat ('a'.toNat + i % 26))
  if i < 26 then letter else letter ++ toString (i / 26)

/-- The name a variable gets from its place in a list. -/
def letterIn (order : List TypeVar) (v : TypeVar) : String := letterName (order.idxOf v)

def display (t : Ty) : String := t.render (letterIn t.vars.eraseDups)

/-- The texts of two types for users; a variable of both has one name. -/
def displayPair (s t : Ty) : String × String :=
  let order := (s.vars ++ t.vars).eraseDups
  (s.render (letterIn order), t.render (letterIn order))

end Ty

end PlusCalTyping
