/-! # Structured values

The form in which options are read and reports are handed to other tools.
Numbers keep apart what is written as an integer from what is not, because a
count is only ever given as an integer.
-/

namespace PlusCalTyping

inductive Datum
  | null
  | bool (b : Bool)
  | int (n : Int)
  | fraction (mantissa : Int) (places : Nat)
  | string (s : String)
  | list (items : List Datum)
  | record (fields : List (String × Datum))

namespace Datum

instance : Inhabited Datum := ⟨null⟩

def nat (n : Nat) : Datum := int n

def ofOption {α : Type} (f : α → Datum) : Option α → Datum
  | none => null
  | some a => f a

/-- The last field of the name, if the value is a record that has one. -/
def field? (name : String) (fields : List (String × Datum)) : Option Datum :=
  (fields.reverse.find? (·.1 = name)).map (·.2)

end Datum

end PlusCalTyping
