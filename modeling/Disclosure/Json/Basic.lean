import Disclosure.Decimal

/-!
# JSON values

Integers and other numbers are told apart by how they are written: a number without fraction and
exponent is an integer, but for `-0`, which is a decimal number.  The escapes in a string may leave
a surrogate without its partner.  Such a string is no text; it can be skipped but not read.
-/

namespace Disclosure

/-- A JSON value.  The keys of an object are kept as they are written, repeated ones too. -/
inductive Json where
  | null
  | bool (value : Bool)
  | int (value : Int)
  | decimal (value : Decimal)
  /-- A string, `none` if it is no text. -/
  | str (value : Option String)
  | arr (items : List Json)
  | obj (members : List (Option String × Json))

namespace Json

def text (s : String) : Json := .str (some s)

def nat (n : Nat) : Json := .int (Int.ofNat n)

def record (fields : List (String × Json)) : Json :=
  .obj (fields.map fun f => (some f.1, f.2))

def variant (name : String) (payload : Json) : Json := .obj [(some name, payload)]

def option {α : Type} (toJson : α → Json) : Option α → Json
  | none => .null
  | some a => toJson a

def list {α : Type} (toJson : α → Json) (as : List α) : Json := .arr (as.map toJson)

mutual

/-- How deep arrays and objects are nested. -/
def depth : Json → Nat
  | .arr items => depthList items + 1
  | .obj members => depthMembers members + 1
  | _ => 0

def depthList : List Json → Nat
  | [] => 0
  | j :: rest => max j.depth (depthList rest)

def depthMembers : List (Option String × Json) → Nat
  | [] => 0
  | (_, j) :: rest => max j.depth (depthMembers rest)

end

end Json

end Disclosure
