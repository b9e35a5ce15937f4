import Disclosure.Json.Parser

/-!
# Taking JSON values apart

The shapes in which data is written: plain values, records, lists, and named alternatives.

A record is an object, in which unknown keys are skipped, or an array of the fields in order.  A
named alternative without data is its name, or an object that gives the name `null`.

Arrays and objects that are read may be nested only so deep.  A reader takes the number of levels
that are left; what is skipped does not count.
-/

namespace Disclosure

namespace Json

variable {α : Type}

/-- How deep arrays and objects that are read may be nested. -/
def maxDepth : Nat := 127

def text? : Json → Option String
  | .str s => s
  | _ => none

def bool? : Json → Option Bool
  | .bool b => some b
  | _ => none

def natBelow? (bound : Nat) : Json → Option Nat
  | .int (.ofNat n) => if n < bound then some n else none
  | _ => none

def uint32? (j : Json) : Option UInt32 := (j.natBelow? UInt32.size).map Nat.toUInt32

def uint64? (j : Json) : Option UInt64 := (j.natBelow? UInt64.size).map Nat.toUInt64

def count? (j : Json) : Option Nat := j.natBelow? UInt64.size

def int64? : Json → Option Int64
  | .int n =>
      if Int64.minValue.toInt ≤ n ∧ n ≤ Int64.maxValue.toInt then some (Int64.ofInt n) else none
  | _ => none

/-- A number that rounds to a finite binary number of 64 bits. -/
def decimal? : Json → Option Decimal
  | .int n => if (Decimal.ofInt n).isFinite then some (.ofInt n) else none
  | .decimal d => if d.isFinite then some d else none
  | _ => none

def char? (j : Json) : Option Char :=
  match j.text?.map String.toList with
  | some [c] => some c
  | _ => none

/-- The name of an alternative without data. -/
def name? : Nat → Json → Option String
  | _, .str s => s
  | _ + 1, .obj [(some name, .null)] => some name
  | _, _ => none

/-- The values of a list, each read with one level less. -/
def list? (read : Nat → Json → Option α) : Nat → Json → Option (List α)
  | depth + 1, .arr items => items.mapM (read depth)
  | _, _ => none

def member? (name : String) : List (Option String × Json) → Option Json
  | [] => none
  | (k, j) :: rest => if k = some name then some j else member? name rest

def countKey (name : String) (members : List (Option String × Json)) : Nat :=
  members.countP fun m => decide (m.1 = some name)

/-- The values of the known keys of an object.  Every key has to be a text, and no known key may
be given twice. -/
def knownMembers? (names : List String) (members : List (Option String × Json)) :
    Option (List (Option Json)) :=
  if members.all (fun m => m.1.isSome) && names.all (fun name => decide (countKey name members ≤ 1))
  then some (names.map fun name => member? name members)
  else none

/-- The values of the fields of a record.  An array gives them all. -/
def fields? (names : List String) : Json → Option (List (Option Json))
  | .arr items => if items.length = names.length then some (items.map some) else none
  | .obj members => knownMembers? names members
  | _ => none

/-- The values of the fields of a record in which fields may be missing.  An array gives the first
ones. -/
def partialFields? (names : List String) : Json → Option (List (Option Json))
  | .arr items =>
      if items.length ≤ names.length then
        some (items.map some ++ List.replicate (names.length - items.length) none)
      else none
  | .obj members => knownMembers? names members
  | _ => none

/-- A field that may be missing or `null`. -/
def optional (read : Json → Option α) : Option Json → Option (Option α)
  | none => some none
  | some .null => some none
  | some j => (read j).map some

def withDefault (default : α) (read : Json → Option α) : Option Json → Option α
  | none => some default
  | some j => read j

def decode (read : Nat → Json → Option α) (s : String) : Option α :=
  (parse s).bind (read maxDepth)

end Json

end Disclosure
