/-!
# Declarations and types

A declaration is named by its position in the program, a 32-bit number.  Types are the primitive
types, the types that the program declares, and arrays of them.
-/

namespace Disclosure

/-- The position of a declaration in its program. -/
structure DeclId where
  index : UInt32
  deriving DecidableEq, Repr

namespace DeclId

/-- The written form of an identifier: a number sign and the position. -/
def text (id : DeclId) : String := "#" ++ toString id.index.toNat

end DeclId

inductive Primitive where
  | boolean
  | byte
  | char
  | short
  | int
  | long
  | float
  | double
  deriving DecidableEq, Repr

namespace Primitive

def isNumber : Primitive → Bool
  | boolean => false
  | _ => true

def width : Primitive → Nat
  | boolean => 0
  | byte => 1
  | short => 2
  | char => 2
  | int => 3
  | long => 4
  | float => 5
  | double => 6

/-- Whether every value of the first type is converted to the second without a narrowing.
Nothing but `char` itself widens to `char`, and `char` widens from `int` on. -/
def widensTo (source target : Primitive) : Bool :=
  if source = target then true
  else if target = char then false
  else if source = char then decide (int.width ≤ target.width)
  else decide (source.width ≤ target.width)

end Primitive

inductive Ty where
  | primitive (kind : Primitive)
  | declared (id : DeclId)
  | array (element : Ty)
  | null
  | void
  deriving DecidableEq, Repr

namespace Ty

def declaration? : Ty → Option DeclId
  | declared id => some id
  | _ => none

def primitive? : Ty → Option Primitive
  | primitive kind => some kind
  | _ => none

end Ty

end Disclosure
