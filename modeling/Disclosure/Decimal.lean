/-!
# Decimal numbers

A decimal number is kept by its digits and a power of ten, so that what is read is what is
written.  Zero has a sign.
-/

namespace Disclosure

/-- The number `± digits · 10 ^ exponent`. -/
structure Decimal where
  negative : Bool
  digits : Nat
  exponent : Int
  deriving DecidableEq, Repr

namespace Decimal

def ofInt (n : Int) : Decimal := ⟨decide (n < 0), n.natAbs, 0⟩

/-- The digits without their last zeros, at most `fuel` of them, and the power of ten that goes
with them. -/
def stripZeros : Nat → Nat → Int → Nat × Int
  | 0, digits, exponent => (digits, exponent)
  | fuel + 1, digits, exponent =>
      if digits % 10 = 0 then stripZeros fuel (digits / 10) (exponent + 1) else (digits, exponent)

def digitCount (n : Nat) : Nat := (Nat.toDigits 10 n).length

/-- The form of a number without last zeros; zero is written without a power of ten. -/
def normalize (d : Decimal) : Decimal :=
  if d.digits = 0 then ⟨d.negative, 0, 0⟩
  else
    let (digits, exponent) := stripZeros (digitCount d.digits) d.digits d.exponent
    ⟨d.negative, digits, exponent⟩

/-- The least magnitude that rounds to no finite binary number of 64 bits. -/
def overflowBound : Nat := Nat.pow 2 1024 - Nat.pow 2 970

/-- Whether the magnitude rounds to a finite binary number of 64 bits.  The number of places
before the point decides all but the border. -/
def isFinite (d : Decimal) : Bool :=
  let places : Int := digitCount d.digits + d.exponent
  if d.digits = 0 ∨ places ≤ 308 then true
  else if 310 ≤ places then false
  else if 0 ≤ d.exponent then decide (d.digits * Nat.pow 10 d.exponent.toNat < overflowBound)
  else decide (d.digits < overflowBound * Nat.pow 10 (-d.exponent).toNat)

def fraction (digits : Nat) (places : Nat) : List Char :=
  let shown := Nat.toDigits 10 digits
  List.replicate (places - shown.length) '0' ++ shown

/-- The written form, always with a point or a power of ten: positional while it is short. -/
def text (d : Decimal) : List Char :=
  let n := d.normalize
  let sign := if n.negative then ['-'] else []
  let places : Int := digitCount n.digits + n.exponent
  if places ≤ 16 ∧ -5 < places then
    if 0 ≤ n.exponent then
      sign ++ Nat.toDigits 10 (n.digits * Nat.pow 10 n.exponent.toNat) ++ ['.', '0']
    else
      let after := (-n.exponent).toNat
      let whole := n.digits / Nat.pow 10 after
      sign ++ Nat.toDigits 10 whole ++ '.' :: fraction (n.digits % Nat.pow 10 after) after
  else
    sign ++ Nat.toDigits 10 n.digits ++ 'e' :: (toString n.exponent).toList

end Decimal

end Disclosure
