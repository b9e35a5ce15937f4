import Disclosure.Json.Basic

/-!
# Reading JSON

A text is read strictly: one value, with blanks around the signs only, no control characters
inside strings, and nothing after the value but blanks.  How deep the value is nested does not
matter here.

Each function takes the characters that are left and gives what it read and what is left then.
-/

namespace Disclosure

namespace Json

def isSpace (c : Char) : Bool := c = ' ' || c = '\t' || c = '\n' || c = '\r'

def skipSpace : List Char → List Char
  | [] => []
  | c :: rest => if isSpace c then skipSpace rest else c :: rest

def skipWord : List Char → List Char → Option (List Char)
  | [], rest => some rest
  | _ :: _, [] => none
  | w :: word, c :: rest => if w = c then skipWord word rest else none

/-- A part of a string: a character, or a 16-bit unit that is written as an escape. -/
inductive Piece where
  | char (c : Char)
  | unit (n : Nat)

def hexDigit? (c : Char) : Option Nat :=
  if '0' ≤ c ∧ c ≤ '9' then some (c.toNat - '0'.toNat)
  else if 'a' ≤ c ∧ c ≤ 'f' then some (c.toNat - 'a'.toNat + 10)
  else if 'A' ≤ c ∧ c ≤ 'F' then some (c.toNat - 'A'.toNat + 10)
  else none

def hexUnit? (a b c d : Char) : Option Nat := do
  let a ← hexDigit? a
  let b ← hexDigit? b
  let c ← hexDigit? c
  let d ← hexDigit? d
  return ((a * 16 + b) * 16 + c) * 16 + d

def escaped? : Char → Option Char
  | '"' => some '"'
  | '\\' => some '\\'
  | '/' => some '/'
  | 'b' => some '\x08'
  | 'f' => some '\x0c'
  | 'n' => some '\n'
  | 'r' => some '\r'
  | 't' => some '\t'
  | _ => none

/-- Reads the rest of a string after its first quote. -/
def readPieces : List Char → Option (List Piece × List Char)
  | [] => none
  | '"' :: rest => some ([], rest)
  | '\\' :: 'u' :: a :: b :: c :: d :: rest => do
      let n ← hexUnit? a b c d
      let (pieces, rest) ← readPieces rest
      return (.unit n :: pieces, rest)
  | '\\' :: e :: rest => do
      let c ← escaped? e
      let (pieces, rest) ← readPieces rest
      return (.char c :: pieces, rest)
  | c :: rest =>
      if c = '\\' ∨ c.toNat < 32 then none
      else do
        let (pieces, rest) ← readPieces rest
        return (.char c :: pieces, rest)

def isHighSurrogate (n : Nat) : Bool := decide (0xD800 ≤ n) && decide (n < 0xDC00)

def isLowSurrogate (n : Nat) : Bool := decide (0xDC00 ≤ n) && decide (n < 0xE000)

/-- The text of the pieces of a string, if every surrogate has its partner. -/
def assemble : List Piece → Option (List Char)
  | [] => some []
  | .char c :: rest => (assemble rest).map (c :: ·)
  | .unit n :: .unit m :: rest =>
      if isHighSurrogate n && isLowSurrogate m then
        (assemble rest).map (Char.ofNat ((n - 0xD800) * 0x400 + (m - 0xDC00) + 0x10000) :: ·)
      else if isHighSurrogate n || isLowSurrogate n then none
      else (assemble (.unit m :: rest)).map (Char.ofNat n :: ·)
  | .unit n :: rest =>
      if isHighSurrogate n || isLowSurrogate n then none
      else (assemble rest).map (Char.ofNat n :: ·)

def readString (cs : List Char) : Option (Option String × List Char) := do
  let (pieces, rest) ← readPieces cs
  return ((assemble pieces).map String.ofList, rest)

def digitsValue (ds : List Char) : Nat := ds.foldl (fun n d => n * 10 + (d.toNat - '0'.toNat)) 0

def readDigits (cs : List Char) : Option (List Char × List Char) :=
  match cs.span Char.isDigit with
  | ([], _) => none
  | (ds, rest) => some (ds, rest)

/-- Reads the integer part of a number: one digit, or more that do not start with zero. -/
def readWhole (cs : List Char) : Option (List Char × List Char) :=
  match readDigits cs with
  | some ('0' :: _ :: _, _) => none
  | r => r

def readFraction : List Char → Option (Option (List Char) × List Char)
  | '.' :: rest => (readDigits rest).map fun (ds, rest) => (some ds, rest)
  | cs => some (none, cs)

def readPower (negative : Bool) (cs : List Char) : Option (Option Int × List Char) :=
  (readDigits cs).map fun (ds, rest) =>
    (some (if negative then -Int.ofNat (digitsValue ds) else Int.ofNat (digitsValue ds)), rest)

def readSignedPower : List Char → Option (Option Int × List Char)
  | '-' :: rest => readPower true rest
  | '+' :: rest => readPower false rest
  | cs => readPower false cs

def readExponent : List Char → Option (Option Int × List Char)
  | 'e' :: rest => readSignedPower rest
  | 'E' :: rest => readSignedPower rest
  | cs => some (none, cs)

def number (negative : Bool) (whole : List Char) : Option (List Char) → Option Int → Json
  | none, none =>
      let n := digitsValue whole
      if !negative then .int (Int.ofNat n)
      else if n = 0 then .decimal ⟨true, 0, 0⟩
      else .int (-Int.ofNat n)
  | fraction, exponent =>
      let places := fraction.getD []
      .decimal ⟨negative, digitsValue (whole ++ places), exponent.getD 0 - places.length⟩

def readUnsigned (negative : Bool) (cs : List Char) : Option (Json × List Char) := do
  let (whole, cs) ← readWhole cs
  let (fraction, cs) ← readFraction cs
  let (exponent, cs) ← readExponent cs
  return (number negative whole fraction exponent, cs)

def readNumber : List Char → Option (Json × List Char)
  | '-' :: rest => readUnsigned true rest
  | cs => readUnsigned false cs

mutual

/-- Reads a value, in at most `fuel` steps. -/
def readValue : Nat → List Char → Option (Json × List Char)
  | 0, _ => none
  | fuel + 1, cs =>
      match skipSpace cs with
      | '"' :: rest => (readString rest).map fun (s, rest) => (.str s, rest)
      | '[' :: rest =>
          match skipSpace rest with
          | ']' :: rest => some (.arr [], rest)
          | rest => (readItems fuel rest).map fun (items, rest) => (.arr items, rest)
      | '\x7b' :: rest =>
          match skipSpace rest with
          | '\x7d' :: rest => some (.obj [], rest)
          | rest => (readMembers fuel rest).map fun (members, rest) => (.obj members, rest)
      | 'n' :: rest => (skipWord ['u', 'l', 'l'] rest).map fun rest => (.null, rest)
      | 't' :: rest => (skipWord ['r', 'u', 'e'] rest).map fun rest => (.bool true, rest)
      | 'f' :: rest => (skipWord ['a', 'l', 's', 'e'] rest).map fun rest => (.bool false, rest)
      | rest => readNumber rest

def readItems : Nat → List Char → Option (List Json × List Char)
  | 0, _ => none
  | fuel + 1, cs => do
      let (j, cs) ← readValue fuel cs
      match skipSpace cs with
      | ',' :: rest => do
          let (items, rest) ← readItems fuel rest
          return (j :: items, rest)
      | ']' :: rest => return ([j], rest)
      | _ => none

def readMembers : Nat → List Char → Option (List (Option String × Json) × List Char)
  | 0, _ => none
  | fuel + 1, cs =>
      match skipSpace cs with
      | '"' :: rest => do
          let (k, cs) ← readString rest
          match skipSpace cs with
          | ':' :: rest => do
              let (j, cs) ← readValue fuel rest
              match skipSpace cs with
              | ',' :: rest => do
                  let (members, rest) ← readMembers fuel rest
                  return ((k, j) :: members, rest)
              | '\x7d' :: rest => return ([(k, j)], rest)
              | _ => none
          | _ => none
      | _ => none

end

/-- The value that a text is, if it is one.  A sign is read at the latest in every second step. -/
def parse (s : String) : Option Json :=
  let cs := s.toList
  match readValue (2 * cs.length + 2) cs with
  | some (j, rest) => if (skipSpace rest).isEmpty then some j else none
  | none => none

end Json

end Disclosure
