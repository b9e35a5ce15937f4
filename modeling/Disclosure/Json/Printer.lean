import Disclosure.Json.Basic

/-!
# Written JSON

Two ways to write a value: `render` without blanks, `renderPretty` with a line for each member and
an indentation of two blanks.  Both write a value in front of the text that follows it.
-/

namespace Disclosure

namespace Json

def hexPair (n : Nat) : List Char := [Nat.digitChar (n / 16 % 16), Nat.digitChar (n % 16)]

/-- How a character is written inside a string: quotes, backslashes and control characters are
escaped. -/
def escapeChar (c : Char) : List Char :=
  if c = '"' then ['\\', '"']
  else if c = '\\' then ['\\', '\\']
  else if c = '\x08' then ['\\', 'b']
  else if c = '\t' then ['\\', 't']
  else if c = '\n' then ['\\', 'n']
  else if c = '\x0c' then ['\\', 'f']
  else if c = '\r' then ['\\', 'r']
  else if c.toNat < 32 then ['\\', 'u', '0', '0'] ++ hexPair c.toNat
  else [c]

def writeText (s : List Char) (rest : List Char) : List Char :=
  '"' :: (s.flatMap escapeChar ++ '"' :: rest)

/-- A string; one that is no text is written as an empty one. -/
def writeString (s : Option String) (rest : List Char) : List Char :=
  writeText (s.getD "").toList rest

def intDigits : Int → List Char
  | .ofNat n => Nat.toDigits 10 n
  | .negSucc n => '-' :: Nat.toDigits 10 (n + 1)

mutual

def write : Json → List Char → List Char
  | .null, rest => 'n' :: 'u' :: 'l' :: 'l' :: rest
  | .bool true, rest => 't' :: 'r' :: 'u' :: 'e' :: rest
  | .bool false, rest => 'f' :: 'a' :: 'l' :: 's' :: 'e' :: rest
  | .int n, rest => intDigits n ++ rest
  | .decimal d, rest => d.text ++ rest
  | .str s, rest => writeString s rest
  | .arr [], rest => '[' :: ']' :: rest
  | .arr (j :: items), rest => '[' :: j.write (writeItems items (']' :: rest))
  | .obj [], rest => '\x7b' :: '\x7d' :: rest
  | .obj ((k, j) :: members), rest =>
      '\x7b' :: writeString k (':' :: j.write (writeMembers members ('\x7d' :: rest)))

def writeItems : List Json → List Char → List Char
  | [], rest => rest
  | j :: items, rest => ',' :: j.write (writeItems items rest)

def writeMembers : List (Option String × Json) → List Char → List Char
  | [], rest => rest
  | (k, j) :: members, rest =>
      ',' :: writeString k (':' :: j.write (writeMembers members rest))

end

def render (j : Json) : String := String.ofList (j.write [])

def newLine (level : Nat) (rest : List Char) : List Char :=
  '\n' :: (List.replicate (2 * level) ' ' ++ rest)

mutual

/-- Writes a value that stands `level` steps inside, with a line for each item and member. -/
def writePretty : Nat → Json → List Char → List Char
  | level, .arr (j :: items), rest =>
      '[' :: newLine (level + 1) (writePretty (level + 1) j
        (writePrettyItems (level + 1) items (newLine level (']' :: rest))))
  | level, .obj ((k, j) :: members), rest =>
      '\x7b' :: newLine (level + 1) (writeString k (':' :: ' ' :: writePretty (level + 1) j
        (writePrettyMembers (level + 1) members (newLine level ('\x7d' :: rest)))))
  | _, j, rest => j.write rest

def writePrettyItems : Nat → List Json → List Char → List Char
  | _, [], rest => rest
  | level, j :: items, rest =>
      ',' :: newLine level (writePretty level j (writePrettyItems level items rest))

def writePrettyMembers : Nat → List (Option String × Json) → List Char → List Char
  | _, [], rest => rest
  | level, (k, j) :: members, rest =>
      ',' :: newLine level (writeString k (':' :: ' ' :: writePretty level j
        (writePrettyMembers level members rest)))

end

def renderPretty (j : Json) : String := String.ofList (writePretty 0 j [])

end Json

end Disclosure
