/-!
# Blank characters

The characters with the Unicode property `White_Space`, by their code points.
-/

namespace Disclosure

namespace Text

/-- The ranges of code points of blank characters, both ends included, in ascending order. -/
def blankRanges : List (Nat × Nat) :=
  [(0x9, 0xD), (0x20, 0x20), (0x85, 0x85), (0xA0, 0xA0), (0x1680, 0x1680), (0x2000, 0x200A),
    (0x2028, 0x2029), (0x202F, 0x202F), (0x205F, 0x205F), (0x3000, 0x3000)]

def isBlankChar (c : Char) : Bool :=
  blankRanges.any fun r => decide (r.1 ≤ c.toNat) && decide (c.toNat ≤ r.2)

def isBlank (s : String) : Bool := s.toList.all isBlankChar

end Text

end Disclosure
