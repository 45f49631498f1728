/-!
# Blank characters

The blank characters are the twenty-five characters of the Unicode property White_Space. `trim` removes
them from both ends of a text.
-/

namespace FourValued.Text

/-- First and last code points of the runs of White_Space. -/
def blankRanges : List (Nat × Nat) :=
  [(0x09, 0x0D), (0x20, 0x20), (0x85, 0x85), (0xA0, 0xA0), (0x1680, 0x1680), (0x2000, 0x200A),
    (0x2028, 0x2029), (0x202F, 0x202F), (0x205F, 0x205F), (0x3000, 0x3000)]

def isBlank (c : Char) : Bool := blankRanges.any fun r => r.1 ≤ c.toNat && c.toNat ≤ r.2

def trim (s : String) : String :=
  let rest := s.toList.dropWhile isBlank
  String.ofList (rest.reverse.dropWhile isBlank).reverse

end FourValued.Text
