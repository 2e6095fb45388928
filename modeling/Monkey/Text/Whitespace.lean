/-!
The characters that Unicode counts as white space.
-/

namespace Monkey.Text

/-- Ranges of code points, both ends included. -/
def whitespaceRanges : List (Nat × Nat) :=
  [(0x09, 0x0d), (0x20, 0x20), (0x85, 0x85), (0xa0, 0xa0), (0x1680, 0x1680), (0x2000, 0x200a),
    (0x2028, 0x2029), (0x202f, 0x202f), (0x205f, 0x205f), (0x3000, 0x3000)]

def isWhitespace (c : Char) : Bool :=
  whitespaceRanges.any fun r => r.1 ≤ c.toNat && c.toNat ≤ r.2

/-- Nothing but white space. -/
def isBlankLine (line : String) : Bool := line.toList.all isWhitespace

end Monkey.Text
