/-!
# Blank characters

The characters that separate tokens are those with Unicode's White_Space property. The control
characters U+001C to U+001F, the Mongolian vowel separator, the zero width space and the byte order
mark are not among them.
-/

namespace FlipLoop.Text

/-- The code points of White_Space, as closed ranges in ascending order. -/
def blankRanges : List (Nat × Nat) :=
  [(0x0009, 0x000D), (0x0020, 0x0020), (0x0085, 0x0085), (0x00A0, 0x00A0), (0x1680, 0x1680),
    (0x2000, 0x200A), (0x2028, 0x2029), (0x202F, 0x202F), (0x205F, 0x205F), (0x3000, 0x3000)]

def isBlank (c : Char) : Bool :=
  blankRanges.any fun (low, high) => decide (low ≤ c.toNat) && decide (c.toNat ≤ high)

end FlipLoop.Text
