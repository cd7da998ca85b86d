/-!
# White space

The characters with the Unicode property White_Space, and trimming by it.

## Main definitions

- `isBlank`: membership in the property (25 characters in ten ranges).
- `trim`: a text without the blanks at its two ends.
-/

namespace PiecewiseNet.Text

/-- The ranges of White_Space, ascending and apart, ends included. -/
def blankRanges : List (Nat × Nat) :=
  [(0x09, 0x0D), (0x20, 0x20), (0x85, 0x85), (0xA0, 0xA0), (0x1680, 0x1680), (0x2000, 0x200A),
   (0x2028, 0x2029), (0x202F, 0x202F), (0x205F, 0x205F), (0x3000, 0x3000)]

/-- A character is blank when a range of White_Space holds it. -/
def isBlank (c : Char) : Bool :=
  blankRanges.any fun r => r.1 ≤ c.toNat && c.toNat ≤ r.2

/-- Drops the blanks in front. -/
def trimFront (s : List Char) : List Char :=
  s.dropWhile isBlank

/-- Drops the blanks at the end. -/
def trimBack (s : List Char) : List Char :=
  (trimFront s.reverse).reverse

/-- Drops the blanks at both ends. -/
def trim (s : List Char) : List Char :=
  trimBack (trimFront s)

end PiecewiseNet.Text
