/-
  Moo-code — blank characters.

  * `isBlank`: the characters with the Unicode property `White_Space`.
  * `trim`: a text without the blanks at its two ends.
-/
namespace MooCode.Text

/-- The ranges of the Unicode property `White_Space`, in ascending order. -/
def blankRanges : List (Nat × Nat) :=
  [(0x09, 0x0D), (0x20, 0x20), (0x85, 0x85), (0xA0, 0xA0), (0x1680, 0x1680), (0x2000, 0x200A),
    (0x2028, 0x2029), (0x202F, 0x202F), (0x205F, 0x205F), (0x3000, 0x3000)]

/-- Whether `c` is blank. -/
def isBlank (c : Char) : Bool :=
  blankRanges.any fun r => decide (r.1 ≤ c.toNat ∧ c.toNat ≤ r.2)

/-- The text `cs` without the blanks at its end. -/
def trimEnd (cs : List Char) : List Char :=
  (cs.reverse.dropWhile isBlank).reverse

/-- The text `cs` without the blanks at its two ends; blanks inside it stay. -/
def trim (cs : List Char) : List Char :=
  trimEnd (cs.dropWhile isBlank)

end MooCode.Text
