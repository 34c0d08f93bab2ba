/-
  Moo-code — cells.

  A cell is a 32-bit signed integer.  Its arithmetic is exact: a result that a
  cell cannot hold is no cell.

  * `Cell.ofInt? n`: the cell that holds `n`; `Cell.ofInt?_eq_some_iff` says that
    this is exact.
  * `Cell.succ? c`, `Cell.pred? c`: one more, one less.
  * `Cell.decimal c` and `Cell.ofDecimal? cs`: a cell as decimal text, and back.
  * `Cell.toChar? c` and `Cell.ofChar ch`: a cell as the character with that
    code point, and back.
-/
import MooCode.Text.Numeral

namespace MooCode

/-- A memory cell. -/
abbrev Cell := Int32

namespace Cell

/-- The cell that holds the integer `n`, if one can. -/
def ofInt? (n : Int) : Option Cell :=
  if -2147483648 ≤ n ∧ n ≤ 2147483647 then some (Int32.ofInt n) else none

/-- A cell holds one integer, and `ofInt?` finds the cell that holds it. -/
theorem ofInt?_eq_some_iff {n : Int} {c : Cell} : ofInt? n = some c ↔ c.toInt = n := by
  unfold ofInt?
  constructor
  · intro h
    split at h
    · cases h
      rw [Int32.toInt_ofInt]
      exact Int.bmod_eq_of_le (by simp [Int32.size]; omega) (by simp [Int32.size]; omega)
    · cases h
  · rintro rfl
    rw [if_pos ⟨c.le_toInt, by have := c.toInt_lt; omega⟩, Int32.ofInt_toInt]

/-- One more than `c`, unless `c` is the greatest cell. -/
def succ? (c : Cell) : Option Cell :=
  ofInt? (c.toInt + 1)

/-- One less than `c`, unless `c` is the least cell. -/
def pred? (c : Cell) : Option Cell :=
  ofInt? (c.toInt - 1)

/-- The decimal text of `c`. -/
def decimal (c : Cell) : List Char :=
  Text.Numeral.write c.toInt

/-- The cell that the text `cs` is a numeral of. -/
def ofDecimal? (cs : List Char) : Option Cell :=
  (Text.Numeral.integer? cs).bind ofInt?

/-- The character whose code point is `c`: none for a negative cell, a surrogate
    or a value past U+10FFFF. -/
def toChar? (c : Cell) : Option Char :=
  if 0 ≤ c.toInt ∧ c.toInt.toNat.isValidChar then some (Char.ofNat c.toInt.toNat) else none

/-- The code point of `ch`; every code point fits into a cell. -/
def ofChar (ch : Char) : Cell :=
  Int32.ofNat ch.toNat

end Cell

end MooCode
