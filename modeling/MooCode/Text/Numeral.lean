/-
  Moo-code — decimal numerals.

  * `digits n`: the decimal digits of a natural number, the first one not zero
    unless the number is, and `text n`: the same as a string.
  * `write n`: an integer as text, with a sign only if it is negative.
  * `natural? cs`, `integer? cs`: the exact value of a numeral of any length;
    an integer may carry one sign.
-/
namespace MooCode.Text.Numeral

/-- The decimal digits of `n`. -/
def digits (n : Nat) : List Char :=
  Nat.toDigits 10 n

/-- The number `n` as it stands in a text. -/
def text (n : Nat) : String :=
  String.ofList (digits n)

/-- The integer `n` in decimal, with a sign only if it is negative. -/
def write : Int → List Char
  | .ofNat n => digits n
  | .negSucc n => '-' :: digits (n + 1)

/-- The value of a list of decimal digits, the most significant one first. -/
def value (ds : List Char) : Nat :=
  ds.foldl (fun n d => 10 * n + (d.toNat - '0'.toNat)) 0

/-- The value of a text that is one or more ASCII digits. -/
def natural? (cs : List Char) : Option Nat :=
  if cs ≠ [] ∧ cs.all Char.isDigit then some (value cs) else none

/-- The value of a text that is one or more ASCII digits, with at most one sign
    before them. -/
def integer? : List Char → Option Int
  | '+' :: ds => (natural? ds).map Int.ofNat
  | '-' :: ds => (natural? ds).map fun n => -Int.ofNat n
  | ds => (natural? ds).map Int.ofNat

end MooCode.Text.Numeral
