/-
  Treewalk/Number.lean
  ====================
  **64-bit numbers**: the range that results of arithmetic must keep to, and
  the numerals that a program may hold.

  Arithmetic is exact: numbers are integers of any size, and a result outside
  the range is an error of the program, never a wrapped number.

  A numeral is a run of digits.  Zeros in front do not count; of the rest only
  as many digits are ever converted as the greatest number has.
-/

namespace Treewalk.Number

/-- The least number of the range: 2 to the power of 63, negated. -/
def least : Int := -9223372036854775808

/-- The greatest number of the range: 1 less than 2 to the power of 63. -/
def greatest : Int := 9223372036854775807

def InRange (v : Int) : Prop := least ≤ v ∧ v ≤ greatest

instance (v : Int) : Decidable (InRange v) := inferInstanceAs (Decidable (_ ∧ _))

/-! ### Numerals -/

/-- The digits that count: zeros in front are dropped, but one digit is kept. -/
def significant (digits : List Char) : List Char :=
  match digits.dropWhile (· == '0') with
  | [] => ['0']
  | rest => rest

/-- How many digits the greatest number has. -/
def digitLimit : Nat := (Nat.toDigits 10 greatest.toNat).length

/-- The value of a run of digits that is not longer than the greatest number. -/
def valueOf (digits : List Char) (_ : digits.length ≤ digitLimit) : Int :=
  Nat.ofDigitChars 10 digits 0

/-- The number that a run of digits stands for, if it is not above the greatest. -/
def ofNumeral? (digits : List Char) : Option Int :=
  if short : (significant digits).length ≤ digitLimit then
    let value := valueOf (significant digits) short
    if value ≤ greatest then some value else none
  else none

end Treewalk.Number
