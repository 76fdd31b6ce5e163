/-
Counts as a person may type them: blanks around are dropped, one plus
sign may stand in front, then come decimal digits and nothing else.
-/
import SymbolicSearch.Text.Blank

namespace SymbolicSearch.Text

/-- The characters after a plus sign, if there is one. -/
def dropPlus : List Char → List Char
  | '+' :: rest => rest
  | l => l

/-- The count below a bound that a text writes. -/
def count? (bound : Nat) (text : List Char) : Option Nat :=
  let digits := dropPlus (trim text)
  if digits ≠ [] ∧ digits.all Char.isDigit ∧ Nat.ofDigitChars 10 digits 0 < bound then
    some (Nat.ofDigitChars 10 digits 0)
  else none

end SymbolicSearch.Text
