/-
Rounding to the nearest value of a binary floating-point format, ties to
the even neighbour. A format is given by the width of its significand and
the range of its exponents; a magnitude is a whole number of units of a
power of two. The value to round is an exact quotient, so nothing is lost
before the one rounding step.
-/
namespace SymbolicSearch.Binary

/-- The magnitude `significand * 2 ^ exponent`. -/
structure Magnitude where
  significand : Nat
  exponent : Int
deriving DecidableEq

/-- A format with significands below `2 ^ width` and exponents from
`least` to `greatest`. -/
structure Format where
  width : Nat
  least : Int
  greatest : Int

def single : Format := ⟨24, -149, 104⟩

def double : Format := ⟨53, -1074, 971⟩

/-- A quotient to the nearest whole number, a half to the even one. -/
def roundDiv (num den : Nat) : Nat :=
  let q := num / den
  let twice := 2 * (num % den)
  if twice < den then q
  else if den < twice then q + 1
  else q + q % 2

/-- The greatest `k` with `2 ^ k` at most the quotient of two positive
numbers. -/
def log2Div (num den : Nat) : Int :=
  let k : Int := (num.log2 : Int) - den.log2
  if den <<< k.toNat ≤ num <<< (-k).toNat then k else k - 1

/-- The nearest value of the format to `num / den * 2 ^ shift`; none if
that is past the greatest finite value. The unit is chosen first, so that
the significand just fills the width or the exponent is the least one. -/
def Format.nearest (f : Format) (num den : Nat) (shift : Int) : Option Magnitude :=
  if num = 0 then some ⟨0, f.least⟩
  else
    let unit := max f.least (log2Div num den + shift - (f.width - 1))
    let down := unit - shift
    let m := roundDiv (num <<< (-down).toNat) (den <<< down.toNat)
    if f.greatest < unit ∨ (unit = f.greatest ∧ 1 <<< f.width ≤ m) then none
    else some ⟨m, unit⟩

/-- The nearest value to a whole number. -/
def Format.ofNat (f : Format) (n : Nat) : Option Magnitude := f.nearest n 1 0

/-- The nearest value to a product. -/
def Format.mul (f : Format) (a b : Magnitude) : Option Magnitude :=
  f.nearest (a.significand * b.significand) 1 (a.exponent + b.exponent)

/-- The nearest value to a quotient by a magnitude other than zero. -/
def Format.div (f : Format) (a b : Magnitude) : Option Magnitude :=
  f.nearest a.significand b.significand (a.exponent - b.exponent)

end SymbolicSearch.Binary
