/-
Numbers as a JSON text writes them. A numeral keeps what was written: the
sign, the whole part, the digits of the fraction and the exponent, if
they are there. An integer is a numeral without fraction and exponent;
minus zero is none, as it is written for the float.

Reading a numeral as a float is not exact rounding. The digits are taken
up as far as they fit 64 bits, the rest only count towards the exponent,
and the significand is then multiplied or divided once by a power of ten,
so that two roundings can add up.
-/
import SymbolicSearch.Binary.Single

namespace SymbolicSearch.Json

open Binary

/-- A number as it is written. -/
structure Numeral where
  negative : Bool
  whole : Nat
  fraction : Option (List Nat)
  exponent : Option Int
deriving DecidableEq

namespace Numeral

/-- The numeral of an integer. -/
def ofInt (i : Int) : Numeral := ⟨i < 0, i.natAbs, none, none⟩

def ofNat (n : Nat) : Numeral := ⟨false, n, none, none⟩

/-- It is written without fraction and exponent. -/
def isPlain (n : Numeral) : Bool := n.fraction.isNone && n.exponent.isNone

/-- The natural number below a bound that the numeral writes. -/
def nat? (bound : Nat) (n : Numeral) : Option Nat :=
  if n.isPlain && !n.negative && n.whole < bound then some n.whole else none

/-- The bound on the size of a signed 64-bit integer, which only a
negative one can reach. -/
def signBound : Nat := UInt64.size / 2

/-- The signed 64-bit integer that the numeral writes. -/
def int? (n : Numeral) : Option Int :=
  if !n.isPlain then none
  else if n.negative then
    if 0 < n.whole ∧ n.whole ≤ signBound then some (-n.whole) else none
  else if n.whole < signBound then some n.whole else none

-- ============================================== floats

/-- The bound on the digits taken up. -/
def wordBound : Nat := UInt64.size

/-- The longest run of leading digits below `wordBound`, and the number
of digits left out. -/
def clip (n : Nat) : Nat × Nat :=
  if n < wordBound then (n, 0)
  else
    let (m, k) := clip (n / 10)
    (m, k + 1)
termination_by n
decreasing_by
  have : wordBound ≤ n := Nat.le_of_not_lt ‹_›
  have : 0 < wordBound := by decide
  omega

/-- Takes up the digits of a fraction as far as they fit: the
significand, and by how much each digit lowers the exponent. -/
def takeFraction : Nat → List Nat → Nat × Nat
  | m, [] => (m, 0)
  | m, d :: rest =>
    if m * 10 + d < wordBound then
      let (m', k) := takeFraction (m * 10 + d) rest
      (m', k + 1)
    else (m, 0)

/-- The digits taken up, and the power of ten that goes with them. -/
def scaled (n : Numeral) : Nat × Int :=
  let (w, raised) := clip n.whole
  let (m, lowered) := takeFraction w (n.fraction.getD [])
  (m, raised - lowered + n.exponent.getD 0)

/-- The nearest double to a power of ten. -/
def tenTo (k : Nat) : Option Magnitude := double.ofNat (Nat.pow 10 k)

/-- The greatest power of ten that a double can come near. -/
def topTen : Nat := 308

/-- Divides by ten to the power `k`, at most `topTen` powers at a time. -/
def divTen (m : Magnitude) (k : Nat) : Option Magnitude :=
  if k ≤ topTen then do double.div m (← tenTo k)
  else if m.significand = 0 then some m
  else do
    let m' ← double.div m (← tenTo topTen)
    divTen m' (k - topTen)
termination_by k
decreasing_by
  have : 0 < topTen := by decide
  omega

/-- Multiplies by ten to the power `k`; none past the greatest double. -/
def mulTen (m : Magnitude) (k : Nat) : Option Magnitude :=
  if k ≤ topTen then do double.mul m (← tenTo k)
  else if m.significand = 0 then some m
  else none

/-- The double that the numeral is read as, without its sign; none if it
is too great. -/
def double? (n : Numeral) : Option Magnitude := do
  let (m, e) := n.scaled
  let f ← double.ofNat m
  if 0 ≤ e then mulTen f e.toNat else divTen f (-e).toNat

/-- The numeral can be read as some number. -/
def isReadable (n : Numeral) : Bool := n.double?.isSome

/-- The single-precision number that the numeral is read as. An integer
of 64 bits is rounded once, any other numeral is a double first. -/
def single? (n : Numeral) : Option Single :=
  if n.isPlain && !n.negative && n.whole < wordBound then some (Single.ofNat n.whole)
  else if n.isPlain && n.negative && 0 < n.whole && n.whole ≤ signBound then
    some (Single.ofNat n.whole).neg
  else do
    let m ← n.double?
    return Single.ofMagnitude n.negative (single.nearest m.significand 1 m.exponent)

end Numeral

end SymbolicSearch.Json
