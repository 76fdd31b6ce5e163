/-
Single-precision numbers by their bits: one for the sign, eight for the
exponent, twenty-three for the fraction. Every finite one is a whole
number of units of `2 ^ -149`, so a sum is an exact sum of whole numbers
that is rounded once, and an order is an order of whole numbers.
-/
import SymbolicSearch.Binary.Format

namespace SymbolicSearch.Binary

/-- A single-precision number, by its bits. -/
structure Single where
  bits : UInt32
deriving DecidableEq

namespace Single

instance : Inhabited Single := ⟨⟨0⟩⟩

/-- The fraction is below it. -/
def fractionBound : Nat := 0x800000

/-- The bit that makes a number negative. -/
def signBit : Nat := 0x80000000

/-- The bits without the sign. -/
def unsigned (x : Single) : Nat := x.bits.toNat % signBit

def isNegative (x : Single) : Bool := signBit ≤ x.bits.toNat

/-- The unsigned bits of infinity; a greater pattern is not a number. -/
def infinityBits : Nat := 255 * fractionBound

def isNaN (x : Single) : Bool := infinityBits < x.unsigned

def isFinite (x : Single) : Bool := x.unsigned < infinityBits

/-- A number from its sign and its bits without the sign. -/
def ofParts (negative : Bool) (unsigned : Nat) : Single :=
  ⟨UInt32.ofNat ((if negative then signBit else 0) + unsigned)⟩

def nan : Single := ofParts false (infinityBits + fractionBound / 2)

def infinity (negative : Bool) : Single := ofParts negative infinityBits

def zero : Single := ofParts false 0

def one : Single := ofParts false (127 * fractionBound)

/-- The number from a rounded magnitude. A significand that has filled up
to the next power of two carries into the exponent by itself. -/
def ofMagnitude (negative : Bool) : Option Magnitude → Single
  | none => infinity negative
  | some m =>
    if m.significand = 0 then ofParts negative 0
    else ofParts negative ((m.exponent + 149).toNat * fractionBound + m.significand)

/-- The magnitude of a finite number in units of `2 ^ -149`. -/
def units (x : Single) : Nat :=
  let e := x.unsigned / fractionBound
  let f := x.unsigned % fractionBound
  if e = 0 then f else (fractionBound + f) <<< (e - 1)

/-- A finite number in units of `2 ^ -149`. -/
def signedUnits (x : Single) : Int := if x.isNegative then -x.units else x.units

/-- The nearest number to a whole number. -/
def ofNat (n : Nat) : Single := ofMagnitude false (single.ofNat n)

def ofBool (b : Bool) : Single := if b then one else zero

def neg (x : Single) : Single := ofParts (!x.isNegative) x.unsigned

/-- The nearest number to a sum. A sum of zero is negative only if both
terms are; opposite infinities have no sum. -/
def add (x y : Single) : Single :=
  if x.isNaN || y.isNaN then nan
  else if !x.isFinite then
    if !y.isFinite && x.isNegative != y.isNegative then nan else x
  else if !y.isFinite then y
  else
    let s := x.signedUnits + y.signedUnits
    if s = 0 then ofParts (x.isNegative && y.isNegative) 0
    else ofMagnitude (s < 0) (single.nearest s.natAbs 1 (-149))

/-- The sum of a list, from left to right. -/
def sum (l : List Single) : Single := l.foldl add zero

/-- A whole number that orders the numbers. Both zeros have the same;
for what is not a number it says nothing. -/
def rank (x : Single) : Int := if x.isNegative then -x.unsigned else x.unsigned

end Single

end SymbolicSearch.Binary
