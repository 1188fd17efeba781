namespace TypeCalculus

/-- A number in the 64-bit binary format, held as its bits: two zeros differ, and so do two NaNs
with different payloads. -/
structure Binary64 where
  bits : UInt64
deriving DecidableEq, Repr

namespace Binary64

/-- The value of the exponent field's lowest bit. -/
def exponentUnit : Nat := Nat.pow 2 52

/-- The value of the sign bit. -/
def signUnit : Nat := Nat.pow 2 63

def isNegative (x : Binary64) : Bool := signUnit ≤ x.bits.toNat

def exponentField (x : Binary64) : Nat := x.bits.toNat / exponentUnit % 2048

def fractionField (x : Binary64) : Nat := x.bits.toNat % exponentUnit

def isFinite (x : Binary64) : Bool := x.exponentField ≠ 2047

def isNaN (x : Binary64) : Bool := !x.isFinite && x.fractionField ≠ 0

/-- The integer significand; subnormal numbers lack the leading bit. -/
def significand (x : Binary64) : Nat :=
  if x.exponentField = 0 then x.fractionField else exponentUnit + x.fractionField

/-- A finite number is its significand times two to this power, in units. Subnormal numbers and the
smallest normal ones share the power zero. -/
def scale (x : Binary64) : Nat := x.exponentField - 1

/-- The absolute value of a finite number, in units. -/
def units (x : Binary64) : Nat := x.significand * Nat.pow 2 x.scale

def unitsPerOne : Nat := Nat.pow 2 1074

/-- The number as a natural number, if it is one. Negative zero counts as zero. -/
def toNat? (x : Binary64) : Option Nat :=
  if x.isFinite && (x.units = 0 || !x.isNegative) && x.units % unitsPerOne = 0 then
    some (x.units / unitsPerOne)
  else none

/-- Division rounded to the nearest whole number, a half to the even one. -/
def roundedDiv (n d : Nat) : Nat :=
  let floor := n / d
  let twice := 2 * (n % d)
  if d < twice || (twice = d && floor % 2 = 1) then floor + 1 else floor

/-- The bits of infinity, sign apart. -/
def infinityBits : Nat := 2047 * exponentUnit

/-- The number nearest to a quotient, ties to an even significand. A significand that rounds up to
`2 ^ 53` carries into the exponent field by itself, since that field lies right above it. -/
def ofRatio (negative : Bool) (n d : Nat) : Binary64 :=
  let whole := n * unitsPerOne
  let scale := (whole / d).log2 - 52
  let magnitude := scale * exponentUnit + roundedDiv whole (d * Nat.pow 2 scale)
  let sign := if negative then signUnit else 0
  ⟨(sign + min magnitude infinityBits).toUInt64⟩

def ofInt (n : Int) : Binary64 := ofRatio (n < 0) n.natAbs 1

end Binary64

end TypeCalculus
