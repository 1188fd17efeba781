import TypeCalculus.Binary64

namespace TypeCalculus

/-- The value `coefficient * 10 ^ exponent`, with a sign of its own so that zero can carry one. -/
structure Decimal where
  isNegative : Bool := false
  coefficient : Nat
  exponent : Int
deriving DecidableEq, Repr

namespace Decimal

/-- Moves trailing zeros of the coefficient into the exponent, as many as `room` allows. -/
def stripZeros : Nat → Nat → Int → Nat × Int
  | 0, c, k => (c, k)
  | room + 1, c, k => if c ≠ 0 ∧ c % 10 = 0 then stripZeros room (c / 10) (k + 1) else (c, k)

/-- The digits with the point in place, and no point when no digit follows it. -/
def positional (d : Decimal) : String :=
  let digits := Nat.toDigits 10 d.coefficient
  let sign := if d.isNegative then ['-'] else []
  match d.exponent with
  | .ofNat zeros => String.ofList (sign ++ digits ++ List.replicate zeros '0')
  | .negSucc below =>
    let places := below + 1
    let padded := List.replicate (places + 1 - digits.length) '0' ++ digits
    let whole := padded.length - places
    String.ofList (sign ++ padded.take whole ++ '.' :: padded.drop whole)

def ofDigits (digits : List Char) : Nat :=
  digits.foldl (fun n c => 10 * n + (c.toNat - '0'.toNat)) 0

/-- Splits off a leading sign. -/
def splitSign : List Char → Bool × List Char
  | '-' :: rest => (true, rest)
  | '+' :: rest => (false, rest)
  | rest => (false, rest)

/-- Reads what may follow the digits: nothing, or a mark, a sign and at least one digit. -/
def readExponent : List Char → Option Int
  | [] => some 0
  | mark :: rest =>
    let (negative, digits) := splitSign rest
    if (mark = 'e' ∨ mark = 'E') ∧ digits ≠ [] ∧ digits.all Char.isDigit then
      some (if negative then -(ofDigits digits : Int) else (ofDigits digits : Int))
    else none

/-- Reads a decimal. There must be a digit before or after the point. -/
def read? (text : String) : Option Decimal :=
  let (negative, body) := splitSign text.toList
  let whole := body.takeWhile Char.isDigit
  let (fraction, rest) := match body.dropWhile Char.isDigit with
    | '.' :: after => (after.takeWhile Char.isDigit, after.dropWhile Char.isDigit)
    | after => ([], after)
  if whole = [] ∧ fraction = [] then none
  else (readExponent rest).map fun exponent =>
    ⟨negative, ofDigits (whole ++ fraction), exponent - fraction.length⟩

/-- The nearest 64-bit number. Exponents are cut off where the value is infinite or zero anyway. -/
def round (d : Decimal) : Binary64 :=
  let digits := (Nat.toDigits 10 d.coefficient).length
  let exponent := max (min d.exponent 400) (-(400 + digits))
  Binary64.ofRatio d.isNegative (d.coefficient * Nat.pow 10 exponent.toNat)
    (Nat.pow 10 (-exponent).toNat)

end Decimal

namespace Binary64

/-- The decimals that read back as `x` lie between two bounds, which are half way to its neighbours
and belong to the range when the significand is even. All three are in quarters of a unit. -/
structure Range where
  low : Nat
  value : Nat
  high : Nat
  closed : Bool

/-- The neighbour below is only half as far away when the significand is a power of two. -/
def range (x : Binary64) : Range :=
  let m := x.significand
  let below := if m = exponentUnit ∧ 0 < x.scale then 1 else 2
  let width := Nat.pow 2 x.scale
  ⟨(4 * m - below) * width, 4 * m * width, (4 * m + 2) * width, m % 2 = 0⟩

def Range.holds (r : Range) (scaled unit : Nat) : Bool :=
  if r.closed then r.low * unit ≤ scaled && scaled ≤ r.high * unit
  else r.low * unit < scaled && scaled < r.high * unit

/-- Looks for the coarsest power of ten that has a multiple in the range, from `10 ^ k` downwards.
Of two multiples the nearer one wins, and the larger one when both are equally near. -/
def Range.coarsest (r : Range) : Nat → Int → Nat × Int
  | 0, k => (0, k)
  | room + 1, k =>
    let unit := Nat.pow 10 (-k).toNat
    let step := Nat.pow 10 k.toNat * (4 * unitsPerOne)
    let value := r.value * unit
    let c := value / step
    let excess := 2 * (value % step)
    match r.holds (c * step) unit, r.holds ((c + 1) * step) unit with
    | true, true => if step ≤ excess then (c + 1, k) else (c, k)
    | true, false => (c, k)
    | false, true => (c + 1, k)
    | false, false => r.coarsest room (k - 1)

/-- A power of ten above the value, close enough for the search to need few steps: a factor of ten
is a bit more than three binary places. -/
def Range.start (r : Range) : Int :=
  ((r.value.log2 : Int) - 1076) * 30103 / 100000 + 2

/-- The shortest decimal that reads back as a finite number. Seventeen digits always do. -/
def shortest (x : Binary64) : Decimal :=
  if x.significand = 0 then ⟨x.isNegative, 0, 0⟩
  else
    let (c, k) := x.range.coarsest 24 x.range.start
    let (c, k) := Decimal.stripZeros 24 c k
    ⟨x.isNegative, c, k⟩

def text (x : Binary64) : String :=
  if x.isFinite then x.shortest.positional
  else if x.isNaN then "NaN"
  else if x.isNegative then "-inf" else "inf"

end Binary64

end TypeCalculus
