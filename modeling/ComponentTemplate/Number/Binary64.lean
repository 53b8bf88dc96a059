/-!
# Binary floating-point values

The value of a numeric literal is the binary64 number nearest to the decimal that is
written. Literals have no sign, so only the nonnegative numbers are needed. All arithmetic
is exact, on natural numbers.
-/

namespace ComponentTemplate

/-- **A nonnegative binary64 number**: `mantissa * 2 ^ exponent`, or infinity. In the numbers
that `Binary64.ofRatio` gives, the mantissa is below `2 ^ 53` and the exponent from `-1074`
to `971`, and the mantissa is below `2 ^ 52` only for the least exponent. -/
inductive Binary64 where
  | finite (mantissa : Nat) (exponent : Int)
  | infinite
  deriving DecidableEq, Repr, Inhabited

/-- The quotient of two natural numbers, rounded to the nearest natural number, and to the
even one of two that are equally near. -/
def roundDiv (num den : Nat) : Nat :=
  let quotient := num / den
  let twice := 2 * (num % den)
  if twice < den then quotient
  else if den < twice then quotient + 1
  else quotient + quotient % 2

namespace Binary64

/-- `num / den` scaled by `2 ^ (-exponent)`, as a numerator and a denominator. -/
def scale (num den : Nat) (exponent : Int) : Nat × Nat :=
  (num * Nat.pow 2 (-exponent).toNat, den * Nat.pow 2 exponent.toNat)

/-- The greatest power of two that is at most a positive fraction, as an exponent. -/
def floorLog2 (num den : Nat) : Int :=
  let guess : Int := (num.log2 : Int) - den.log2
  let (a, b) := scale num den guess
  if b ≤ a then guess else guess - 1

/-- **The binary64 number nearest to a fraction**, with ties to the even mantissa. -/
def ofRatio (num den : Nat) : Binary64 :=
  if num = 0 then .finite 0 (-1074)
  else
    let exponent := max (floorLog2 num den - 52) (-1074)
    let (a, b) := scale num den exponent
    let mantissa := roundDiv a b
    let (mantissa, exponent) :=
      if mantissa = Nat.pow 2 53 then (Nat.pow 2 52, exponent + 1) else (mantissa, exponent)
    if 971 < exponent then .infinite else .finite mantissa exponent

def ofDecimal (digits places : Nat) : Binary64 :=
  ofRatio digits (Nat.pow 10 places)

def digitsValue (cs : List Char) : Nat :=
  cs.foldl (fun n c => 10 * n + (c.toNat - '0'.toNat)) 0

/-- **The value of a numeric literal**: digits, and perhaps a point and more digits. -/
def ofLiteral (literal : List Char) : Binary64 :=
  let whole := literal.takeWhile Char.isDigit
  let fraction := (literal.dropWhile Char.isDigit).drop 1
  ofDecimal (digitsValue (whole ++ fraction)) fraction.length

/-- The sixty-four bits of the interchange format, as a natural number. They are in the
order of the values. -/
def toBits : Binary64 → Nat
  | .finite mantissa exponent =>
    if mantissa < Nat.pow 2 52 then mantissa
    else (exponent + 1075).toNat * Nat.pow 2 52 + (mantissa - Nat.pow 2 52)
  | .infinite => 0x7FF * Nat.pow 2 52

def toNat? : Binary64 → Option Nat
  | .finite mantissa exponent =>
    let unit := Nat.pow 2 (-exponent).toNat
    if mantissa % unit = 0 then some (mantissa / unit * Nat.pow 2 exponent.toNat) else none
  | .infinite => none

end Binary64

end ComponentTemplate
