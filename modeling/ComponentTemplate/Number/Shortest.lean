import ComponentTemplate.Number.Binary64

/-!
# The shortest decimal of a number

A binary64 number is written with the fewest decimal digits that read back as the same
number, and of these decimals with the one nearest to it.
-/

namespace ComponentTemplate

structure Decimal where
  digits : Nat
  exponent : Int
  deriving DecidableEq, Repr

/-- **The numbers that round to a binary64 number**: those from `low / den` to `high / den`,
where the number itself is `mid / den`. The two ends belong to it when `closed`. -/
structure RoundingInterval where
  low : Nat
  mid : Nat
  high : Nat
  den : Nat
  closed : Bool
  deriving DecidableEq, Repr

/-- The interval of the positive number `mantissa * 2 ^ exponent`. It reaches half way to
each neighbour; below a power of two the neighbour is only half as far. -/
def RoundingInterval.of (mantissa : Nat) (exponent : Int) : RoundingInterval :=
  let unit := Nat.pow 2 exponent.toNat
  let below := if mantissa = Nat.pow 2 52 ∧ -1074 < exponent then 1 else 2
  { low := (4 * mantissa - below) * unit
    mid := 4 * mantissa * unit
    high := (4 * mantissa + 2) * unit
    den := 4 * Nat.pow 2 (-exponent).toNat
    closed := mantissa % 2 = 0 }

namespace Decimal

def digitCount (n : Nat) : Nat :=
  (Nat.toDigits 10 n).length

def magnitude (num den : Nat) : Int :=
  if den ≤ num then digitCount (num / den)
  else 1 - (digitCount ((den - 1) / num) : Int)

def inside (interval : RoundingInterval) (d : Decimal) : Bool :=
  let up := Nat.pow 10 d.exponent.toNat
  let down := Nat.pow 10 (-d.exponent).toNat
  let value := d.digits * up * interval.den
  if interval.closed then interval.low * down ≤ value && value ≤ interval.high * down
  else interval.low * down < value && value < interval.high * down

/-- The decimal in an interval with a given unit in its last place, if there is one: of the
two decimals next to the middle the nearer one, and the greater one of two that are equally
near. -/
def withUnit? (interval : RoundingInterval) (exponent : Int) : Option Decimal :=
  let num := interval.mid * Nat.pow 10 (-exponent).toNat
  let den := interval.den * Nat.pow 10 exponent.toNat
  let lower : Decimal := ⟨num / den, exponent⟩
  let upper : Decimal := ⟨num / den + 1, exponent⟩
  let nearer := if 2 * (num % den) < den then lower else upper
  let farther := if 2 * (num % den) < den then upper else lower
  if inside interval nearer then some nearer
  else if inside interval farther then some farther
  else none

def stripZeros (d : Decimal) : Decimal :=
  if h : d.digits % 10 = 0 ∧ d.digits ≠ 0 then stripZeros ⟨d.digits / 10, d.exponent + 1⟩ else d
termination_by d.digits
decreasing_by omega

/-- **The shortest decimal** that reads back as the positive number
`mantissa * 2 ^ exponent`. Seventeen digits always suffice. -/
def shortest (mantissa : Nat) (exponent : Int) : Decimal :=
  let interval := RoundingInterval.of mantissa exponent
  let top := magnitude interval.mid interval.den
  -- one digit first, then two, and so on
  let found := (List.range 17).findSome? fun (n : Nat) => withUnit? interval (top - (n + 1))
  stripZeros (found.getD ⟨interval.mid / interval.den, 0⟩)

end Decimal

end ComponentTemplate
