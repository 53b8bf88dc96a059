import ComponentTemplate.Number.Shortest

/-!
# How numbers are written

Two notations are in use. Formatted text writes numbers in positional notation throughout.
The dump of a tree always shows a point or an exponent.
-/

namespace ComponentTemplate

def natText (n : Nat) : List Char :=
  Nat.toDigits 10 n

/-- **Positional notation**: the digits around a point, filled up with zeros, and no point
when nothing follows it. -/
def Decimal.positional (d : Decimal) : List Char :=
  let digits := natText d.digits
  if 0 ≤ d.exponent then digits ++ List.replicate d.exponent.toNat '0'
  else
    let places := (-d.exponent).toNat
    if places < digits.length then
      digits.take (digits.length - places) ++ '.' :: digits.drop (digits.length - places)
    else '0' :: '.' :: (List.replicate (places - digits.length) '0' ++ digits)

/-- **Scientific notation**: one digit, the others after a point, and the exponent of the
first digit. -/
def Decimal.scientific (d : Decimal) : List Char :=
  let digits := natText d.digits
  let exponent := d.exponent + (digits.length - 1 : Nat)
  let sign := if exponent < 0 then ['-'] else []
  let fraction := if digits.length = 1 then [] else '.' :: digits.drop 1
  digits.take 1 ++ fraction ++ 'e' :: (sign ++ natText exponent.natAbs)

namespace Binary64

def positional : Binary64 → List Char
  | .finite mantissa exponent =>
    if mantissa = 0 then ['0'] else (Decimal.shortest mantissa exponent).positional
  | .infinite => "inf".toList

/-- **A number in formatted text**: whole numbers below `10 ^ 15` in full, all others by
their shortest decimal, in positional notation. -/
def text (value : Binary64) : List Char :=
  match value.toNat? with
  | some n => if n < Nat.pow 10 15 then natText n else value.positional
  | none => value.positional

/-- **A number in the dump of a tree**: its shortest decimal, with a point even for whole
numbers. Positive numbers below `10 ^ (-4)` and numbers from `10 ^ 16` on are in scientific
notation. -/
def dumpText (value : Binary64) : List Char :=
  match value with
  | .infinite => "inf".toList
  | .finite mantissa exponent =>
    if mantissa = 0 then "0.0".toList
    else if value.toBits < (ofDecimal 1 4).toBits ∨
        (ofDecimal (Nat.pow 10 16) 0).toBits ≤ value.toBits
    then (Decimal.shortest mantissa exponent).scientific
    else
      let digits := value.positional
      if '.' ∈ digits then digits else digits ++ ".0".toList

end Binary64

end ComponentTemplate
