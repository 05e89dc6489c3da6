import TupleLang.Action
import TupleLang.Decimal.Binary

/-!
# Doubles

Order, extremes and conversions of floating point numbers.
-/

namespace TupleLang.Double

/-- Place of a double in the total order of doubles: negative ones by falling magnitude, then
positive ones by rising magnitude, with the two zeros apart. -/
def rank (x : Float) : Int :=
  let bits := x.toBits.toNat
  if Decimal.signBit x.toBits then (Decimal.signWeight : Int) - 1 - bits else bits

/-- The total order of doubles. -/
def compare (a b : Float) : Ordering := Ord.compare (rank a) (rank b)

/-- The smaller of two doubles; not-a-number yields to any number. -/
def min (a b : Float) : Float :=
  if a.isNaN then b else if b.isNaN then a else if a ≤ b then a else b

/-- The greater of two doubles; not-a-number yields to any number. -/
def max (a b : Float) : Float :=
  if a.isNaN then b else if b.isNaN then a else if a ≤ b then b else a

/-- Truncation to 32 bits of a double that is in range. -/
def toInt (x : Float) : Except Condition Int32 :=
  if x.isFinite && (-2147483648.0 : Float) ≤ x && x ≤ (2147483647.0 : Float) then .ok x.toInt32
  else .error .integerOverflow

/-- Truncation to 64 bits of a double that is in range. -/
def toLong (x : Float) : Except Condition Int64 :=
  -- the greatest word is no double, but the number above it is
  if x.isFinite && (-9223372036854775808.0 : Float) ≤ x && x < (9223372036854775808.0 : Float) then
    .ok x.toInt64
  else .error .integerOverflow

end TupleLang.Double
