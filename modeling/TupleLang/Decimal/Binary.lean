/-!
# Binary floating point numbers

A finite double is `mantissa · 2 ^ exponent`. This module takes the bits of a double apart and puts
them together again: `nearest` is the double closest to a positive fraction, the even one of two
equally close ones.
-/

namespace TupleLang.Decimal

/-- Number of explicit mantissa bits of a double. -/
def fractionBits : Nat := 52

/-- The smallest binary exponent of a double. -/
def minExponent : Int := -1074

/-- The mantissa bit above the explicit ones, which is not stored. -/
def hiddenBit : Nat := 0x10000000000000

/-- The bit that makes a double negative. -/
def signWeight : Nat := 0x8000000000000000

/-- Bits of positive infinity. -/
def infinityBits : Nat := 0x7FF0000000000000

/-- Bits of the quiet not-a-number. -/
def nanBits : Nat := 0x7FF8000000000000

/-- The `n`-th power of ten. -/
def powerOfTen (n : Nat) : Nat := Nat.pow 10 n

/-- What the bits of a double say about its magnitude. -/
inductive Magnitude where
  | zero
  /-- The number `mantissa · 2 ^ exponent`, with a positive mantissa. -/
  | finite (mantissa : Nat) (exponent : Int)
  | infinite
  | notANumber
  deriving DecidableEq, Repr

/-- Whether the sign bit is set. -/
def signBit (bits : UInt64) : Bool := signWeight ≤ bits.toNat

/-- Take the bits of a double apart. -/
def magnitude (bits : UInt64) : Magnitude :=
  let fraction := bits.toNat % hiddenBit
  let biased : Nat := bits.toNat / hiddenBit % 2048
  if biased = 0x7FF then (if fraction = 0 then .infinite else .notANumber)
  else if biased = 0 then (if fraction = 0 then .zero else .finite fraction minExponent)
  -- numbers below the least normal one have no hidden bit
  else .finite (hiddenBit + fraction) ((biased : Int) + minExponent - 1)

/-- The greatest `e` with `2 ^ e ≤ num / den`, for positive `num` and `den`. -/
def floorLog2 (num den : Nat) : Int :=
  -- too great by at most one
  let guess : Int := (num.log2 : Int) - den.log2
  if den <<< guess.toNat ≤ num <<< (-guess).toNat then guess else guess - 1

/-- The integer nearest to `num / den`, the even one of two equally near ones. -/
def roundDiv (num den : Nat) : Nat :=
  let q := num / den
  let twice := 2 * (num % den)
  if twice < den then q
  else if den < twice then q + 1
  else if q % 2 = 0 then q
  else q + 1

/-- Bits of the double nearest to `num / den`; infinity when that is out of range. -/
def nearest (num den : Nat) : Nat :=
  if num = 0 then 0
  else
    let exponent := max minExponent (floorLog2 num den - fractionBits)
    let mantissa := roundDiv (num <<< (-exponent).toNat) (den <<< exponent.toNat)
    -- A mantissa rounded up to the next power of two carries into the exponent by itself.
    let bits := (exponent - minExponent).toNat * hiddenBit + mantissa
    if infinityBits ≤ bits then infinityBits else bits

/-- The double with the given sign and magnitude bits. -/
def ofSignBits (negative : Bool) (bits : Nat) : Float :=
  Float.ofBits (UInt64.ofNat (if negative then signWeight + bits else bits))

end TupleLang.Decimal
