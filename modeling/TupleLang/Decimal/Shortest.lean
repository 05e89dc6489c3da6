import TupleLang.Decimal.Binary

/-!
# Shortest decimal text of a double

The text of a double has the fewest decimal digits that read back as the same double, and of these
the ones nearest to it. Magnitudes from `10⁻⁴` up to `10¹⁶` are written out with at least one
digit behind the point, all others with an exponent.
-/

namespace TupleLang.Decimal

/-- The decimal number `digits · 10 ^ exponent`. -/
structure Scientific where
  digits : Nat
  exponent : Int
  deriving DecidableEq, Repr

/-- The reals that round to `mantissa · 2 ^ exponent`, as bounds in units of
`2 ^ (exponent - 2)`; the bounds belong to it when the mantissa is even. Below a power of two the
neighbouring double is only half as far away. -/
structure Interval where
  lower : Nat
  middle : Nat
  upper : Nat
  closed : Bool
  deriving Repr

/-- The rounding interval of a finite double. -/
def Interval.ofFinite (mantissa : Nat) (exponent : Int) : Interval :=
  let narrow := mantissa = hiddenBit ∧ minExponent < exponent
  { lower := 4 * mantissa - (if narrow then 1 else 2)
    middle := 4 * mantissa
    upper := 4 * mantissa + 2
    closed := mantissa % 2 = 0 }

/-- The greatest `e` with `10 ^ e ≤ num / den`, for positive `num` and `den`. -/
def floorLog10 (num den : Nat) : Int :=
  if den ≤ num then ((Nat.toDigits 10 (num / den)).length : Int) - 1
  else -((Nat.toDigits 10 ((den - 1) / num)).length : Int)

/-- Whether `point` lies in the interval, all of them in one unit. -/
def Interval.covers (lower upper point : Nat) (closed : Bool) : Bool :=
  if closed then lower ≤ point && point ≤ upper else lower < point && point < upper

/-- The point of the grid of multiples of `10 ^ p` that lies in the interval and is nearest to its
middle; `unit` is the fraction `num / den` in which the bounds are given. -/
def Interval.onGrid? (i : Interval) (num den : Nat) (p : Int) : Option Scientific :=
  let scale := den * powerOfTen p.toNat
  let bound (b : Nat) := b * num * powerOfTen (-p).toNat
  let below := bound i.middle / scale
  let hit (c : Nat) := Interval.covers (bound i.lower) (bound i.upper) (c * scale) i.closed
  -- between two points equally near the greater one is taken
  let belowIsNearer := 2 * bound i.middle < (2 * below + 1) * scale
  match hit below, hit (below + 1) with
  | true, true => some ⟨if belowIsNearer then below else below + 1, p⟩
  | true, false => some ⟨below, p⟩
  | false, true => some ⟨below + 1, p⟩
  | false, false => none

/-- The shortest decimal that rounds to `mantissa · 2 ^ exponent`: the first of the grids with
one, two, … seventeen digits that has a point in the rounding interval. -/
def shortest (mantissa : Nat) (exponent : Int) : Scientific :=
  let interval := Interval.ofFinite mantissa exponent
  -- the unit of the bounds is a quarter of the last place
  let num := 1 <<< (exponent - 2).toNat
  let den := 1 <<< (2 - exponent).toNat
  let lead := floorLog10 (interval.middle * num) den
  ((List.range 17).findSome? fun (n : Nat) => interval.onGrid? num den (lead - n)).getD ⟨0, 0⟩

/-- The digits of a positive decimal without its trailing zeros, and the power of ten of the
first digit. -/
def Scientific.significant (s : Scientific) : List Char × Int :=
  let digits := Nat.toDigits 10 s.digits
  ((digits.reverse.dropWhile (· == '0')).reverse, s.exponent + digits.length - 1)

/-- Digits with the point behind the place of power `lead` counted from the first digit. -/
def positional (digits : List Char) (lead : Int) : List Char :=
  if lead < 0 then '0' :: '.' :: List.replicate (-lead - 1).toNat '0' ++ digits
  else
    let whole := lead.toNat + 1
    let fraction := digits.drop whole
    digits.take whole ++ List.replicate (whole - digits.length) '0'
      ++ '.' :: (if fraction.isEmpty then ['0'] else fraction)

/-- One digit before the point, the others behind it, and the power of ten. -/
def exponential (digits : List Char) (lead : Int) : List Char :=
  let fraction := digits.drop 1
  digits.take 1 ++ (if fraction.isEmpty then [] else '.' :: fraction)
    ++ 'e' :: (toString lead).toList

/-- The text of a positive decimal. -/
def Scientific.text (s : Scientific) : String :=
  let (digits, lead) := s.significant
  String.ofList (if -4 ≤ lead ∧ lead < 16 then positional digits lead else exponential digits lead)

/-- The shortest text that reads back as the same double. -/
def text (x : Float) : String :=
  let bits := x.toBits
  let sign := if signBit bits then "-" else ""
  match magnitude bits with
  | .zero => sign ++ "0.0"
  | .finite mantissa exponent => sign ++ (shortest mantissa exponent).text
  | .infinite => sign ++ "inf"
  | .notANumber => "NaN"

end TupleLang.Decimal
