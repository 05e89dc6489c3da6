import TupleLang.Decimal.Binary
import TupleLang.Text.Numeral

/-!
# Reading doubles

A decimal text is a sign, digits with an optional point among them, and an optional exponent, or one
of the words for infinity and not-a-number in any case. It is read as the nearest double; numbers
out of range become infinity, numbers too small become zero.
-/

namespace TupleLang.Decimal

/-- Split off an optional sign; the first part tells whether it was a minus. -/
def splitSign : List Char → Bool × List Char
  | '-' :: cs => (true, cs)
  | '+' :: cs => (false, cs)
  | cs => (false, cs)

/-- Bits of one of the words that stand for a special value. -/
def specialWord? (cs : List Char) : Option Nat :=
  match String.ofList (cs.map Char.toLower) with
  | "inf" | "infinity" => some infinityBits
  | "nan" => some nanBits
  | _ => none

/-- The exponent behind the digits: nothing, or `e`, an optional sign and at least one digit. -/
def exponent? : List Char → Option Int
  | [] => some 0
  | e :: cs =>
    if e == 'e' || e == 'E' then
      let (negative, ds) := splitSign cs
      (Numeral.magnitude? 10 ds).map fun n => if negative then -(n : Int) else n
    else none

/-- Bits of `digits · 10 ^ exponent`. Exponents far outside the range of doubles are not worked
out: `digits` has `count` decimal places, so the number is below `10 ^ (count + exponent)` and at
least `10 ^ exponent`. -/
def scale (digits count : Nat) (exponent : Int) : Nat :=
  if digits = 0 then 0
  else if 400 < exponent then infinityBits
  else if exponent + count < -400 then 0
  else nearest (digits * powerOfTen exponent.toNat) (powerOfTen (-exponent).toNat)

/-- Bits of an unsigned decimal number. -/
def number? (cs : List Char) : Option Nat :=
  let whole := cs.takeWhile Char.isDigit
  let (fraction, rest) :=
    match cs.dropWhile Char.isDigit with
    | '.' :: tail => (tail.takeWhile Char.isDigit, tail.dropWhile Char.isDigit)
    | rest => ([], rest)
  let digits := whole ++ fraction
  (Numeral.magnitude? 10 digits).bind fun value =>
    (exponent? rest).map fun e => scale value digits.length (e - fraction.length)

/-- Read a double. -/
def read? (text : String) : Option Float :=
  let (negative, cs) := splitSign text.toList
  ((specialWord? cs).or (number? cs)).map (ofSignBits negative)

end TupleLang.Decimal
