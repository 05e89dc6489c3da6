/-!
# Numerals

Reading of whole numbers: an optional sign, then at least one digit of the base and nothing else.
-/

namespace TupleLang.Numeral

/-- Value of a digit in a base of at most sixteen. -/
def digit? (base : Nat) (c : Char) : Option Nat :=
  let value :=
    if '0' ≤ c ∧ c ≤ '9' then some (c.toNat - '0'.toNat)
    else if 'a' ≤ c ∧ c ≤ 'f' then some (c.toNat - 'a'.toNat + 10)
    else if 'A' ≤ c ∧ c ≤ 'F' then some (c.toNat - 'A'.toNat + 10)
    else none
  value.filter (· < base)

/-- Value of a list of digits, the first one the most significant, behind those worth `acc`. -/
def digits? (base : Nat) (acc : Nat) : List Char → Option Nat
  | [] => some acc
  | c :: cs => (digit? base c).bind fun d => digits? base (base * acc + d) cs

/-- Value of at least one digit. -/
def magnitude? (base : Nat) : List Char → Option Nat
  | [] => none
  | cs => digits? base 0 cs

/-- A number without a minus sign, below `bound`. -/
def unsigned? (base bound : Nat) (text : String) : Option Nat :=
  let value :=
    match text.toList with
    -- a plus sign may stand in front, a minus sign may not
    | '+' :: cs => magnitude? base cs
    | cs => magnitude? base cs
  value.filter (· < bound)

/-- The first number that is too great for a two's complement word of 128 bits. -/
def signedBound : Nat := 0x80000000000000000000000000000000

/-- A number with an optional sign that fits a two's complement word of 128 bits. -/
def signed? (text : String) : Option Int :=
  let value : Option Int :=
    match text.toList with
    | '-' :: cs => (magnitude? 10 cs).map fun n => -(n : Int)
    | '+' :: cs => (magnitude? 10 cs).map Int.ofNat
    | cs => (magnitude? 10 cs).map Int.ofNat
  value.filter fun n => -(signedBound : Int) ≤ n ∧ n < signedBound

end TupleLang.Numeral
