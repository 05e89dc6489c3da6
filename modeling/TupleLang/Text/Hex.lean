import TupleLang.Text.Numeral

/-!
# Hexadecimal text

Bytes are written as two digits of base sixteen each, words without leading zeros.
-/

namespace TupleLang.Hex

/-- A number in base sixteen, without leading zeros. -/
def number (n : Nat) : String := String.ofList (Nat.toDigits 16 n)

/-- The two digits of a byte. -/
def byte (b : UInt8) : List Char :=
  let n := b.toNat
  [Nat.digitChar (n / 16), Nat.digitChar (n % 16)]

/-- The digits of a byte string. -/
def bytes (bs : List UInt8) : String := String.ofList (bs.flatMap byte)

/-- A byte in base sixteen. -/
def readByte? (text : String) : Option UInt8 :=
  (Numeral.unsigned? 16 UInt8.size text).map UInt8.ofNat

/-- A byte string from pairs of characters; an odd one out has no meaning. -/
def readBytes? : List Char → Option (List UInt8)
  | [] => some []
  | [_] => none
  | x :: y :: cs =>
    (readByte? (String.ofList [x, y])).bind fun b => (readBytes? cs).map (b :: ·)

end TupleLang.Hex
