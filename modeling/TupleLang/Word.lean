import TupleLang.Value.Native

/-!
# Words

The integer types of the language: how many bits they have, which numbers they stand for, and the
way between the numbers and the words.
-/

namespace TupleLang

/-- The integer types. -/
inductive Word where
  /-- Signed words of 32 bits. -/
  | int
  /-- Signed words of 64 bits. -/
  | long
  /-- Unsigned words of 64 bits. -/
  | unsigned
  deriving DecidableEq, Repr

namespace Word

/-- The native type of a word. -/
abbrev native : Word → Native
  | int => .int
  | long => .long
  | unsigned => .unsigned

/-- The values of a word. -/
abbrev Carrier (w : Word) : Type := w.native.Carrier

/-- Number of bits. -/
def width : Word → Nat
  | int => 32
  | long | unsigned => 64

/-- The least number that a word stands for. -/
def least : Word → Int
  | int => -2147483648
  | long => -9223372036854775808
  | unsigned => 0

/-- The greatest number that a word stands for. -/
def greatest : Word → Int
  | int => 2147483647
  | long => 9223372036854775807
  | unsigned => 18446744073709551615

/-- The number that a word stands for. -/
def toInt : (w : Word) → w.Carrier → Int
  | int, x => Int32.toInt x
  | long, x => Int64.toInt x
  | unsigned, x => (UInt64.toNat x : Int)

/-- The word of a number, modulo the number of words. -/
def ofInt : (w : Word) → Int → w.Carrier
  | int, n => Int32.ofInt n
  | long, n => Int64.ofInt n
  | unsigned, n => UInt64.ofInt n

/-- The word of a number that is in range. -/
def ofInt? (w : Word) (n : Int) : Option w.Carrier :=
  if w.least ≤ n ∧ n ≤ w.greatest then some (w.ofInt n) else none

end Word

end TupleLang
