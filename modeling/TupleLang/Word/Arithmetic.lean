import TupleLang.Action
import TupleLang.Word

/-!
# Arithmetic of words

Results are exact: one that does not fit its type raises `integer_overflow`, and a zero divisor
raises `division_by_zero`. Division truncates towards zero, and the remainder has the sign of the
dividend. A shift by an amount outside the width raises `bit_index_out_of_range`.
-/

namespace TupleLang.Word

/-! ## Numbers -/

/-- The word of a number that is in range; any other number raises a condition. -/
def fit (w : Word) (n : Int) : Except Condition w.Carrier :=
  match w.ofInt? n with
  | some x => .ok x
  | none => .error .integerOverflow

/-- Sum. -/
def add (w : Word) (a b : w.Carrier) : Except Condition w.Carrier := w.fit (w.toInt a + w.toInt b)

/-- Difference. -/
def sub (w : Word) (a b : w.Carrier) : Except Condition w.Carrier := w.fit (w.toInt a - w.toInt b)

/-- Product. -/
def mul (w : Word) (a b : w.Carrier) : Except Condition w.Carrier := w.fit (w.toInt a * w.toInt b)

/-- Quotient, truncated towards zero. -/
def div (w : Word) (a b : w.Carrier) : Except Condition w.Carrier :=
  if w.toInt b = 0 then .error .divisionByZero else w.fit ((w.toInt a).tdiv (w.toInt b))

/-- Remainder, with the sign of the dividend. It goes with the quotient, and where that does not fit
there is no remainder either. -/
def rem (w : Word) (a b : w.Carrier) : Except Condition w.Carrier := do
  -- this also refuses the least word by minus one, although its remainder is zero
  let _ ← w.div a b
  w.fit ((w.toInt a).tmod (w.toInt b))

/-- Opposite. -/
def neg (w : Word) (a : w.Carrier) : Except Condition w.Carrier := w.fit (-w.toInt a)

/-- Absolute value. -/
def abs (w : Word) (a : w.Carrier) : Except Condition w.Carrier := w.fit (w.toInt a).natAbs

/-- Order of the numbers. -/
def compare (w : Word) (a b : w.Carrier) : Ordering := Ord.compare (w.toInt a) (w.toInt b)

/-- The smaller of two words. -/
def min (w : Word) (a b : w.Carrier) : w.Carrier := if w.toInt a ≤ w.toInt b then a else b

/-- The greater of two words. -/
def max (w : Word) (a b : w.Carrier) : w.Carrier := if w.toInt a ≤ w.toInt b then b else a

/-! ## Bits -/

/-- Bits set in both words. -/
def bitAnd : (w : Word) → w.Carrier → w.Carrier → w.Carrier
  | int, a, b => Int32.land a b
  | long, a, b => Int64.land a b
  | unsigned, a, b => UInt64.land a b

/-- Bits set in either word. -/
def bitOr : (w : Word) → w.Carrier → w.Carrier → w.Carrier
  | int, a, b => Int32.lor a b
  | long, a, b => Int64.lor a b
  | unsigned, a, b => UInt64.lor a b

/-- Bits set in just one of the words. -/
def bitXor : (w : Word) → w.Carrier → w.Carrier → w.Carrier
  | int, a, b => Int32.xor a b
  | long, a, b => Int64.xor a b
  | unsigned, a, b => UInt64.xor a b

/-- Bits not set in the word. -/
def bitNot : (w : Word) → w.Carrier → w.Carrier
  | int, a => Int32.complement a
  | long, a => Int64.complement a
  | unsigned, a => UInt64.complement a

/-- A shift amount must be within the width. -/
def amount (w : Word) (n : Int32) : Except Condition Nat :=
  let n := n.toInt
  if 0 ≤ n ∧ n < w.width then .ok n.toNat else .error .bitIndexOutOfRange

/-- The word with its bits moved to higher places. -/
def shiftLeft (w : Word) (a : w.Carrier) (n : Int32) : Except Condition w.Carrier := do
  let n ← w.amount n
  return w.ofInt (w.toInt a <<< n)

/-- The word with its bits moved to lower places, keeping the sign. -/
def shiftRight (w : Word) (a : w.Carrier) (n : Int32) : Except Condition w.Carrier := do
  let n ← w.amount n
  return w.ofInt (w.toInt a >>> n)

end TupleLang.Word
