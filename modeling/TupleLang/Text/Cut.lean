/-!
# Cutting text

Texts are cut at byte offsets. A cut that does not fall between two characters gives no text.
-/

namespace TupleLang.Cut

/-- Drop `n` bytes from the front. -/
def dropBytes? : Nat → List Char → Option (List Char)
  | 0, cs => some cs
  | _ + 1, [] => none
  -- a cut through a character fails
  | n + 1, c :: cs => if c.utf8Size ≤ n + 1 then dropBytes? (n + 1 - c.utf8Size) cs else none

/-- Take `n` bytes from the front. -/
def takeBytes? : Nat → List Char → Option (List Char)
  | 0, _ => some []
  | _ + 1, [] => none
  | n + 1, c :: cs =>
    if c.utf8Size ≤ n + 1 then (takeBytes? (n + 1 - c.utf8Size) cs).map (c :: ·) else none

/-- The text without its first `head` and its last `tail` bytes; empty where that cannot be cut. -/
def inside (head tail : Nat) (text : String) : String :=
  let stop := text.utf8ByteSize - tail
  if stop < head then ""
  else String.ofList (((dropBytes? head text.toList).bind (takeBytes? (stop - head))).getD [])

end TupleLang.Cut
