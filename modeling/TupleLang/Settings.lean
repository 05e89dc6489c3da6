/-!
# Settings

Limits and switches that parsing and evaluation obey.
-/

namespace TupleLang

/-- Limits and switches of a store. -/
structure Settings where
  /-- Greatest nesting depth of expressions, literals and evaluation. -/
  maxDepth : Nat := 256
  /-- Whether evaluation is to be traced. -/
  trace : Bool := false
  deriving DecidableEq, Repr

/-- Whether a nesting depth is within the limit. -/
def Settings.allows (s : Settings) (depth : Nat) : Bool := depth ≤ s.maxDepth

end TupleLang
