import TupleLang.Token

/-!
# Diagnostics

Messages about a source text, each at a place in it, and a collector that keeps them in the order
in which they were reported.
-/

namespace TupleLang

/-- How grave a message is. -/
inductive Severity where
  /-- The input is invalid. -/
  | error
  /-- Context for an error reported before. -/
  | note
  deriving DecidableEq, Repr

/-- The word shown for a severity. -/
def Severity.text : Severity → String
  | .error => "error"
  | .note => "note"

/-- One message about a source text. -/
structure Diagnostic where
  severity : Severity := .error
  message : String
  span : Span := {}
  deriving DecidableEq, Repr

/-- The line `LINE:COLUMN: SEVERITY: MESSAGE`. -/
def Diagnostic.text (d : Diagnostic) : String := s!"{d.span.text}: {d.severity.text}: {d.message}"

/-- Messages in the order in which they were reported. -/
structure Diagnostics where
  items : List Diagnostic := []
  deriving DecidableEq, Repr

namespace Diagnostics

/-- Add a message at the end. -/
def report (ds : Diagnostics) (d : Diagnostic) : Diagnostics := ⟨ds.items ++ [d]⟩

/-- Report an error. -/
def error (ds : Diagnostics) (message : String) (span : Span) : Diagnostics :=
  ds.report { severity := .error, message, span }

/-- Report a note. -/
def note (ds : Diagnostics) (message : String) (span : Span) : Diagnostics :=
  ds.report { severity := .note, message, span }

/-- Forget everything. -/
def clear (_ : Diagnostics) : Diagnostics := {}

/-- The errors among the messages. -/
def errors (ds : Diagnostics) : List Diagnostic := ds.items.filter (·.severity == .error)

/-- Whether an error was reported. -/
def hasErrors (ds : Diagnostics) : Bool := ds.items.any (·.severity == .error)

/-- Number of messages. -/
def size (ds : Diagnostics) : Nat := ds.items.length

/-- Whether nothing was reported. -/
def isEmpty (ds : Diagnostics) : Bool := ds.items.isEmpty

end Diagnostics

end TupleLang
