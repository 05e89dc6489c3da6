import TupleLang.Proofs.DirectReader
import TupleLang.Proofs.Cursor
import TupleLang.Proofs.Datum
import TupleLang.Proofs.Lexeme

/-!
# Reading lexemes

The grammar of values and types on its own: readers that take lexemes from the front of a list and
give data, without a store and without places. They fail where the text is no value, and do not say
why.
-/

namespace TupleLang

/-- Whether the lexeme is the operator or keyword spelled `text`. -/
def Lexeme.isWord (l : Lexeme) (text : String) : Bool :=
  (l.kind == .symbol || l.kind == .keyword) && l.text == text

/-- The lexeme that stands for the end of input. -/
def Lexeme.eof : Lexeme := ⟨.eof, ""⟩

namespace Grammar

/-- Readers of lexemes. -/
abbrev Scan (α : Type) := List Lexeme → Option (α × List Lexeme)

/-- The lexeme `offset` places ahead. -/
def ahead (ls : List Lexeme) (offset : Nat) : Lexeme := (ls[offset]?).getD .eof

@[simp] theorem ahead_cons_zero (l : Lexeme) (ls : List Lexeme) : ahead (l :: ls) 0 = l := rfl

@[simp] theorem ahead_cons_succ (l : Lexeme) (ls : List Lexeme) (n : Nat) :
    ahead (l :: ls) (n + 1) = ahead ls n := by
  simp [ahead]

/-- The name in front of one of the signs, if there is one, and what stands behind them. -/
def name (signs : List String) : Scan (Option String) := fun ls =>
  if (ahead ls 0).kind = .ident ∧ signs.any (ahead ls 1).isWord then
    some (some (ahead ls 0).text, ls.drop 2)
  else some (none, ls)

/-! ## Types -/

/-- One element of a type; `nested` reads what stands behind an opening parenthesis. -/
def typeElement (nested : Scan TypeDesc) : Scan TypeDesc := fun ls =>
  match (ahead ls 0).kind with
  | .lparen | .typeOpen => nested (ls.drop 1)
  | .ident | .voidWord => some (.leaf (ahead ls 0).text, ls.drop 1)
  | _ => none

/-- Elements of a type up to the closing parenthesis, behind those in `fields`. -/
def typeElements (nested : Scan TypeDesc) : (rounds : Nat) → (fields : List TypeDesc.Field) →
    (comma : Bool) → Scan TypeDesc
  | 0, _, _, _ => none
  | rounds + 1, fields, comma, ls =>
    if (ahead ls 0).kind = .rparen then some (TypeReader.close fields comma, ls.drop 1)
    else
      (name ["="] ls).bind fun name => (typeElement nested name.2).bind fun element =>
        let fields := fields ++ [(name.1, element.1)]
        match (ahead element.2 0).kind with
        | .comma => typeElements nested rounds fields true (element.2.drop 1)
        | .rparen => some (TypeReader.close fields false, element.2.drop 1)
        | _ => none

/-- A type behind its opening parenthesis. -/
def typeBody : (levels : Nat) → Scan TypeDesc
  | 0, _ => none
  | levels + 1, ls => typeElements (typeBody levels) (ls.length + 1) [] false ls

/-! ## Values -/

/-- A scalar from its lexeme. -/
def scalar (l : Lexeme) (negative : Bool) : Option Datum :=
  match Literal.read ⟨l.kind, l.text, {}⟩ negative with
  | .ok typed => some (.scalar typed.type typed.value)
  | .error _ => none

/-- A value; `tuple` reads a tuple behind its opening. -/
def value (levels : Nat) (tuple : TupleKind → Scan Datum) : Scan Datum := fun ls =>
  let l := ahead ls 0
  match l.kind with
  | .plainOpen => tuple .plain (ls.drop 1)
  | .dynamicOpen => tuple .dynamic (ls.drop 1)
  | .dataOpen => tuple .data (ls.drop 1)
  | .typeOpen => (typeBody levels (ls.drop 1)).map fun t => (.scalar "type" (.type t.1), t.2)
  | .ident => some (.scalar "name" (.name l.text), ls.drop 1)
  | kind =>
    if kind == .symbol && l.text == "-" then
      let number := ahead ls 1
      if number.kind == .int || number.kind == .long || number.kind == .float then
        (scalar number true).map (·, ls.drop 2)
      else none
    else if kind.isLiteral then (scalar l false).map (·, ls.drop 1)
    else none

/-- What a tuple of the given kind takes as attributes: names are given once, and a data tuple has
data only. -/
def Admits (kind : TupleKind) (fields : List TypeDesc.Field) : Prop :=
  (fields.filterMap (·.1)).Nodup ∧ (kind = .data → ∀ f ∈ fields, f.2.isData = true)

instance (kind : TupleKind) (fields : List TypeDesc.Field) : Decidable (Admits kind fields) :=
  inferInstanceAs (Decidable (_ ∧ _))

/-- The tuple of the elements read. -/
def build (kind : TupleKind) (entries : List Datum.Entry) : Option Datum :=
  if Admits kind (Datum.fieldsOf entries) then some (.tuple kind entries) else none

/-- One element of a tuple; `nested` reads a tuple of the same kind behind a bare parenthesis. -/
def element (value nested : Scan Datum) : Scan Datum := fun ls =>
  if (ahead ls 0).kind = .lparen then nested (ls.drop 1) else value ls

/-- Elements of a tuple up to the closing parenthesis, behind those in `entries`. -/
def elements (kind : TupleKind) (value nested : Scan Datum) : (rounds : Nat) →
    (entries : List Datum.Entry) → Scan Datum
  | 0, _, _ => none
  | rounds + 1, entries, ls =>
    if (ahead ls 0).kind = .rparen then (build kind entries).map (·, ls.drop 1)
    else
      (name ["=", ":"] ls).bind fun name => (element value nested name.2).bind fun element =>
        let entries := entries ++ [(name.1, element.1)]
        match (ahead element.2 0).kind with
        | .comma => elements kind value nested rounds entries (element.2.drop 1)
        | .rparen => (build kind entries).map (·, element.2.drop 1)
        | _ => none

/-- A tuple behind its opening. -/
def tuple : (levels : Nat) → TupleKind → Scan Datum
  | 0, _, _ => none
  | levels + 1, kind, ls =>
    elements kind (value levels (tuple levels)) (tuple levels kind) (ls.length + 1) [] ls

/-- A value with so many levels of nesting. -/
def read (levels : Nat) : Scan Datum := value levels (tuple levels)

end Grammar

end TupleLang
