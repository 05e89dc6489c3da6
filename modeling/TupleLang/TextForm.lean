import TupleLang.Error

/-!
# Text forms

How the values of a leaf type are written as literals: an opening mark, a body made from the value,
and a closing mark. A table holds one text form per leaf type. It begins with the types of the
language, in the forms that the reader understands, and only grows: a type that has a form keeps it.
-/

namespace TupleLang

/-- How the values of one leaf type are written. -/
structure TextForm where
  /-- Written before the body. -/
  opening : String
  /-- Written after the body. -/
  closing : String
  /-- The body of a value. -/
  body : Value → String

/-- The literal of a value. -/
def TextForm.text (form : TextForm) (value : Value) : String :=
  form.opening ++ form.body value ++ form.closing

/-- A short description of a text form by its marks. -/
def TextForm.describe (form : TextForm) : String :=
  s!"TypeHandler({form.opening}…{form.closing})"

/-- Text forms by leaf type, in the order of registration: those of the types of the language, and
those that were added to them. -/
structure TextForms where
  added : List (String × TextForm) := []

namespace TextForms

/-- The text forms of the types of the language. -/
def standard : List (String × TextForm) :=
  [("void", ⟨"", "", fun _ => "void"⟩),
   ("bool", ⟨"", "", Value.plainText⟩),
   ("byte", ⟨"b'", "'", Value.hexText⟩),
   ("char", ⟨"'", "'", Value.charText⟩),
   ("int", ⟨"", "", Value.plainText⟩),
   ("long", ⟨"", "L", Value.plainText⟩),
   ("index", ⟨"", "u", Value.plainText⟩),
   ("bits", ⟨"0x", "", Value.hexText⟩),
   ("float", ⟨"", "", Value.plainText⟩),
   ("name", ⟨"", "", Value.plainText⟩),
   ("syntax", ⟨"$", "", Value.plainText⟩),
   ("bytes", ⟨"B'", "'", Value.hexText⟩),
   ("text", ⟨"\"", "\"", Value.quotedText⟩),
   ("regex", ⟨"R\"", "\"", Value.quotedText⟩),
   ("namepath", ⟨"@", "", Value.plainText⟩),
   ("path", ⟨"F\"", "\"", Value.quotedText⟩),
   ("type", ⟨"", "", Value.plainText⟩)]

/-- All text forms. -/
def table (forms : TextForms) : List (String × TextForm) := standard ++ forms.added

/-- The text form of a leaf type. -/
def get? (forms : TextForms) (name : String) : Option TextForm := forms.table.lookup name

/-- Whether a leaf type has a text form. -/
def contains (forms : TextForms) (name : String) : Bool := (forms.get? name).isSome

/-- Number of text forms. -/
def size (forms : TextForms) : Nat := forms.table.length

/-- Whether there are no text forms. -/
def isEmpty (forms : TextForms) : Bool := forms.table.isEmpty

/-- Add the text form of a new leaf type. -/
def register (forms : TextForms) (name : String) (form : TextForm) : Except Error TextForms :=
  if forms.contains name then .error (.duplicateName name)
  else .ok ⟨forms.added ++ [(name, form)]⟩

/-- The literal of a value of leaf type `type`; none for trees and for types without a form. -/
def format? (forms : TextForms) (type : TypeDesc) (value : Value) : Option String :=
  (type.leafName?.bind forms.get?).map (·.text value)

end TextForms

end TupleLang
