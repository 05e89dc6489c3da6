/-!
# Escapes

Quoted literals write a backslash, a line feed, a tab, a carriage return and their own quote with a
backslash in front. Reading takes any other escaped character as itself.
-/

namespace TupleLang.Escape

/-- One character inside a literal delimited by `quote`. -/
def encodeChar (quote c : Char) : List Char :=
  if c = '\\' then ['\\', '\\']
  else if c = '\n' then ['\\', 'n']
  else if c = '\t' then ['\\', 't']
  else if c = '\r' then ['\\', 'r']
  else if c = quote then ['\\', c]
  else [c]

/-- A text inside a literal delimited by `quote`. -/
def encode (quote : Char) (text : String) : String :=
  String.ofList (text.toList.flatMap (encodeChar quote))

/-- The character that an escaped character stands for. -/
def meaning : Char → Char
  | 'n' => '\n'
  | 't' => '\t'
  | 'r' => '\r'
  | c => c

/-- The characters that the inside of a literal stands for. -/
def decodeChars : List Char → List Char
  | [] => []
  -- a backslash with nothing behind it stands for itself
  | ['\\'] => ['\\']
  | '\\' :: c :: cs => meaning c :: decodeChars cs
  | c :: cs => c :: decodeChars cs

/-- The text that the inside of a literal stands for. -/
def decode (body : String) : String := String.ofList (decodeChars body.toList)

/-- An encoded character is read back as that character, for every quote that stands for itself. -/
theorem decodeChars_encodeChar {quote : Char} (hquote : meaning quote = quote) (c : Char)
    (cs : List Char) : decodeChars (encodeChar quote c ++ cs) = c :: decodeChars cs := by
  by_cases h₁ : c = '\\'
  · subst h₁; simp [encodeChar, decodeChars, meaning]
  by_cases h₂ : c = '\n'
  · subst h₂; simp [encodeChar, decodeChars, meaning]
  by_cases h₃ : c = '\t'
  · subst h₃; simp [encodeChar, decodeChars, meaning]
  by_cases h₄ : c = '\r'
  · subst h₄; simp [encodeChar, decodeChars, meaning]
  by_cases h₅ : c = quote
  · subst h₅; simp [encodeChar, decodeChars, hquote, h₁, h₂, h₃, h₄]
  · simp [encodeChar, decodeChars, h₁, h₂, h₃, h₄, h₅]

/-- Reading gives back the text that was written. -/
theorem decode_encode {quote : Char} (hquote : meaning quote = quote) (text : String) :
    decode (encode quote text) = text := by
  have h (cs : List Char) : decodeChars (cs.flatMap (encodeChar quote)) = cs := by
    induction cs with
    | nil => rfl
    | cons c cs ih => rw [List.flatMap_cons, decodeChars_encodeChar hquote, ih]
  simp [decode, encode, h]

end TupleLang.Escape
