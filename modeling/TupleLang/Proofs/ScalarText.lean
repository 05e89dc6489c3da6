import TupleLang.Expr.Literal
import TupleLang.Proofs.Grammar
import TupleLang.Proofs.Spelling

/-!
# Text of scalars

What the text forms of the language write for a scalar is lexed on its own, and read back as the
same scalar under the same type. Floating point numbers are left out, and so are names that no
identifier spells: no literal stands for them.
-/

namespace TupleLang

/-! ## Numerals -/

namespace Numeral

variable {b : Nat}

/-- The character of a digit has the value of the digit. -/
theorem digit?_digitChar (hb : b ∈ [10, 16]) {d : Nat} (hd : d < b) :
    digit? b d.digitChar = some d := by
  have hall : ∀ b ∈ [10, 16], ∀ d < b, digit? b (Nat.digitChar d) = some d := by decide
  exact hall b hb d hd

theorem digits?_append (acc : Nat) (cs ds : List Char) :
    digits? b acc (cs ++ ds) = (digits? b acc cs).bind fun n => digits? b n ds := by
  induction cs generalizing acc with
  | nil => rfl
  | cons c cs ih =>
    rw [List.cons_append, digits?, digits?]
    cases digit? b c with
    | none => rfl
    | some d => exact ih _

/-- The digits of a number have the value of the number. -/
theorem digits?_toDigits (hb : b ∈ [10, 16]) (n : Nat) :
    digits? b 0 (Nat.toDigits b n) = some n := by
  have hone : 1 < b := by
    have hall : ∀ b ∈ [10, 16], 1 < b := by decide
    exact hall b hb
  induction n using Nat.strongRecOn with
  | ind n ih =>
    by_cases hn : n < b
    · rw [Nat.toDigits_of_lt_base hn, digits?, digit?_digitChar hb hn]
      simp [digits?]
    · have hle : b ≤ n := Nat.le_of_not_lt hn
      -- the last digit is split off, and the rest is a smaller number
      have hdiv : n / b < n := Nat.div_lt_self (by omega) hone
      rw [Nat.toDigits_of_base_le hone hle, digits?_append, ih _ hdiv]
      simp only [Option.bind_some, digits?, digit?_digitChar hb (Nat.mod_lt n (by omega))]
      rw [Nat.div_add_mod]

theorem magnitude?_toDigits (hb : b ∈ [10, 16]) (n : Nat) :
    magnitude? b (Nat.toDigits b n) = some n := by
  rw [← digits?_toDigits hb n]
  cases hds : Nat.toDigits b n with
  | nil => exact absurd hds Nat.toDigits_ne_nil
  | cons c cs => rfl

/-- The digits of a number are digits of base sixteen. -/
theorem isHexDigit_toDigits (hb : b ∈ [10, 16]) (n : Nat) :
    ∀ c ∈ Nat.toDigits b n, Lexer.isHexDigit c = true := by
  have hall : ∀ b ∈ [10, 16], 1 < b ∧ b ≤ 16 := by decide
  obtain ⟨hone, hle⟩ := hall b hb
  induction n using Nat.strongRecOn with
  | ind n ih =>
    intro c hc
    by_cases hn : n < b
    · rw [Nat.toDigits_of_lt_base hn, List.mem_singleton] at hc
      exact hc ▸ Lexer.isHexDigit_digitChar (by omega)
    · have hdiv : n / b < n := Nat.div_lt_self (by omega) hone
      rw [Nat.toDigits_of_base_le hone (Nat.le_of_not_lt hn), List.mem_append,
        List.mem_singleton] at hc
      rcases hc with hc | rfl
      · exact ih _ hdiv c hc
      · have hmod : n % b < b := Nat.mod_lt n (by omega)
        exact Lexer.isHexDigit_digitChar (by omega)

/-- Whether no sign stands in front of the text. -/
abbrev Unsigned (cs : List Char) : Prop := Lexer.Front (fun c => c ≠ '+' ∧ c ≠ '-') cs

/-- No sign stands in front of a digit. -/
theorem unsigned_of_isHexDigit {cs : List Char} (h : ∀ c ∈ cs, Lexer.isHexDigit c = true) :
    Unsigned cs := by
  intro c hc
  have hhex := h c (List.mem_of_mem_head? hc)
  exact ⟨Lexer.ne_of_class hhex (by decide), Lexer.ne_of_class hhex (by decide)⟩

theorem unsigned?_ofList {cs : List Char} (hcs : Unsigned cs) {n bound : Nat}
    (hvalue : magnitude? b cs = some n) (hn : n < bound) :
    unsigned? b bound (String.ofList cs) = some n := by
  rw [unsigned?, String.toList_ofList]
  split
  · exact absurd rfl (Lexer.front_cons.mp hcs).1
  · rw [hvalue]
    simp [hn]

theorem signed?_ofList {cs : List Char} (hcs : Unsigned cs) {n : Nat}
    (hvalue : magnitude? 10 cs = some n) (hn : n < signedBound) :
    signed? (String.ofList cs) = some (n : Int) := by
  rw [signed?, String.toList_ofList]
  split
  · exact absurd rfl (Lexer.front_cons.mp hcs).2
  · exact absurd rfl (Lexer.front_cons.mp hcs).1
  · rw [hvalue]
    simp
    omega

/-- The digits of a number below the bound are read back as the number. -/
theorem unsigned?_toDigits (hb : b ∈ [10, 16]) {n bound : Nat} (hn : n < bound) :
    unsigned? b bound (String.ofList (Nat.toDigits b n)) = some n :=
  unsigned?_ofList (unsigned_of_isHexDigit (isHexDigit_toDigits hb n)) (magnitude?_toDigits hb n) hn

theorem signed?_toDigits {n : Nat} (hn : n < signedBound) :
    signed? (String.ofList (Nat.toDigits 10 n)) = some (n : Int) :=
  signed?_ofList (unsigned_of_isHexDigit (isHexDigit_toDigits (by decide) n))
    (magnitude?_toDigits (by decide) n) hn

end Numeral

namespace Hex

/-- The digits of a byte are read back as the byte. -/
theorem readByte?_byte (b : UInt8) : readByte? (String.ofList (byte b)) = some b := by
  have hlt : b.toNat < 256 := UInt8.toNat_lt b
  have hhigh : Numeral.digit? 16 (Nat.digitChar (b.toNat / 16)) = some (b.toNat / 16) :=
    Numeral.digit?_digitChar (by decide) (by omega)
  have hlow : Numeral.digit? 16 (Nat.digitChar (b.toNat % 16)) = some (b.toNat % 16) :=
    Numeral.digit?_digitChar (by decide) (by omega)
  have hvalue : Numeral.magnitude? 16 (byte b) = some b.toNat := by
    simp only [byte, Numeral.magnitude?, Numeral.digits?, hhigh, hlow, Option.bind_some]
    rw [Nat.mul_zero, Nat.zero_add, Nat.div_add_mod]
  -- the first digit is not taken for a sign
  have hsign : Numeral.Unsigned (byte b) := by
    obtain ⟨x, y, hdigits, hx, hy⟩ := Lexer.byte_digits b
    rw [hdigits]
    exact Numeral.unsigned_of_isHexDigit (by simp [hx, hy])
  rw [readByte?, Numeral.unsigned?_ofList hsign hvalue hlt, Option.map_some, UInt8.ofNat_toNat]

/-- The digits of a byte string are read back as the byte string. -/
theorem readBytes?_bytes (bs : List UInt8) : readBytes? (bs.flatMap byte) = some bs := by
  induction bs with
  | nil => rfl
  | cons b bs ih =>
    have hb := readByte?_byte b
    rw [byte] at hb
    rw [List.flatMap_cons, byte]
    dsimp only [List.cons_append, List.nil_append, readBytes?]
    rw [hb, ih]
    rfl

end Hex

/-! ## Cutting -/

namespace Cut

theorem utf8ByteSize_cons (c : Char) (cs : List Char) :
    (String.ofList (c :: cs)).utf8ByteSize = c.utf8Size + (String.ofList cs).utf8ByteSize := by
  rw [String.ofList_cons, String.utf8ByteSize_append, String.utf8ByteSize_singleton]

/-- As many bytes as a text has are the whole text. -/
theorem dropBytes?_append (cs ds : List Char) :
    dropBytes? (String.ofList cs).utf8ByteSize (cs ++ ds) = some ds := by
  induction cs with
  | nil => simp [dropBytes?]
  | cons c cs ih =>
    rw [utf8ByteSize_cons, List.cons_append]
    obtain ⟨n, hn⟩ := Nat.exists_eq_add_one.mpr (Char.utf8Size_pos c)
    rw [hn, Nat.add_right_comm, dropBytes?, if_pos (by omega), hn, Nat.add_right_comm,
      Nat.add_sub_cancel_left]
    exact ih

theorem takeBytes?_append (cs ds : List Char) :
    takeBytes? (String.ofList cs).utf8ByteSize (cs ++ ds) = some cs := by
  induction cs with
  | nil => simp [takeBytes?]
  | cons c cs ih =>
    rw [utf8ByteSize_cons, List.cons_append]
    obtain ⟨n, hn⟩ := Nat.exists_eq_add_one.mpr (Char.utf8Size_pos c)
    rw [hn, Nat.add_right_comm, takeBytes?, if_pos (by omega), hn, Nat.add_right_comm,
      Nat.add_sub_cancel_left, ih]
    rfl

/-- What stands between an opening and a closing mark is cut out by the sizes of the marks. -/
theorem inside_append (opening body closing : List Char) {head tail : Nat}
    (hhead : (String.ofList opening).utf8ByteSize = head)
    (htail : (String.ofList closing).utf8ByteSize = tail) :
    inside head tail (String.ofList (opening ++ (body ++ closing))) = String.ofList body := by
  have hsize : (String.ofList (opening ++ (body ++ closing))).utf8ByteSize =
      head + (String.ofList body).utf8ByteSize + tail := by
    rw [String.ofList_append, String.ofList_append, String.utf8ByteSize_append,
      String.utf8ByteSize_append, hhead, htail, Nat.add_assoc]
  rw [inside, hsize, Nat.add_sub_cancel]
  rw [if_neg (by omega), Nat.add_sub_cancel_left, String.toList_ofList, ← hhead, dropBytes?_append,
    Option.bind_some, takeBytes?_append]
  rfl

/-- What stands behind a mark of one byte. -/
theorem inside_mark {c : Char} (hc : c.utf8Size = 1) {cs : List Char} {text : String}
    (htext : text.toList = c :: cs) : inside 1 0 text = String.ofList cs := by
  have hsize : (String.ofList [c]).utf8ByteSize = 1 := by
    rw [utf8ByteSize_cons, hc]
    rfl
  have hinside : inside 1 0 (String.ofList ([c] ++ (cs ++ []))) = String.ofList cs :=
    inside_append [c] cs [] hsize rfl
  rwa [List.append_nil, List.singleton_append, ← htext, String.ofList_toList] at hinside

end Cut

/-! ## Texts that are read back -/

open Lexer

/-- Whether the datum is a number that is written with a minus sign. -/
def Datum.isNegative : Datum → Bool
  | scalar _ (.int n) => n.toInt < 0
  | scalar _ (.long n) => n.toInt < 0
  | _ => false

namespace Grammar

/-- The lexemes are read as the datum, whatever stands behind them, and nobody takes the first of
them for a parenthesis or for the name of an attribute. Only negative numbers begin with a sign. -/
structure Reads (levels : Nat) (ls : List Lexeme) (d : Datum) : Prop where
  value : ∀ tuple rest, value levels tuple (ls ++ rest) = some (d, rest)
  head : ∃ l others, ls = l :: others ∧ l.kind ∉ [.lparen, .rparen] ∧
    (l.kind = .ident → others = [])
  sign : ∀ l ∈ ls.head?, l.kind = .symbol → d.isNegative = true

theorem value_literal {levels : Nat} {tuple : TupleKind → Scan Datum} {l : Lexeme}
    (hkind : l.kind.isLiteral = true) (rest : List Lexeme) :
    value levels tuple (l :: rest) = (scalar l false).map (·, rest) := by
  obtain ⟨kind, text⟩ := l
  cases kind <;> first
    | exact absurd hkind Bool.false_ne_true
    | rfl

/-- A literal is read as what it stands for. -/
theorem Reads.literal {l : Lexeme} {typed : Literal.Typed} (hkind : l.kind.isLiteral = true)
    (hread : Literal.read ⟨l.kind, l.text, {}⟩ false = .ok typed) (levels : Nat) :
    Reads levels [l] (.scalar typed.type typed.value) where
  value tuple rest := by
    have hscalar : scalar l false = some (.scalar typed.type typed.value) := by rw [scalar, hread]
    rw [List.singleton_append, value_literal hkind, hscalar]
    rfl
  head := by
    refine ⟨l, [], rfl, fun hparen => ?_, fun _ => rfl⟩
    rcases List.mem_pair.mp hparen with h | h <;> rw [h] at hkind <;> cases hkind
  sign := by
    intro l' hl' hsymbol
    rw [← Option.some.inj hl'] at hsymbol
    rw [hsymbol] at hkind
    cases hkind

/-- A minus sign and a number are read as the negative number. -/
theorem Reads.negative {l : Lexeme} {typed : Literal.Typed} (hkind : l.kind ∈ [.int, .long])
    (hread : Literal.read ⟨l.kind, l.text, {}⟩ true = .ok typed)
    (hsign : (Datum.scalar typed.type typed.value).isNegative = true) (levels : Nat) :
    Reads levels [⟨.symbol, "-"⟩, l] (.scalar typed.type typed.value) where
  value tuple rest := by
    have hscalar : scalar l true = some (.scalar typed.type typed.value) := by rw [scalar, hread]
    have hnumber : (l.kind == .int || l.kind == .long || l.kind == .float) = true := by
      rcases List.mem_pair.mp hkind with h | h <;> rw [h] <;> rfl
    simp [Grammar.value, hnumber, hscalar]
  head := ⟨_, _, rfl, by decide, by simp⟩
  sign _ _ _ := hsign

end Grammar

/-- The text is lexed on its own, and its lexemes are read as the datum. -/
structure Legible (levels : Nat) (w : String) (d : Datum) : Prop where
  clear : Clear w
  reads : Grammar.Reads levels (lexemes w.toList) d

/-- A text that is a single literal is read as what the literal stands for. -/
theorem Legible.single {w : String} {kind : TokenKind} {typed : Literal.Typed}
    (hw : Clear w ∧ lexemes w.toList = [⟨kind, w⟩]) (hkind : kind.isLiteral = true)
    (hread : Literal.read ⟨kind, w, {}⟩ false = .ok typed) (levels : Nat) :
    Legible levels w (.scalar typed.type typed.value) := by
  refine ⟨hw.1, ?_⟩
  rw [hw.2]
  exact Grammar.Reads.literal hkind hread levels

theorem Legible.literal {c : Char} {cs : List Char} {kind : TokenKind} {typed : Literal.Typed}
    (hhead : c ∉ stopChars)
    (hlongest : ∀ rest, Stops rest → longest (c :: cs ++ rest) = (some kind, (c :: cs).length))
    (hkind : kind.isLiteral = true)
    (hread : Literal.read ⟨kind, String.ofList (c :: cs), {}⟩ false = .ok typed) (levels : Nat) :
    Legible levels (String.ofList (c :: cs)) (.scalar typed.type typed.value) := by
  have htext : (String.ofList (c :: cs)).toList = c :: cs := String.toList_ofList
  refine Legible.single (Clear.of_longest ⟨c, cs, htext, hhead⟩ fun rest hrest => ?_)
    hkind hread levels
  rw [htext, hlongest rest hrest, String.length_ofList]

/-! ## Numbers -/

/-- A word is the word of the number that it stands for. -/
theorem Word.ofInt?_toInt (w : Word) (x : w.Carrier) : w.ofInt? (w.toInt x) = some x := by
  cases w with
  | int =>
    have hle := Int32.le_toInt x
    have hlt := Int32.toInt_lt x
    rw [ofInt?, if_pos (by simp only [least, greatest, toInt]; omega)]
    exact congrArg some (Int32.ofInt_toInt x)
  | long =>
    have hle := Int64.le_toInt x
    have hlt := Int64.toInt_lt x
    rw [ofInt?, if_pos (by simp only [least, greatest, toInt]; omega)]
    exact congrArg some (Int64.ofInt_toInt x)
  | unsigned =>
    have hlt := UInt64.toNat_lt x
    rw [ofInt?, if_pos (by simp only [least, greatest, toInt]; omega)]
    -- reducing modulo the number of words changes nothing in range
    have hmod : ((UInt64.toNat x : Int) % 2 ^ 64).toNat = UInt64.toNat x := by omega
    rw [ofInt, toInt, UInt64.ofInt, hmod, UInt64.ofNat_toNat]

theorem Literal.word?_toInt (w : Word) (x : w.Carrier) :
    word? w (w.toInt x) = some (native w.native x) := by
  rw [word?, Word.ofInt?_toInt]
  rfl

theorem Literal.integer?_toDigits {n : Int} (hn : n.natAbs < Numeral.signedBound) :
    integer? (String.ofList (Nat.toDigits 10 n.natAbs)) (decide (n < 0)) = .ok n := by
  rw [integer?, Numeral.signed?_toDigits hn]
  by_cases hneg : n < 0
  · simp only [hneg, decide_true, if_true]
    exact congrArg _ (by omega)
  · simp only [hneg, decide_false]
    exact congrArg _ (by simp; omega)

theorem isNumeral_toDigits (k : Nat) : IsNumeral (Nat.toDigits 10 k) :=
  ⟨Nat.toDigits_ne_nil, fun _ hd => Nat.isDigit_of_mem_toDigits (by decide) (by decide) hd⟩

/-- The digits of a number behind its sign. -/
theorem toList_toString_int (n : Int) :
    (toString n).toList = (if 0 ≤ n then [] else ['-']) ++ Nat.toDigits 10 n.natAbs := by
  rw [Int.toString_eq_repr, Int.repr_eq_if]
  split
  · rename_i h
    rw [Nat.toList_repr, List.nil_append, show n.toNat = n.natAbs by omega]
  · rename_i h
    rw [String.toList_append, Nat.toList_repr, show (-n).toNat = n.natAbs by omega]
    rfl

/-- A minus sign in front of a text that does not go on with `=` is a lexeme of its own. -/
theorem lexemes_minus {cs : List Char} (hcs : Front (· ≠ '=') cs) :
    lexemes ('-' :: cs) = ⟨.symbol, "-"⟩ :: lexemes cs := by
  have hext : extensions "-" = ['='] := by decide
  have hlongest : longest (['-'] ++ cs) = (some .symbol, 1) := by
    have hrest : Front (· ∉ extensions "-") cs := by
      refine hcs.imp fun c hc => ?_
      rwa [hext, List.mem_singleton]
    have hmem : ("-", TokenKind.symbol) ∈ spellings := by decide
    have hmatch := longest_symbol hmem (by decide) hrest
    rwa [show "-".toList = ['-'] from rfl, show "-".length = 1 from rfl] at hmatch
  exact Lexer.lexemes_append (by simp) hlongest

/-- A text that is a minus sign and a number is read as the negative number. -/
theorem Legible.negative {c : Char} {cs : List Char} {kind : TokenKind} {typed : Literal.Typed}
    (hhead : c ≠ '=')
    (hlongest : ∀ rest, Stops rest → longest (c :: cs ++ rest) = (some kind, (c :: cs).length))
    (hkind : kind ∈ [.int, .long])
    (hread : Literal.read ⟨kind, String.ofList (c :: cs), {}⟩ true = .ok typed)
    (hsign : (Datum.scalar typed.type typed.value).isNegative = true) (levels : Nat) :
    Legible levels (String.ofList ('-' :: c :: cs)) (.scalar typed.type typed.value) := by
  have htext : (String.ofList ('-' :: c :: cs)).toList = '-' :: c :: cs := String.toList_ofList
  -- the minus sign is a token of its own in front of the number
  have hboth : ∀ rest, Stops rest → lexemes ('-' :: (c :: cs ++ rest)) =
      [⟨.symbol, "-"⟩, ⟨kind, String.ofList (c :: cs)⟩] ++ lexemes rest := by
    intro rest hrest
    have hfront : Front (· ≠ '=') (c :: cs ++ rest) := front_cons.mpr hhead
    rw [lexemes_minus hfront, Lexer.lexemes_append (by simp) (hlongest rest hrest)]
    rfl
  have hself : lexemes (String.ofList ('-' :: c :: cs)).toList =
      [⟨.symbol, "-"⟩, ⟨kind, String.ofList (c :: cs)⟩] := by
    simpa [htext] using hboth [] front_nil
  refine ⟨⟨fun rest hrest => ?_, '-', c :: cs, htext, by decide⟩, ?_⟩
  · rw [hself, htext]
    exact hboth rest hrest
  · rw [hself]
    exact Grammar.Reads.negative (l := ⟨kind, _⟩) hkind hread hsign levels

/-- The text of a number is read as the number: a single literal, or a minus sign and a literal. -/
theorem Legible.number {n : Int} {suffix : List Char} {kind : TokenKind} {typed : Literal.Typed}
    (hkind : kind ∈ [.int, .long])
    (hlongest : ∀ ds rest, IsNumeral ds → Stops rest →
      longest (ds ++ (suffix ++ rest)) = (some kind, ds.length + suffix.length))
    (hread : Literal.read ⟨kind, String.ofList (Nat.toDigits 10 n.natAbs ++ suffix), {}⟩
      (decide (n < 0)) = .ok typed)
    (hsign : (Datum.scalar typed.type typed.value).isNegative = decide (n < 0)) (levels : Nat) :
    Legible levels (String.ofList ((toString n).toList ++ suffix))
      (.scalar typed.type typed.value) := by
  have hds := isNumeral_toDigits n.natAbs
  rw [toList_toString_int]
  generalize Nat.toDigits 10 n.natAbs = ds at hds hread
  obtain ⟨c, cs, rfl⟩ := List.exists_cons_of_ne_nil hds.1
  have hdigit : c.isDigit = true := hds.2 c List.mem_cons_self
  have hlex : ∀ rest, Stops rest → longest (c :: (cs ++ suffix) ++ rest) =
      (some kind, (c :: (cs ++ suffix)).length) := by
    intro rest hrest
    have hmatch := hlongest (c :: cs) rest hds hrest
    simpa [Nat.add_right_comm] using hmatch
  -- the sign is written in front of the magnitude, or not at all
  by_cases hn : 0 ≤ n
  · rw [if_pos hn]
    rw [decide_eq_false (by omega)] at hread
    refine Legible.literal (fun hmem => ?_) hlex ?_ hread levels
    · have hall : ∀ c ∈ stopChars, c.isDigit = false := by decide
      rw [hall c hmem] at hdigit
      cases hdigit
    · rcases List.mem_pair.mp hkind with rfl | rfl <;> rfl
  · rw [if_neg hn]
    rw [decide_eq_true (by omega)] at hread hsign
    exact Legible.negative (ne_of_class hdigit (by decide)) hlex hkind hread hsign levels

/-! ## Words -/

/-- Nothing that ends tokens starts a word. -/
theorem Lexer.IsWord.head {w : List Char} (hw : IsWord w) : ∃ c cs, w = c :: cs ∧
    c ∉ stopChars := by
  obtain ⟨c, cs, rfl, hc, -⟩ := hw
  have hall : ∀ c ∈ stopChars, isWordStart c = false := by decide
  refine ⟨c, cs, rfl, fun hmem => ?_⟩
  rw [hall c hmem] at hc
  cases hc

/-- A reserved word is lexed on its own. -/
theorem clear_reserved {text : String} {kind : TokenKind} (hmem : (text, kind) ∈ spellings)
    (hw : IsWord text.toList) : Clear text ∧ lexemes text.toList = [⟨kind, text⟩] :=
  Clear.of_longest hw.head fun rest hrest =>
    longest_reserved hmem hw hrest.breaks fun h => absurd (hrest '(' h) (by decide)

theorem clear_void : Clear "void" ∧ lexemes "void".toList = [⟨.voidWord, "void"⟩] :=
  clear_reserved (by decide) ⟨'v', ['o', 'i', 'd'], rfl, by decide, by decide⟩

/-- What an identifier is spelled like: a word that is not reserved. -/
def IsIdent (s : String) : Prop := IsWord s.toList ∧ s ∉ reserved

/-- An identifier is lexed on its own. -/
theorem IsIdent.clear {s : String} (hs : IsIdent s) :
    Clear s ∧ lexemes s.toList = [⟨.ident, s⟩] := by
  refine Clear.of_longest hs.1.head fun rest hrest => ?_
  rw [← String.length_toList]
  exact longest_word hs.1 (by rw [String.ofList_toList]; exact hs.2) hrest.breaks
    fun h => absurd (hrest '(' h) (by decide)

/-! ## The forms of the language -/

/-- The types of the language have the text forms of the language in every table. -/
theorem TextForms.get?_of_standard {forms : TextForms} {type : String} {form : TextForm}
    (h : standard.lookup type = some form) : forms.get? type = some form := by
  rw [get?, table, List.lookup_append, h, Option.some_or]

namespace Datum

variable {forms : TextForms}

/-- The text of a scalar under a type of the language. -/
theorem scalarText_eq {type : String} {form : TextForm}
    (hget : TextForms.standard.lookup type = some form) (v : Value) :
    scalarText forms type v =
      String.ofList (form.opening.toList ++ ((form.body v).toList ++ form.closing.toList)) := by
  rw [scalarText, TextForms.format?, TypeDesc.leafName?, Option.bind_some,
    TextForms.get?_of_standard hget, Option.map_some, Option.getD_some, TextForm.text]
  apply String.toList_injective
  simp

end Datum

/-- The scalars that a literal stands for, floating point numbers and types apart. -/
inductive Literal.Stands : String → Value → Prop
  | void : Stands "void" .void
  | bool (b : Bool) : Stands "bool" (.bool b)
  | byte (b : UInt8) : Stands "byte" (.byte b)
  | char (c : Char) : Stands "char" (.char c)
  | int (n : Int32) : Stands "int" (.int n)
  | long (n : Int64) : Stands "long" (.long n)
  | index (n : UInt64) : Stands "index" (.unsigned n)
  | bits (n : UInt64) : Stands "bits" (.unsigned n)
  | name {s : String} : IsIdent s → Stands "name" (.name s)
  | sigil {s : String} : IsWord s.toList → Stands "syntax" (.name s)
  | bytes (bs : List UInt8) : Stands "bytes" (.bytes bs)
  | text (s : String) : Stands "text" (.text s)
  | regex (s : String) : Stands "regex" (.regex s)
  | path (s : String) : Stands "path" (.path s)
  | namePath {p : List Char} : IsPath p →
      Stands "namepath" (.namePath ((p.splitOn '.').map String.ofList))

section Legible

variable (levels : Nat)

theorem legible_int (n : Int32) :
    Legible levels (String.ofList ((toString n.toInt).toList ++ [])) (.scalar "int" (.int n)) := by
  -- the magnitude is in range of what a numeral may say
  have hk : n.toInt.natAbs < Numeral.signedBound := by
    have hle := Int32.le_toInt n
    have hlt := Int32.toInt_lt n
    rw [Numeral.signedBound]
    omega
  have hread : Literal.read ⟨.int, String.ofList (Nat.toDigits 10 n.toInt.natAbs ++ []), {}⟩
      (decide (n.toInt < 0)) = .ok (Literal.native .int n) := by
    have hword : Literal.word? .int n.toInt = some (Literal.native .int n) :=
      Literal.word?_toInt .int n
    simp only [Literal.read, List.append_nil, Literal.integer?_toDigits hk, bind, Except.bind,
      hword, Option.some_or, Literal.orFail]
  refine Legible.number (by decide) (fun ds rest hds hrest => ?_) hread rfl levels
  simpa using longest_numeral hds hrest

theorem legible_long (n : Int64) :
    Legible levels (String.ofList ((toString n.toInt).toList ++ ['L']))
    (.scalar "long" (.long n)) := by
  have hk : n.toInt.natAbs < Numeral.signedBound := by
    have hle := Int64.le_toInt n
    have hlt := Int64.toInt_lt n
    rw [Numeral.signedBound]
    omega
  have hread : Literal.read ⟨.long, String.ofList (Nat.toDigits 10 n.toInt.natAbs ++ ['L']), {}⟩
      (decide (n.toInt < 0)) = .ok (Literal.native .long n) := by
    have hword : Literal.word? .long n.toInt = some (Literal.native .long n) :=
      Literal.word?_toInt .long n
    -- the suffix is cut off before the digits are read
    have hcut : Cut.inside 0 1 (String.ofList (Nat.toDigits 10 n.toInt.natAbs ++ ['L'])) =
        String.ofList (Nat.toDigits 10 n.toInt.natAbs) :=
      Cut.inside_append [] _ ['L'] (by simp) (by decide)
    simp only [Literal.read, hcut, Literal.integer?_toDigits hk, bind, Except.bind,
      hword, Literal.orFail]
  refine Legible.number (by decide) (fun ds rest hds _ => ?_) hread rfl levels
  exact longest_suffixed hds (by decide) rest

theorem legible_index (n : UInt64) :
    Legible levels (String.ofList (Nat.toDigits 10 n.toNat ++ ['u']))
      (.scalar "index" (.unsigned n)) := by
  have hcut : Cut.inside 0 1 (String.ofList (Nat.toDigits 10 n.toNat ++ ['u'])) =
      String.ofList (Nat.toDigits 10 n.toNat) :=
    Cut.inside_append [] _ ['u'] (by simp) (by decide)
  have hread : Literal.read ⟨.index, String.ofList (Nat.toDigits 10 n.toNat ++ ['u']), {}⟩ false =
      .ok ⟨"index", .unsigned n⟩ := by
    have hlt : n.toNat < UInt64.size := UInt64.toNat_lt n
    simp only [Literal.read, hcut, Numeral.unsigned?_toDigits (b := 10) (by decide) hlt,
      Option.map_some, UInt64.ofNat_toNat, Literal.orFail]
  have hds := isNumeral_toDigits n.toNat
  generalize Nat.toDigits 10 n.toNat = ds at hds hread
  obtain ⟨c, cs, rfl⟩ := List.exists_cons_of_ne_nil hds.1
  refine Legible.literal (fun hmem => ?_) (fun rest _ => ?_) rfl hread levels
  · have hall : ∀ c ∈ stopChars, c.isDigit = false := by decide
    have hdigit := hds.2 c List.mem_cons_self
    rw [hall c hmem] at hdigit
    cases hdigit
  · simpa using longest_suffixed hds (by decide) rest

theorem legible_bits (n : UInt64) :
    Legible levels (String.ofList ('0' :: 'x' :: Nat.toDigits 16 n.toNat))
      (.scalar "bits" (.unsigned n)) := by
  have hcut : Cut.inside 2 0 (String.ofList ('0' :: 'x' :: Nat.toDigits 16 n.toNat)) =
      String.ofList (Nat.toDigits 16 n.toNat) := by
    simpa using Cut.inside_append ['0', 'x'] (Nat.toDigits 16 n.toNat) [] (by decide) (by decide)
  have hread : Literal.read ⟨.bits, String.ofList ('0' :: 'x' :: Nat.toDigits 16 n.toNat), {}⟩
      false = .ok ⟨"bits", .unsigned n⟩ := by
    have hlt : n.toNat < UInt64.size := UInt64.toNat_lt n
    simp only [Literal.read, hcut, Numeral.unsigned?_toDigits (b := 16) (by decide) hlt,
      Option.map_some, UInt64.ofNat_toNat, Literal.orFail]
  refine Legible.literal (by decide) (fun rest hrest => ?_) rfl hread levels
  exact longest_hexNumber Nat.toDigits_ne_nil (Numeral.isHexDigit_toDigits (by decide) _) hrest

theorem legible_byte (b : UInt8) :
    Legible levels (String.ofList ('b' :: '\'' :: (Hex.byte b ++ ['\''])))
    (.scalar "byte" (.byte b)) := by
  have hcut : Cut.inside 2 1 (String.ofList ('b' :: '\'' :: (Hex.byte b ++ ['\'']))) =
      String.ofList (Hex.byte b) :=
    Cut.inside_append ['b', '\''] (Hex.byte b) ['\''] (by decide) (by decide)
  have hread :
    Literal.read ⟨.byte, String.ofList ('b' :: '\'' :: (Hex.byte b ++ ['\''])), {}⟩ false =
      .ok (Literal.native .byte b) := by
    simp only [Literal.read, hcut, Hex.readByte?_byte, Option.map_some, Literal.orFail]
  refine Legible.literal (by decide) (fun rest _ => ?_) rfl hread levels
  simpa [Hex.byte] using longest_byte b rest

theorem legible_bytes (bs : List UInt8) :
    Legible levels (String.ofList ('B' :: '\'' :: (bs.flatMap Hex.byte ++ ['\''])))
      (.scalar "bytes" (.bytes bs)) := by
  have hcut : Cut.inside 2 1 (String.ofList ('B' :: '\'' :: (bs.flatMap Hex.byte ++ ['\'']))) =
      String.ofList (bs.flatMap Hex.byte) :=
    Cut.inside_append ['B', '\''] _ ['\''] (by decide) (by decide)
  have hread : Literal.read
      ⟨.bytes, String.ofList ('B' :: '\'' :: (bs.flatMap Hex.byte ++ ['\''])), {}⟩ false =
      .ok (Literal.native .bytes bs) := by
    simp only [Literal.read, hcut, String.toList_ofList, Hex.readBytes?_bytes, Option.map_some,
      Literal.orFail]
  refine Legible.literal (by decide) (fun rest _ => ?_) rfl hread levels
  simpa using longest_bytes bs rest

theorem legible_char (c : Char) :
    Legible levels (String.ofList ('\'' :: (Escape.encodeChar '\'' c ++ ['\''])))
      (.scalar "char" (.char c)) := by
  have hcut : Cut.inside 1 1 (String.ofList ('\'' :: (Escape.encodeChar '\'' c ++ ['\'']))) =
      Escape.encode '\'' (String.singleton c) := by
    rw [Escape.encode]
    simpa using Cut.inside_append ['\''] (Escape.encodeChar '\'' c) ['\''] (by decide) (by decide)
  have hread : Literal.read
      ⟨.char, String.ofList ('\'' :: (Escape.encodeChar '\'' c ++ ['\''])), {}⟩ false =
      .ok (Literal.native .char c) := by
    have hdecode : Escape.decode (Escape.encode '\'' (String.singleton c)) = String.singleton c :=
      Escape.decode_encode rfl _
    simp only [Literal.read, hcut, hdecode]
    simp
  refine Legible.literal (by decide) (fun rest _ => ?_) rfl hread levels
  simpa using longest_char c rest

theorem legible_text (s : String) :
    Legible levels (String.ofList ('"' :: (s.toList.flatMap (Escape.encodeChar '"') ++ ['"'])))
      (.scalar "text" (.text s)) := by
  have hcut : Cut.inside 1 1
      (String.ofList ('"' :: (s.toList.flatMap (Escape.encodeChar '"') ++ ['"']))) =
      Escape.encode '"' s :=
    Cut.inside_append ['"'] _ ['"'] (by decide) (by decide)
  have hread : Literal.read
      ⟨.text, String.ofList ('"' :: (s.toList.flatMap (Escape.encodeChar '"') ++ ['"'])), {}⟩
      false = .ok (Literal.native .text s) := by
    have hdecode : Escape.decode (Escape.encode '"' s) = s := Escape.decode_encode rfl s
    simp only [Literal.read, hcut, hdecode]
  refine Legible.literal (by decide) (fun rest _ => ?_) rfl hread levels
  simpa using longest_text s.toList rest

/-- A quoted text behind a letter is read as what its inside stands for. -/
theorem legible_quotedAfter (letter : Char) (kind : TokenKind) {t : String → Literal.Typed}
    (hletter : (letter, kind) ∈ [('R', TokenKind.regex), ('F', .path)])
    (hread : ∀ text, Literal.read ⟨kind, text, {}⟩ false =
      .ok (t (Escape.decode (Cut.inside 2 1 text)))) (s : String) :
    Legible levels
      (String.ofList (letter :: '"' :: (s.toList.flatMap (Escape.encodeChar '"') ++ ['"'])))
      (.scalar (t s).type (t s).value) := by
  have hall : ∀ l ∈ [('R', TokenKind.regex), ('F', .path)],
      (String.ofList [l.1, '"']).utf8ByteSize = 2 ∧ l.1 ∉ stopChars ∧ l.2.isLiteral = true := by
    decide
  obtain ⟨hsize, hhead, hkind⟩ := hall _ hletter
  -- letter and quotes are cut off before the escapes are read
  have hcut : Cut.inside 2 1
      (String.ofList (letter :: '"' :: (s.toList.flatMap (Escape.encodeChar '"') ++ ['"']))) =
      Escape.encode '"' s :=
    Cut.inside_append [letter, '"'] (s.toList.flatMap (Escape.encodeChar '"')) ['"']
      hsize (by decide)
  have hself := hread
    (String.ofList (letter :: '"' :: (s.toList.flatMap (Escape.encodeChar '"') ++ ['"'])))
  rw [hcut, Escape.decode_encode rfl] at hself
  refine Legible.literal hhead (fun rest _ => ?_) hkind hself levels
  simpa using longest_quotedAfter hletter s.toList rest

theorem legible_sigil {s : String} (hs : IsWord s.toList) :
    Legible levels (String.ofList ('$' :: s.toList)) (.scalar "syntax" (.name s)) := by
  have hcut : Cut.inside 1 0 (String.ofList ('$' :: s.toList)) = s := by
    rw [Cut.inside_mark (by decide) String.toList_ofList, String.ofList_toList]
  have hread : Literal.read ⟨.sigil, String.ofList ('$' :: s.toList), {}⟩ false =
      .ok ⟨"syntax", .name s⟩ := by
    simp only [Literal.read, hcut]
  refine Legible.literal (by decide) (fun rest hrest => ?_) rfl hread levels
  exact longest_sigil hs (hrest.breaks.imp fun _ h => h.1)

theorem legible_namePath {p : List Char} (hp : IsPath p) :
    Legible levels (String.ofList ('@' :: p))
      (.scalar "namepath" (.namePath ((p.splitOn '.').map String.ofList))) := by
  have hcut : Cut.inside 1 0 (String.ofList ('@' :: p)) = String.ofList p :=
    Cut.inside_mark (by decide) String.toList_ofList
  have hread : Literal.read ⟨.namePath, String.ofList ('@' :: p), {}⟩ false =
      .ok (Literal.native .namePath ((p.splitOn '.').map String.ofList)) := by
    simp only [Literal.read, hcut, String.toList_ofList]
  refine Legible.literal (by decide) (fun rest hrest => ?_) rfl hread levels
  have hall : ∀ c ∈ stopChars, isWordPart c = false ∧ c ≠ '.' := by decide
  exact longest_path hp (hrest.imp hall)

theorem legible_name {s : String} (hs : IsIdent s) :
    Legible levels s (.scalar "name" (.name s)) := by
  refine ⟨hs.clear.1, ?_⟩
  rw [hs.clear.2]
  exact ⟨fun tuple rest => rfl, ⟨_, _, rfl, by simp, fun _ => rfl⟩, by simp⟩

end Legible

/-- The text of a scalar that a literal stands for is read back as the scalar. -/
theorem Literal.Stands.legible {forms : TextForms} {type : String} {v : Value} (h : Stands type v)
    (levels : Nat) :
    Legible levels (Datum.scalarText forms type v) (.scalar type v) := by
  cases h with
  | void =>
    rw [Datum.scalarText_eq rfl]
    exact Legible.single clear_void rfl rfl levels
  | bool b =>
    rw [Datum.scalarText_eq rfl]
    cases b with
    | true =>
      -- the two truth values are reserved words
      have hw : IsWord "true".toList := ⟨'t', ['r', 'u', 'e'], rfl, by decide, by decide⟩
      have hclear : Clear "true" ∧ lexemes "true".toList = [⟨.trueWord, "true"⟩] :=
        clear_reserved (by decide) hw
      exact Legible.single hclear rfl rfl levels
    | false =>
      have hw : IsWord "false".toList := ⟨'f', ['a', 'l', 's', 'e'], rfl, by decide, by decide⟩
      have hclear : Clear "false" ∧ lexemes "false".toList = [⟨.falseWord, "false"⟩] :=
        clear_reserved (by decide) hw
      exact Legible.single hclear rfl rfl levels
  | byte b =>
    rw [Datum.scalarText_eq rfl]
    simpa [Value.hexText] using legible_byte levels b
  | char c =>
    rw [Datum.scalarText_eq rfl]
    simpa [Value.charText, Escape.encode] using legible_char levels c
  | int n =>
    rw [Datum.scalarText_eq rfl]
    exact legible_int levels n
  | long n =>
    rw [Datum.scalarText_eq rfl]
    exact legible_long levels n
  | index n =>
    rw [Datum.scalarText_eq rfl]
    simpa [Value.plainText, Nat.toString_eq_ofList_toDigits] using legible_index levels n
  | bits n =>
    rw [Datum.scalarText_eq rfl]
    simpa [Value.hexText, Hex.number] using legible_bits levels n
  | name hs =>
    rw [Datum.scalarText_eq rfl]
    simpa [Value.plainText] using legible_name levels hs
  | sigil hs =>
    rw [Datum.scalarText_eq rfl]
    simpa [Value.plainText] using legible_sigil levels hs
  | bytes bs =>
    rw [Datum.scalarText_eq rfl]
    simpa [Value.hexText, Hex.bytes] using legible_bytes levels bs
  | text s =>
    rw [Datum.scalarText_eq rfl]
    simpa [Value.quotedText, Escape.encode] using legible_text levels s
  | regex s =>
    rw [Datum.scalarText_eq rfl]
    have h := legible_quotedAfter levels 'R' .regex (t := Literal.native .regex) (by decide)
      (fun _ => rfl) s
    simpa [Value.quotedText, Escape.encode, native, Native.typeName, Native.wrap] using h
  | path s =>
    rw [Datum.scalarText_eq rfl]
    have h := legible_quotedAfter levels 'F' .path (t := Literal.native .path) (by decide)
      (fun _ => rfl) s
    simpa [Value.quotedText, Escape.encode, native, Native.typeName, Native.wrap] using h
  | @namePath p hp =>
    rw [Datum.scalarText_eq rfl]
    -- the parts of a path are joined to the text that they were split from
    have hjoin : (Value.plainText (.namePath ((p.splitOn '.').map String.ofList))).toList = p := by
      rw [Value.plainText, String.toList_intercalate, List.map_map]
      simp [Function.comp_def]
    rw [hjoin]
    simpa using legible_namePath levels hp

end TupleLang
