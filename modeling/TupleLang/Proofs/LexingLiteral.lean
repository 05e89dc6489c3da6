import TupleLang.Proofs.Lexing
import TupleLang.Text.Escape
import TupleLang.Text.Hex

/-!
# Lexing literals

The match at the front of a text that starts with a literal, for every kind of literal but floating
point numbers, and what the texts of lexemes look like that have come out of the lexer.
-/

namespace TupleLang.Lexer

/-! ## Numbers -/

section Numbers

variable {c : Char} {ds rest : List Char}

/-- Digits, at least one. -/
def IsNumeral (ds : List Char) : Prop := ds ≠ [] ∧ ∀ d ∈ ds, d.isDigit = true

/-- No spelling and nothing blank starts with a digit. -/
theorem fixed_digit (hc : c.isDigit = true) (cs : List Char) :
    (∀ q ∈ blankRules, q.size (c :: cs) = 0) ∧ ∀ q ∈ spellings, fixed q.1 (c :: cs) = 0 := by
  refine ⟨fun q hq => ?_, fun q hq => ?_⟩
  · simp only [blankRules, List.mem_cons, List.not_mem_nil, or_false] at hq
    -- a digit is no blank, and a comment begins with a slash
    rcases hq with rfl | rfl
    · refine run_eq_zero (front_cons.mpr ?_)
      cases hblank : isBlank c with
      | false => rfl
      | true =>
        simp only [isBlank, Bool.or_eq_true, beq_iff_eq] at hblank
        rcases hblank with (((rfl | rfl) | rfl) | rfl) | rfl <;> exact absurd hc (by decide)
    · dsimp only
      cases hsize : comment (c :: cs) with
      | zero => rfl
      | succ n =>
        obtain ⟨t, ht⟩ := opening_comment (by rw [hsize]; exact Nat.succ_ne_zero n)
        exact absurd (List.cons.inj ht).1.symm (ne_of_class hc (by decide))
  · exact fixed_eq_zero (p := Char.isDigit) (by decide) hc q hq

/-- A literal that starts with a digit is a number. -/
theorem literal_digit (hc : c.isDigit = true) {cs : List Char} {q : Rule} (hq : q ∈ literalRules)
    (hkind : q.kind ∉ numberKinds) : q.size (c :: cs) = 0 := by
  by_cases hident : q.kind = some .ident
  · rw [size_ident hq hident, word, if_neg (by simp [isWordStart_of_isDigit hc])]
  · refine literal_eq_zero hq hident (fun h => absurd h hkind) (not_opening fun hmem => ?_)
    have hall : ∀ c ∈ openings.flatMap (·.2.take 1), c.isDigit = false := by decide
    rw [hall c hmem] at hc
    cases hc

/-- A number wins over everything that is no number. -/
theorem longest_number {kind : TokenKind} {n : Nat} (hc : c.isDigit = true) {cs : List Char}
    (hpos : 0 < n) (hmem : ∃ r ∈ literalRules, r.size (c :: cs) = n)
    (hnumbers : ∀ q ∈ literalRules, q.kind ∈ numberKinds →
      (q.kind = some kind ∧ q.size (c :: cs) = n) ∨ q.size (c :: cs) < n) :
    longest (c :: cs) = (some kind, n) := by
  obtain ⟨hblank, hspelling⟩ := fixed_digit hc cs
  refine longest_literal hpos hmem (fun q hq => by rw [hblank q hq]; exact hpos)
    (fun q hq => by rw [hspelling q hq]; exact hpos) fun q hq => ?_
  by_cases hkind : q.kind ∈ numberKinds
  · exact hnumbers q hq hkind
  · exact .inr (by rw [literal_digit hc hq hkind]; exact hpos)

/-- The sizes of the rules for numbers, where a numeral is followed by no digit, point or
exponent. -/
theorem sizes_numeral (hds : IsNumeral ds)
    (hrest : Front (fun c => c.isDigit = false ∧ c ∉ ['.', 'e', 'E', 'x']) rest) :
    run Char.isDigit (ds ++ rest) = ds.length ∧ floatNumber (ds ++ rest) = 0 ∧
      hexNumber (ds ++ rest) = 0 ∧
        ∀ letter, suffixed letter (ds ++ rest) =
          if rest.head? = some letter then ds.length + 1 else 0 := by
  have hrun : run Char.isDigit (ds ++ rest) = ds.length :=
    run_append hds.2 (hrest.imp fun _ h => h.1)
  have hpos : ds.length ≠ 0 := fun h => hds.1 (List.length_eq_zero_iff.mp h)
  refine ⟨hrun, ?_, ?_, fun letter => ?_⟩
  · simp only [floatNumber, hrun, if_neg hpos, List.drop_left]
    cases rest with
    | nil => rfl
    | cons d rest =>
      have hd := (front_cons.mp hrest).2
      simp only [List.mem_cons, not_or] at hd
      split
      · rename_i heq
        exact absurd (List.cons.inj heq).1 hd.1
      · simp [exponent, hd.2.1, hd.2.2.1, after]
  · cases hsize : hexNumber (ds ++ rest) with
    | zero => rfl
    | succ n =>
      exfalso
      obtain ⟨t, ht⟩ := digit_hexNumber (by rw [hsize]; exact Nat.succ_ne_zero n)
      obtain ⟨hne, hall⟩ := hds
      cases ds with
      | nil => exact hne rfl
      | cons d ds =>
        -- a hexadecimal number would have an `x` behind its first digit
        have hsecond : Front (· ≠ 'x') (ds ++ rest) := by
          refine Front.append (fun e he => ?_) (hrest.imp fun e he => ?_)
          · exact ne_of_class (hall e (List.mem_cons_of_mem d he)) (by decide)
          · rintro rfl
            exact he.2 (by decide)
        have htail : 'x' :: t = ds ++ rest := (List.cons.inj ht).2
        exact hsecond 'x' (by rw [← htail]; rfl) rfl
  · simp only [suffixed, hrun]
    simp [hpos, List.head?_eq_getElem?, List.getElem?_append_right (Nat.le_refl ds.length)]

/-- The rules for numbers. -/
theorem size_number : ∀ q ∈ literalRules, q.kind ∈ numberKinds →
    (q.kind = some .long ∧ q.size = suffixed 'L') ∨ (q.kind = some .index ∧ q.size = suffixed 'u') ∨
      (q.kind = some .bits ∧ q.size = hexNumber) ∨
        (q.kind = some .int ∧ q.size = run Char.isDigit) ∨
        (q.kind = some .float ∧ q.size = floatNumber) := by
  simp [literalRules, numberKinds]

/-- A numeral is a number without a suffix. -/
theorem longest_numeral (hds : IsNumeral ds) (hrest : Stops rest) :
    longest (ds ++ rest) = (some .int, ds.length) := by
  have hall : ∀ c ∈ stopChars, c.isDigit = false ∧ c ∉ ['.', 'e', 'E', 'x'] := by decide
  obtain ⟨hrun, hfloat, hhex, hsuffixed⟩ := sizes_numeral hds (hrest.imp hall)
  have hnone : ∀ letter ∈ ['L', 'u'], suffixed letter (ds ++ rest) = 0 := by
    intro letter hletter
    have hnot : ∀ letter ∈ ['L', 'u'], letter ∉ stopChars := by decide
    rw [hsuffixed, if_neg fun h => hnot letter hletter (hrest letter h)]
  obtain ⟨hne, hdigits⟩ := hds
  cases ds with
  | nil => exact absurd rfl hne
  | cons d ds =>
    rw [List.cons_append] at *
    refine longest_number (hdigits d List.mem_cons_self) (Nat.succ_pos _)
      ⟨⟨some .int, run Char.isDigit⟩, by simp [literalRules], hrun⟩ fun q hq hkind => ?_
    -- only the rules for numbers match behind a digit, and of them the plain one goes furthest
    rcases size_number q hq hkind with ⟨hk, hs⟩ | ⟨hk, hs⟩ | ⟨hk, hs⟩ | ⟨hk, hs⟩ | ⟨hk, hs⟩
    · exact .inr (by rw [hs, hnone 'L' (by decide)]; exact Nat.succ_pos _)
    · exact .inr (by rw [hs, hnone 'u' (by decide)]; exact Nat.succ_pos _)
    · exact .inr (by rw [hs, hhex]; exact Nat.succ_pos _)
    · exact .inl ⟨hk, by rw [hs, hrun]⟩
    · exact .inr (by rw [hs, hfloat]; exact Nat.succ_pos _)

/-- A numeral with a suffix is matched with it. -/
theorem longest_suffixed (hds : IsNumeral ds) {letter : Char} {kind : TokenKind}
    (hletter : (letter, kind) ∈ [('L', TokenKind.long), ('u', .index)]) (rest : List Char) :
    longest (ds ++ letter :: rest) = (some kind, ds.length + 1) := by
  have hall : ∀ l ∈ [('L', TokenKind.long), ('u', .index)],
      l.1.isDigit = false ∧ l.1 ∉ ['.', 'e', 'E', 'x'] := by decide
  obtain ⟨hrun, hfloat, hhex, hsuffixed⟩ :=
    sizes_numeral hds (front_cons.mpr (hall _ hletter) : Front _ (letter :: rest))
  simp only [List.head?_cons, Option.some.injEq] at hsuffixed
  obtain ⟨hne, hdigits⟩ := hds
  cases ds with
  | nil => exact absurd rfl hne
  | cons d ds =>
    rw [List.cons_append] at *
    have hsize := hsuffixed letter
    rw [if_pos rfl] at hsize
    refine longest_number (hdigits d List.mem_cons_self) (Nat.succ_pos _) ?_ fun q hq hkind => ?_
    · simp only [List.mem_cons, Prod.mk.injEq, List.not_mem_nil, or_false] at hletter
      rcases hletter with ⟨rfl, rfl⟩ | ⟨rfl, rfl⟩
      · exact ⟨⟨some .long, suffixed 'L'⟩, by simp [literalRules], hsize⟩
      · exact ⟨⟨some .index, suffixed 'u'⟩, by simp [literalRules], hsize⟩
    · simp only [List.mem_cons, Prod.mk.injEq, List.not_mem_nil, or_false] at hletter
      -- the rule with the same suffix takes one character more than all others
      rcases size_number q hq hkind with ⟨hk, hs⟩ | ⟨hk, hs⟩ | ⟨hk, hs⟩ | ⟨hk, hs⟩ | ⟨hk, hs⟩
      · rcases hletter with ⟨rfl, rfl⟩ | ⟨rfl, rfl⟩
        · exact .inl ⟨hk, by rw [hs, hsize]⟩
        · exact .inr (by rw [hs, hsuffixed, if_neg (by decide)]; exact Nat.succ_pos _)
      · rcases hletter with ⟨rfl, rfl⟩ | ⟨rfl, rfl⟩
        · exact .inr (by rw [hs, hsuffixed, if_neg (by decide)]; exact Nat.succ_pos _)
        · exact .inl ⟨hk, by rw [hs, hsize]⟩
      · exact .inr (by rw [hs, hhex]; exact Nat.succ_pos _)
      · exact .inr (by rw [hs, hrun]; exact Nat.lt_succ_self _)
      · exact .inr (by rw [hs, hfloat]; exact Nat.succ_pos _)

/-- A number of base sixteen is matched as a whole. -/
theorem longest_hexNumber {hs : List Char} (hne : hs ≠ []) (hhex : ∀ c ∈ hs, isHexDigit c = true)
    (hrest : Stops rest) :
    longest ('0' :: 'x' :: (hs ++ rest)) = (some .bits, hs.length + 2) := by
  have hall : ∀ c ∈ stopChars, isHexDigit c = false := by decide
  have hpos : hs.length ≠ 0 := fun h => hne (List.length_eq_zero_iff.mp h)
  have hsize : hexNumber ('0' :: 'x' :: (hs ++ rest)) = hs.length + 2 := by
    rw [hexNumber, run_append hhex (hrest.imp hall), after, if_neg hpos, Nat.add_comm]
  refine longest_number (by decide) (Nat.succ_pos _)
    ⟨⟨some .bits, hexNumber⟩, by simp [literalRules], hsize⟩ fun q hq hkind => ?_
  -- all other rules stop at the `x`
  rcases size_number q hq hkind with ⟨hk, hs'⟩ | ⟨hk, hs'⟩ | ⟨hk, hs'⟩ | ⟨hk, hs'⟩ | ⟨hk, hs'⟩
  · exact .inr (by rw [hs']; simp [suffixed, run])
  · exact .inr (by rw [hs']; simp [suffixed, run])
  · exact .inl ⟨hk, by rw [hs', hsize]⟩
  · exact .inr (by rw [hs']; simp [run])
  · exact .inr (by rw [hs']; simp [floatNumber, run, exponent, after])

end Numbers

/-! ## Literals with an opening -/

section Opened

variable {w rest : List Char}

/-- No spelling and nothing blank starts like an opening. -/
theorem fixed_opening {e : TokenKind × List Char} (he : e ∈ openings) {t : List Char} :
    (∀ q ∈ blankRules, q.size (e.2 ++ t) = 0) ∧ ∀ q ∈ spellings, fixed q.1 (e.2 ++ t) = 0 := by
  obtain ⟨c, cs, hcs, hblank, hslash⟩ : ∃ c cs, e.2 = c :: cs ∧ isBlank c = false ∧ c ≠ '/' := by
    have hall : ∀ e ∈ openings, e.2.head?.any (fun c => !isBlank c && c != '/') = true := by decide
    have hhead := hall e he
    cases htext : e.2 with
    | nil => simp [htext] at hhead
    | cons c cs => exact ⟨c, cs, rfl, by simpa [htext] using hhead⟩
  refine ⟨fun q hq => ?_, fun q hq => ?_⟩
  · rw [hcs, List.cons_append]
    simp only [blankRules, List.mem_cons, List.not_mem_nil, or_false] at hq
    rcases hq with rfl | rfl
    · exact run_eq_zero (front_cons.mpr hblank)
    · dsimp only
      cases hsize : comment (c :: (cs ++ t)) with
      | zero => rfl
      | succ n =>
        obtain ⟨u, hu⟩ := opening_comment (by rw [hsize]; exact Nat.succ_ne_zero n)
        exact absurd (List.cons.inj hu).1.symm hslash
  · -- no opening begins like a spelling
    have hall : ∀ e ∈ openings, ∀ q ∈ spellings, ¬q.1.toList <+: e.2 ∧ ¬e.2 <+: q.1.toList := by
      decide
    cases hsize : fixed q.1 (e.2 ++ t) with
    | zero => rfl
    | succ n =>
      have hprefix := prefix_of_fixed (by rw [hsize]; exact Nat.succ_ne_zero n)
      rcases List.prefix_or_prefix_of_prefix hprefix (List.prefix_append e.2 t) with h | h
      · exact absurd h (hall e he q hq).1
      · exact absurd h (hall e he q hq).2

/-- A literal that begins with an opening is of its kind, unless it is opened only. -/
theorem kind_of_opened {e : TokenKind × List Char} (he : e ∈ openings) {q : Rule}
    (hq : q ∈ literalRules) (hident : q.kind ≠ some .ident) {t : List Char}
    (h : q.size (e.2 ++ t) ≠ 0) : q.kind = some e.1 ∨ q.kind = some .invalid := by
  rcases opening_of_literal hq hident h with ⟨-, hrun⟩ | ⟨f, hf, hprefix, hkind⟩
  · exfalso
    have hall : ∀ e ∈ openings, e.2.head?.any (!·.isDigit) = true := by decide
    obtain ⟨d, u, hu, hd⟩ := head_of_run hrun
    have hhead := hall e he
    cases htext : e.2 with
    | nil => simp [htext] at hhead
    | cons c cs =>
      rw [htext] at hu hhead
      rw [(List.cons.inj hu).1, List.head?_cons, Option.any_some, hd] at hhead
      cases hhead
  · -- the openings differ at the front, so the text has only one of them
    have hall : ∀ e ∈ openings, ∀ f ∈ openings, e.2 <+: f.2 → f = e := by decide
    have hfe : f = e := by
      rcases List.prefix_or_prefix_of_prefix hprefix (List.prefix_append e.2 t) with h | h
      · exact (hall f hf e he h).symm
      · exact hall e he f hf h
    rwa [hfe] at hkind

/-- A completed literal behind an opening wins. -/
theorem longest_opened {e : TokenKind × List Char} (he : e ∈ openings) {t : List Char} {n : Nat}
    (hn : 1 < n) (hsize : ∀ q ∈ literalRules, q.kind = some e.1 → q.size (e.2 ++ t) = n)
    (hquoted : quotedOpening (e.2 ++ t) < n) (hbytes : bytesOpening (e.2 ++ t) < n)
    (hword : word (e.2 ++ t) ≤ 1) : longest (e.2 ++ t) = (some e.1, n) := by
  obtain ⟨hblank, hspelling⟩ := fixed_opening he (t := t)
  have hpos : 0 < n := Nat.lt_of_succ_lt hn
  refine longest_literal hpos ?_ (fun q hq => by rw [hblank q hq]; exact hpos)
    (fun q hq => by rw [hspelling q hq]; exact hpos) fun q hq => ?_
  · have hall : ∀ e ∈ openings, some e.1 ∈ literalRules.map (·.kind) := by decide
    obtain ⟨r, hr, hkind⟩ := List.mem_map.mp (hall e he)
    exact ⟨r, hr, hsize r hr hkind⟩
  · by_cases hzero : q.size (e.2 ++ t) = 0
    · exact .inr (by rw [hzero]; exact hpos)
    -- besides the literal, its letter may be read as a word, or the opening alone
    by_cases hident : q.kind = some .ident
    · exact .inr (by rw [size_ident hq hident]; exact Nat.lt_of_le_of_lt hword hn)
    rcases kind_of_opened he hq hident hzero with hkind | hkind
    · exact .inl ⟨hkind, hsize q hq hkind⟩
    · have hinvalid : ∀ q ∈ literalRules, q.kind = some .invalid →
          q.size = quotedOpening ∨ q.size = bytesOpening := by simp [literalRules]
      rcases hinvalid q hq hkind with h | h
      · exact .inr (h ▸ hquoted)
      · exact .inr (h ▸ hbytes)

/-- The digits of hexadecimal numbers. -/
theorem isHexDigit_digitChar {n : Nat} (hn : n < 16) : isHexDigit n.digitChar = true := by
  have hall : ∀ n < 16, isHexDigit (Nat.digitChar n) = true := by decide
  exact hall n hn

/-- The digits of a byte are two. -/
theorem byte_digits (b : UInt8) :
    ∃ x y, Hex.byte b = [x, y] ∧ isHexDigit x = true ∧ isHexDigit y = true := by
  have hb : b.toNat < 256 := UInt8.toNat_lt b
  exact ⟨_, _, rfl, isHexDigit_digitChar (by omega), isHexDigit_digitChar (by omega)⟩

/-- A byte is matched as a whole. -/
theorem longest_byte (b : UInt8) (rest : List Char) :
    longest (['b', '\''] ++ (Hex.byte b ++ '\'' :: rest)) = (some .byte, 5) := by
  obtain ⟨x, y, hb, hx, hy⟩ := byte_digits b
  refine longest_opened (e := (.byte, ['b', '\''])) (by decide) (by decide) ?_ ?_ ?_ ?_
  · simp [literalRules, byteLiteral, hb, hx, hy]
  · simp [quotedOpening]
  · simp [bytesOpening]
  · simp [word, run, isWordStart, isWordPart]

/-- The digits of bytes are read up to the quote. -/
theorem hexPairs_bytes (bs : List UInt8) (rest : List Char) :
    hexPairs (bs.flatMap Hex.byte ++ '\'' :: rest) = (bs.flatMap Hex.byte).length ∧
      hexPairsInside (bs.flatMap Hex.byte ++ '\'' :: rest) = (bs.flatMap Hex.byte).length := by
  have hquote : isHexDigit '\'' = false := by decide
  induction bs with
  | nil =>
    cases rest with
    | nil => simp [hexPairs, hexPairsInside]
    | cons c rest => cases rest <;> simp [hexPairs, hexPairsInside, hquote]
  | cons b bs ih =>
    obtain ⟨x, y, hb, hx, hy⟩ := byte_digits b
    -- there is something behind every pair, the closing quote at the latest
    obtain ⟨c, cs, hcs⟩ : ∃ c cs, bs.flatMap Hex.byte ++ '\'' :: rest = c :: cs := by
      cases bs.flatMap Hex.byte with
      | nil => exact ⟨_, _, rfl⟩
      | cons c cs => exact ⟨_, _, rfl⟩
    have hsplit : (b :: bs).flatMap Hex.byte ++ '\'' :: rest =
        x :: y :: (bs.flatMap Hex.byte ++ '\'' :: rest) := by simp [hb]
    have hlength : ((b :: bs).flatMap Hex.byte).length = 2 + (bs.flatMap Hex.byte).length := by
      rw [List.flatMap_cons, List.length_append, hb, List.length_cons, List.length_singleton]
    rw [hsplit, hlength]
    refine ⟨?_, ?_⟩
    · rw [hexPairs, if_pos (by simp [hx, hy]), ih.1]
    · rw [hcs] at ih ⊢
      rw [hexPairsInside, if_pos (by simp [hx, hy]), ih.2]

/-- A byte string is matched as a whole. -/
theorem longest_bytes (bs : List UInt8) (rest : List Char) :
    longest (['B', '\''] ++ (bs.flatMap Hex.byte ++ '\'' :: rest)) =
      (some .bytes, (bs.flatMap Hex.byte).length + 3) := by
  obtain ⟨hpairs, hinside⟩ := hexPairs_bytes bs rest
  refine longest_opened (e := (.bytes, ['B', '\''])) (by decide) (by omega) ?_ ?_ ?_ ?_
  · simp [literalRules, bytesLiteral, hpairs]
  · simp [quotedOpening]
  · simp only [List.cons_append, List.nil_append, bytesOpening, hinside]
    omega
  · simp [word, run, isWordStart, isWordPart]

/-- A character is matched with its quotes. -/
theorem longest_char (c : Char) (rest : List Char) :
    longest (['\''] ++ (Escape.encodeChar '\'' c ++ '\'' :: rest)) =
      (some .char, (Escape.encodeChar '\'' c).length + 2) := by
  refine longest_opened (e := (.char, ['\''])) (by decide) (by omega) ?_ ?_ ?_ ?_
  · suffices hsize : charLiteral ('\'' :: (Escape.encodeChar '\'' c ++ '\'' :: rest)) =
        (Escape.encodeChar '\'' c).length + 2 by simp [literalRules, hsize]
    unfold Escape.encodeChar
    split
    · rfl
    · split
      · rfl
      · split
        · rfl
        · split
          · rfl
          · split
            · rename_i hquote
              subst hquote
              rfl
            · rename_i hslash _ _ _ hquote
              simp [charLiteral, hslash, hquote]
  · simp [quotedOpening]
  · simp [bytesOpening]
  · simp [word, isWordStart]

/-- An encoded text consists of items of a quoted literal. -/
theorem quotedItems_encode (cs rest : List Char) :
    quotedItems (cs.flatMap (Escape.encodeChar '"') ++ '"' :: rest) =
      (cs.flatMap (Escape.encodeChar '"')).length := by
  induction cs with
  | nil => simp [quotedItems]
  | cons c cs ih =>
    rw [List.flatMap_cons, List.append_assoc, List.length_append, ← ih]
    generalize cs.flatMap (Escape.encodeChar '"') ++ '"' :: rest = t
    unfold Escape.encodeChar
    split
    · simp [quotedItems]
    · split
      · simp [quotedItems]
      · split
        · simp [quotedItems]
        · split
          · simp [quotedItems]
          · split
            · rename_i hquote
              subst hquote
              simp [quotedItems]
            · rename_i hslash _ _ _ hquote
              simp [quotedItems, hslash, hquote]

/-- The length of a quoted literal behind its opening. -/
theorem closedQuote_encode (n : Nat) (cs rest : List Char) :
    closedQuote n (cs.flatMap (Escape.encodeChar '"') ++ '"' :: rest) =
      n + (cs.flatMap (Escape.encodeChar '"')).length + 1 := by
  simp [closedQuote, quotedItems_encode]

/-- A text is matched with its quotes. -/
theorem longest_text (cs rest : List Char) :
    longest (['"'] ++ (cs.flatMap (Escape.encodeChar '"') ++ '"' :: rest)) =
      (some .text, (cs.flatMap (Escape.encodeChar '"')).length + 2) := by
  refine longest_opened (e := (.text, ['"'])) (by decide) (by omega) ?_ ?_ ?_ ?_
  · suffices hsize : quoted ('"' :: (cs.flatMap (Escape.encodeChar '"') ++ '"' :: rest)) =
        (cs.flatMap (Escape.encodeChar '"')).length + 2 by simp [literalRules, hsize]
    rw [quoted, closedQuote_encode]
    omega
  · simp only [List.cons_append, List.nil_append, quotedOpening, quotedItems_encode]
    omega
  · simp [bytesOpening]
  · simp [word, isWordStart]

/-- A regular expression or a path of files is matched with its letter and its quotes. -/
theorem longest_quotedAfter {letter : Char} {kind : TokenKind}
    (hletter : (letter, kind) ∈ [('R', TokenKind.regex), ('F', .path)]) (cs rest : List Char) :
    longest ([letter, '"'] ++ (cs.flatMap (Escape.encodeChar '"') ++ '"' :: rest)) =
      (some kind, (cs.flatMap (Escape.encodeChar '"')).length + 3) := by
  have hsize :
    quotedAfter letter (letter :: '"' :: (cs.flatMap (Escape.encodeChar '"') ++ '"' :: rest)) =
      (cs.flatMap (Escape.encodeChar '"')).length + 3 := by
    rw [quotedAfter, if_pos (beq_self_eq_true letter), closedQuote_encode]
    omega
  simp only [List.mem_cons, Prod.mk.injEq, List.not_mem_nil, or_false] at hletter
  have hmem : (kind, [letter, '"']) ∈ openings := by
    rcases hletter with ⟨rfl, rfl⟩ | ⟨rfl, rfl⟩ <;> decide
  refine longest_opened hmem (by omega) ?_ ?_ ?_ ?_
  · rcases hletter with ⟨rfl, rfl⟩ | ⟨rfl, rfl⟩ <;> simp [literalRules, hsize]
  · rcases hletter with ⟨rfl, rfl⟩ | ⟨rfl, rfl⟩ <;>
      simp only [List.cons_append, List.nil_append, quotedOpening, quotedItems_encode] <;> omega
  · rcases hletter with ⟨rfl, rfl⟩ | ⟨rfl, rfl⟩ <;> simp [bytesOpening]
  · rcases hletter with ⟨rfl, rfl⟩ | ⟨rfl, rfl⟩ <;> simp [word, run, isWordPart, isWordStart]

/-- A name behind its mark is matched with it. -/
theorem longest_sigil (hw : IsWord w) (hrest : Front (isWordPart · = false) rest) :
    longest (['$'] ++ (w ++ rest)) = (some .sigil, w.length + 1) := by
  have hpos : w.length ≠ 0 := fun h => hw.ne_nil (List.length_eq_zero_iff.mp h)
  refine longest_opened (e := (.sigil, ['$'])) (by decide) (by omega) ?_ ?_ ?_ ?_
  · simp [literalRules, sigilName, word_append hw hrest, after, hpos, Nat.add_comm]
  · simp [quotedOpening]
  · simp [bytesOpening]
  · simp [word, isWordStart]

/-- A dotted path of names. -/
def IsPath (p : List Char) : Prop :=
  ∃ c cs, p = c :: cs ∧ isWordStart c = true ∧ pathRest cs = cs.length

/-- The rest of a path ends in front of what is no part of it. -/
theorem pathRest_append {p rest : List Char} (hp : pathRest p = p.length)
    (hrest : Front (fun c => isWordPart c = false ∧ c ≠ '.') rest) :
    pathRest (p ++ rest) = p.length := by
  induction p with
  | nil =>
    cases rest with
    | nil => rfl
    | cons c rest =>
      obtain ⟨hpart, hdot⟩ := front_cons.mp hrest
      simp [pathRest, hpart, hdot]
  | cons c p ih =>
    rw [pathRest] at hp
    rw [List.cons_append, pathRest]
    by_cases hpart : isWordPart c = true
    · rw [if_pos hpart] at hp ⊢
      rw [List.length_cons] at hp ⊢
      rw [ih (by omega)]
      omega
    · rw [if_neg hpart] at hp ⊢
      by_cases hdot : (c == '.' && p.head?.any isWordStart) = true
      · rw [if_pos hdot, List.length_cons] at hp
        -- a point inside the path has a name behind it, also without the rest
        have hhead : (p ++ rest).head?.any isWordStart = true := by
          rw [Bool.and_eq_true] at hdot
          cases p with
          | nil => simp at hdot
          | cons d p => exact hdot.2
        rw [Bool.and_eq_true] at hdot
        rw [if_pos (by rw [hdot.1, hhead]; rfl), ih (by omega), List.length_cons]
        omega
      · rw [if_neg hdot] at hp
        simp at hp

/-- The rest of a path is a rest of a path on its own. -/
theorem pathRest_take (cs : List Char) : pathRest (cs.take (pathRest cs)) = pathRest cs := by
  induction cs with
  | nil => rfl
  | cons c cs ih =>
    rw [pathRest]
    by_cases hpart : isWordPart c = true
    · rw [if_pos hpart, Nat.add_comm 1, List.take_succ_cons, pathRest, if_pos hpart,
        ih, Nat.add_comm]
    · rw [if_neg hpart]
      by_cases hdot : (c == '.' && cs.head?.any isWordStart) = true
      · rw [if_pos hdot, Nat.add_comm 1, List.take_succ_cons, pathRest, if_neg hpart]
        -- the name behind a point is still there when the path is cut off at its end
        have hhead : (cs.take (pathRest cs)).head?.any isWordStart = true := by
          rw [Bool.and_eq_true] at hdot
          cases cs with
          | nil => simp at hdot
          | cons d cs =>
            have hd : isWordStart d = true := by simpa using hdot.2
            rw [pathRest, if_pos (isWordPart_of_isWordStart hd), Nat.add_comm 1,
              List.take_succ_cons]
            simpa using hd
        rw [Bool.and_eq_true] at hdot
        rw [if_pos (by rw [hdot.1, hhead]; rfl), ih, Nat.add_comm]
      · rw [if_neg hdot]
        rfl

/-- A dotted path is matched with its mark. -/
theorem longest_path {p : List Char} (hp : IsPath p)
    (hrest : Front (fun c => isWordPart c = false ∧ c ≠ '.') rest) :
    longest (['@'] ++ (p ++ rest)) = (some .namePath, p.length + 1) := by
  obtain ⟨c, cs, rfl, hc, hcs⟩ := hp
  refine longest_opened (e := (.namePath, ['@'])) (by decide) (by simp) ?_ ?_ ?_ ?_
  · suffices hsize : dottedPath ('@' :: c :: (cs ++ rest)) = (c :: cs).length + 1 by
      simp [literalRules, hsize]
    rw [dottedPath, if_pos hc, pathRest_append hcs hrest, List.length_cons]
    omega
  · simp [quotedOpening]
  · simp [bytesOpening]
  · simp [word, isWordStart]

end Opened

/-! ## What lexemes look like -/

/-- The text of a lexeme fits its kind. -/
structure Fits (l : Lexeme) : Prop where
  spelling : l.kind ∈ spellings.map (·.2) → (l.text, l.kind) ∈ spellings
  ident : l.kind = .ident → IsWord l.text.toList ∧ l.text ∉ reserved
  sigil : l.kind = .sigil → ∃ w, l.text.toList = '$' :: w ∧ IsWord w
  path : l.kind = .namePath → ∃ p, l.text.toList = '@' :: p ∧ IsPath p
  number : l.kind ∈ [.int, .long] → ∃ c cs, l.text.toList = c :: cs ∧ c.isDigit = true

section Fits

variable {c : Char} {cs : List Char} {n : Nat}

theorem word_le (cs : List Char) : word cs ≤ cs.length := by
  cases cs with
  | nil => exact Nat.le_refl 0
  | cons c cs =>
    rw [word]
    split
    · have hle := (List.takeWhile_sublist (l := cs) isWordPart).length_le
      rw [run, List.length_cons]
      omega
    · exact Nat.zero_le _

theorem pathRest_le (cs : List Char) : pathRest cs ≤ cs.length := by
  induction cs with
  | nil => exact Nat.le_refl 0
  | cons c cs ih =>
    rw [pathRest, List.length_cons]
    split
    · omega
    · split
      · omega
      · exact Nat.zero_le _

/-- The word in front of a text is a word. -/
theorem isWord_take (h : 0 < word cs) : IsWord (cs.take (word cs)) := by
  cases cs with
  | nil => exact absurd h (Nat.lt_irrefl 0)
  | cons c cs =>
    rw [word] at h ⊢
    split at h
    · rename_i hc
      rw [if_pos hc, Nat.add_comm 1, List.take_succ_cons]
      refine ⟨c, _, rfl, hc, fun d hd => ?_⟩
      rw [run, ← List.prefix_iff_eq_take.mp (List.takeWhile_prefix isWordPart)] at hd
      exact List.all_eq_true.mp List.all_takeWhile d hd
    · exact absurd h (Nat.lt_irrefl 0)

/-- A match of the kind of a spelling is that spelling. -/
theorem spelling_of_longest {kind : TokenKind} (h : longest cs = (some kind, n))
    (hkind : kind ∈ spellings.map (·.2)) :
    (String.ofList (cs.take n), kind) ∈ spellings ∧ 0 < n := by
  have hvalid : ∀ k ∈ spellings.map (·.2), k ≠ .invalid := by decide
  obtain ⟨q, hq, hq', rfl, hpos⟩ := rule_of_longest h fun heq =>
    hvalid kind hkind (Option.some.inj heq)
  rw [rules, List.mem_append, List.mem_append] at hq
  -- blanks have no kind, and no literal has the kind of a spelling
  rcases hq with (hq | hq) | hq
  · have hnone : ∀ q ∈ blankRules, q.kind = none := by simp [blankRules]
    rw [hnone q hq] at hq'
    cases hq'
  · obtain ⟨entry, hentry, rfl⟩ := List.mem_map.mp hq
    have hprefix : entry.1.toList <+: cs := prefix_of_fixed (Nat.ne_of_gt hpos)
    refine ⟨?_, hpos⟩
    dsimp only at hq' ⊢
    rw [fixed_eq hprefix, ← String.length_toList, ← List.prefix_iff_eq_take.mp hprefix,
      String.ofList_toList, ← Option.some.inj hq']
    exact hentry
  · have hall : ∀ q ∈ literalRules, ∀ kind ∈ spellings.map (·.2), q.kind ≠ some kind := by decide
    exact absurd hq' (hall q hq kind hkind)

/-- An identifier in front of a text is a word that is not reserved. -/
theorem ident_of_longest (h : longest cs = (some .ident, n)) :
    IsWord (cs.take n) ∧ String.ofList (cs.take n) ∉ reserved ∧ 0 < n := by
  obtain ⟨⟨q, hq, hkind, hsize⟩, hspelling⟩ := literal_of_longest h (by decide) (by decide)
  rw [size_ident hq hkind] at hsize
  have hpos : 0 < n := Nat.zero_lt_of_lt (hspelling ("void", .voidWord) (by decide))
  refine ⟨hsize ▸ isWord_take (hsize ▸ hpos), fun hres => ?_, hpos⟩
  have hall : ∀ text ∈ reserved, ∃ q ∈ spellings, q.1 = text := by decide
  obtain ⟨entry, hentry, htext⟩ := hall _ hres
  have hprefix : entry.1.toList <+: cs := by
    rw [htext, String.toList_ofList]
    exact List.take_prefix n cs
  -- a reserved word would have matched as such, and the earlier rule would have won
  have hlt := hspelling entry hentry
  rw [fixed_eq hprefix, htext, String.length_ofList, List.length_take] at hlt
  have hle := word_le cs
  omega

/-- A lexeme with a sigil is a word behind it. -/
theorem sigil_of_longest (h : longest cs = (some .sigil, n)) :
    ∃ w, cs.take n = '$' :: w ∧ IsWord w := by
  obtain ⟨⟨q, hq, hkind, hsize⟩, hspelling⟩ := literal_of_longest h (by decide) (by decide)
  have hall : ∀ q ∈ literalRules, q.kind = some .sigil → q.size = sigilName := by
    simp [literalRules]
  rw [hall q hq hkind] at hsize
  have hpos : 0 < n := Nat.zero_lt_of_lt (hspelling ("void", .voidWord) (by decide))
  obtain ⟨t, rfl⟩ := opening_sigilName (by rw [hsize]; exact Nat.ne_of_gt hpos)
  simp only [List.cons_append, List.nil_append, sigilName, after] at hsize ⊢
  split at hsize
  · omega
  · rename_i hword
    refine ⟨t.take (word t), ?_, isWord_take (Nat.pos_of_ne_zero hword)⟩
    rw [← hsize, Nat.add_comm, List.take_succ_cons]

/-- A path of names is one behind its mark. -/
theorem path_of_longest (h : longest cs = (some .namePath, n)) :
    ∃ p, cs.take n = '@' :: p ∧ IsPath p := by
  obtain ⟨⟨q, hq, hkind, hsize⟩, hspelling⟩ := literal_of_longest h (by decide) (by decide)
  have hall : ∀ q ∈ literalRules, q.kind = some .namePath → q.size = dottedPath := by
    simp [literalRules]
  rw [hall q hq hkind] at hsize
  have hpos : 0 < n := Nat.zero_lt_of_lt (hspelling ("void", .voidWord) (by decide))
  unfold dottedPath at hsize
  split at hsize
  · rename_i c t
    split at hsize
    · rename_i hc
      refine ⟨c :: t.take (pathRest t), ?_, c, _, rfl, hc, ?_⟩
      · rw [← hsize, Nat.add_comm]
        rfl
      · have hle := pathRest_le t
        rw [pathRest_take, List.length_take]
        omega
    · omega
  · omega

/-- A number in front of a text begins with a digit. -/
theorem number_of_longest {kind : TokenKind} (hkind : kind ∈ [.int, .long])
    (h : longest cs = (some kind, n)) : ∃ c t, cs.take n = c :: t ∧ c.isDigit = true := by
  have hliteral : ∀ k ∈ [TokenKind.int, .long], (∀ q ∈ spellings, q.2 ≠ k) ∧
    k ≠ .invalid := by decide
  obtain ⟨hspelled, hvalid⟩ := hliteral kind hkind
  obtain ⟨⟨q, hq, hrule, hsize⟩, hspelling⟩ := literal_of_longest h hspelled hvalid
  have hpos : 0 < n := Nat.zero_lt_of_lt (hspelling ("void", .voidWord) (by decide))
  have hint : ∀ q ∈ literalRules, q.kind = some .int → q.size = run Char.isDigit := by
    simp [literalRules]
  have hlong : ∀ q ∈ literalRules, q.kind = some .long → q.size = suffixed 'L' := by
    simp [literalRules]
  -- both rules count the digits in front
  have hdigits : run Char.isDigit cs ≠ 0 := by
    rw [List.mem_cons, List.mem_singleton] at hkind
    rcases hkind with rfl | rfl
    · rw [hint q hq hrule] at hsize
      exact hsize ▸ Nat.ne_of_gt hpos
    · rw [hlong q hq hrule] at hsize
      exact digit_suffixed (hsize ▸ Nat.ne_of_gt hpos)
  obtain ⟨c, t, rfl, hc⟩ := head_of_run hdigits
  obtain ⟨m, rfl⟩ := Nat.exists_eq_succ_of_ne_zero (Nat.ne_of_gt hpos)
  exact ⟨c, t.take m, rfl, hc⟩

/-- The text of a match fits its kind. -/
theorem fits_of_longest {kind : TokenKind} (h : longest cs = (some kind, n)) :
    Fits ⟨kind, String.ofList (cs.take (max n 1))⟩ where
  -- what a token of a kind looks like, one kind after the other
  spelling hkind := by
    obtain ⟨hmem, hpos⟩ := spelling_of_longest h hkind
    rwa [Nat.max_eq_left hpos]
  ident hkind := by
    dsimp only at hkind
    subst hkind
    obtain ⟨hw, hres, hpos⟩ := ident_of_longest h
    rw [Nat.max_eq_left hpos, String.toList_ofList]
    exact ⟨hw, hres⟩
  sigil hkind := by
    dsimp only at hkind
    subst hkind
    obtain ⟨w, hw, hword⟩ := sigil_of_longest h
    refine ⟨w, ?_, hword⟩
    cases n with
    | zero => simp at hw
    | succ n => rw [Nat.max_eq_left (Nat.succ_pos n), String.toList_ofList, hw]
  path hkind := by
    dsimp only at hkind
    subst hkind
    obtain ⟨p, hp, hpath⟩ := path_of_longest h
    refine ⟨p, ?_, hpath⟩
    cases n with
    | zero => simp at hp
    | succ n => rw [Nat.max_eq_left (Nat.succ_pos n), String.toList_ofList, hp]
  number hkind := by
    obtain ⟨c, t, ht, hc⟩ := number_of_longest hkind h
    refine ⟨c, t, ?_, hc⟩
    cases n with
    | zero => simp at ht
    | succ n => rw [Nat.max_eq_left (Nat.succ_pos n), String.toList_ofList, ht]

/-- Every lexeme of a text is the longest match somewhere in it, and one character where nothing
matches. -/
theorem longest_of_mem_lexemes {l : Lexeme} (hl : l ∈ lexemes cs) :
    ∃ rest n, longest rest = (some l.kind, n) ∧ l.text = String.ofList (rest.take (max n 1)) := by
  suffices htokens : ∀ skip p, ∀ t ∈ tokensFrom skip p cs, ∃ rest n,
      longest rest = (some t.kind, n) ∧ t.text = String.ofList (rest.take (max n 1)) by
    obtain ⟨t, ht, rfl⟩ := List.mem_map.mp hl
    exact htokens 0 {} t ht
  -- by induction on the text, whether inside a match or in front of one
  clear hl
  induction cs with
  | nil => simp [tokensFrom]
  | cons c cs ih =>
    intro skip p
    cases skip with
    | succ skip => exact ih skip _
    | zero =>
      simp only [tokensFrom]
      cases hlongest : longest (c :: cs) with
      | mk kind n =>
        cases kind with
        | none => exact ih _ _
        | some kind =>
          intro t ht
          rcases List.mem_cons.mp ht with rfl | ht
          · exact ⟨c :: cs, n, hlongest, rfl⟩
          · exact ih _ _ t ht

/-- The texts of the lexemes of a text fit their kinds. -/
theorem fits_lexemes (cs : List Char) : ∀ l ∈ lexemes cs, Fits l := by
  intro l hl
  obtain ⟨rest, n, hlongest, htext⟩ := longest_of_mem_lexemes hl
  have hfits := fits_of_longest hlongest
  rwa [← htext] at hfits

end Fits

end TupleLang.Lexer
