import TupleLang.Proofs.Lexeme

/-!
# Lexing words, symbols and blanks

The match at the front of a text that starts with an identifier, a reserved word, a symbol, a
parenthesis or something blank. What stands behind it matters only by its first character: an
identifier, for example, ends where no character follows that could be a part of it.
-/

namespace TupleLang.Lexer

/-! ## What stands behind a token -/

/-- The first character of a text, if there is one, has a property. -/
def Front (P : Char → Prop) (cs : List Char) : Prop := ∀ c, cs.head? = some c → P c

/-- Characters that end every token in front of them. -/
def stopChars : List Char := [' ', '\t', '\r', '\n', '\x0c', ',', ')', ';', '=', ':']

/-- The text is empty or starts with a character that ends every token in front of it. -/
abbrev Stops (cs : List Char) : Prop := Front (· ∈ stopChars) cs

section Front

variable {P Q : Char → Prop} {c : Char} {cs w rest : List Char}

@[simp] theorem front_nil : Front P [] := fun _ h => by simp at h

@[simp] theorem front_cons : Front P (c :: cs) ↔ P c := by simp [Front]

/-- What is weaker holds of the front as well. -/
theorem Front.imp (h : Front P cs) (himp : ∀ c, P c → Q c) : Front Q cs := fun c hc =>
    himp c (h c hc)

/-- What stands in front of two texts one behind the other stands in front of one of them. -/
theorem Front.append (hw : ∀ c ∈ w, P c) (hrest : Front P rest) : Front P (w ++ rest) := by
  cases w with
  | nil => exact hrest
  | cons d w => simpa using hw d List.mem_cons_self

/-- A run of characters ends in front of the first one that is not in the class. -/
theorem run_append {p : Char → Bool} (hw : ∀ c ∈ w, p c = true)
    (hrest : Front (p · = false) rest) : run p (w ++ rest) = w.length := by
  have hstop : rest.takeWhile p = [] := by
    cases rest with
    | nil => rfl
    | cons c rest => exact List.takeWhile_cons_of_neg (by simpa using hrest)
  rw [run, List.takeWhile_append_of_pos hw, hstop, List.append_nil]

/-- There is no run of characters where none of the class stands. -/
theorem run_eq_zero {p : Char → Bool} (h : Front (p · = false) cs) : run p cs = 0 :=
  run_append (w := []) (by simp) h

/-- A run that is not empty begins with such a character. -/
theorem head_of_run {p : Char → Bool} (h : run p cs ≠ 0) : ∃ c rest, cs = c :: rest ∧
    p c = true := by
  cases cs with
  | nil => exact absurd rfl h
  | cons c rest =>
    cases hc : p c with
    | true => exact ⟨c, rest, rfl, hc⟩
    | false => exact absurd (run_eq_zero (by simpa using hc)) h

end Front

/-! ## Character classes -/

section Chars

variable {c : Char}

/-- What may begin a word may stand within it. -/
theorem isWordPart_of_isWordStart (h : isWordStart c = true) : isWordPart c = true := by
  simp only [isWordStart, isWordPart, Char.isAlphanum, Bool.or_eq_true] at h ⊢
  exact h.elim (fun h => .inl (.inl h)) .inr

/-- No digit starts an identifier. -/
theorem isWordStart_of_isDigit (h : c.isDigit = true) : isWordStart c = false := by
  have hne : c ≠ '_' := by
    rintro rfl
    exact absurd h (by decide)
  cases hstart : isWordStart c with
  | false => rfl
  | true =>
    simp only [isWordStart, Char.isAlpha, Char.isUpper, Char.isLower, Char.isDigit,
      Bool.or_eq_true, Bool.and_eq_true, decide_eq_true_eq, UInt32.le_iff_toNat_le, ge_iff_le,
      beq_iff_eq] at h hstart
    have hA : 'A'.val.toNat = 65 := rfl
    have ha : 'a'.val.toNat = 97 := rfl
    have h9 : '9'.val.toNat = 57 := rfl
    rcases hstart with (hstart | hstart) | hstart
    · omega
    · omega
    · exact absurd hstart hne

/-- A character that is in no class of another one is another one. -/
theorem ne_of_class {p : Char → Bool} {d : Char} (h : p c = true) (hd : p d = false) : c ≠ d := by
  rintro rfl
  simp [h] at hd

end Chars

/-! ## How literals start -/

section Openings

variable {cs : List Char}

/-- How a byte literal begins. -/
theorem opening_byteLiteral (h : byteLiteral cs ≠ 0) : ['b', '\''] <+: cs := by
  unfold byteLiteral at h
  split at h
  · exact ⟨_, rfl⟩
  · exact absurd rfl h

/-- How a character literal begins. -/
theorem opening_charLiteral (h : charLiteral cs ≠ 0) : ['\''] <+: cs := by
  unfold charLiteral at h
  split at h
  · exact ⟨_, rfl⟩
  · exact ⟨_, rfl⟩
  · exact absurd rfl h

/-- A number with a suffix begins with digits. -/
theorem digit_suffixed {letter : Char} (h : suffixed letter cs ≠ 0) : run Char.isDigit cs ≠ 0 :=
  fun hzero => h (by simp [suffixed, hzero])

/-- How a hexadecimal number begins. -/
theorem digit_hexNumber (h : hexNumber cs ≠ 0) : ['0', 'x'] <+: cs := by
  unfold hexNumber at h
  split at h
  · exact ⟨_, rfl⟩
  · exact absurd rfl h

/-- A floating point number begins with digits. -/
theorem digit_floatNumber (h : floatNumber cs ≠ 0) : run Char.isDigit cs ≠ 0 :=
  fun hzero => h (by simp [floatNumber, hzero])

/-- How a name with a sigil begins. -/
theorem opening_sigilName (h : sigilName cs ≠ 0) : ['$'] <+: cs := by
  unfold sigilName at h
  split at h
  · exact ⟨_, rfl⟩
  · exact absurd rfl h

/-- How a literal of bytes begins. -/
theorem opening_bytesLiteral (h : bytesLiteral cs ≠ 0) : ['B', '\''] <+: cs := by
  unfold bytesLiteral at h
  split at h
  · exact ⟨_, rfl⟩
  · exact absurd rfl h

/-- How one begins that is not ended. -/
theorem opening_bytesOpening (h : bytesOpening cs ≠ 0) : ['B', '\''] <+: cs := by
  unfold bytesOpening at h
  split at h
  · exact ⟨_, rfl⟩
  · exact absurd rfl h

/-- How a text begins. -/
theorem opening_quoted (h : quoted cs ≠ 0) : ['"'] <+: cs := by
  unfold quoted at h
  split at h
  · exact ⟨_, rfl⟩
  · exact absurd rfl h

/-- How a text with a letter in front begins. -/
theorem opening_quotedAfter {letter : Char} (h : quotedAfter letter cs ≠ 0) :
    [letter, '"'] <+: cs := by
  unfold quotedAfter at h
  split at h
  · split at h
    · rename_i hletter
      rw [beq_iff_eq] at hletter
      subst hletter
      exact ⟨_, rfl⟩
    · exact absurd rfl h
  · exact absurd rfl h

/-- How a text begins that is not ended. -/
theorem opening_quotedOpening (h : quotedOpening cs ≠ 0) :
    ['"'] <+: cs ∨ ['R', '"'] <+: cs ∨ ['F', '"'] <+: cs := by
  unfold quotedOpening at h
  split at h
  · exact .inl ⟨_, rfl⟩
  · exact .inr (.inl ⟨_, rfl⟩)
  · exact .inr (.inr ⟨_, rfl⟩)
  · exact absurd rfl h

/-- How a path of names begins. -/
theorem opening_dottedPath (h : dottedPath cs ≠ 0) : ['@'] <+: cs := by
  unfold dottedPath at h
  split at h
  · exact ⟨_, rfl⟩
  · exact absurd rfl h

/-- How a comment begins. -/
theorem opening_comment (h : comment cs ≠ 0) : ['/', '/'] <+: cs := by
  unfold comment at h
  split at h
  · exact ⟨_, rfl⟩
  · exact absurd rfl h

/-- Kinds of numbers. -/
def numberKinds : List (Option TokenKind) :=
  [some .long, some .index, some .bits, some .int, some .float]

/-- What the literals start with that are neither numbers nor identifiers. -/
def openings : List (TokenKind × List Char) :=
  [(.byte, ['b', '\'']), (.char, ['\'']), (.sigil, ['$']), (.bytes, ['B', '\'']), (.text, ['"']),
   (.regex, ['R', '"']), (.namePath, ['@']), (.path, ['F', '"'])]

/-- A literal that is no identifier is a number and starts with a digit, or starts with the opening
of its kind; a literal that is not completed starts with any opening. -/
theorem opening_of_literal {q : Rule} (hq : q ∈ literalRules) (hkind : q.kind ≠ some .ident)
    (h : q.size cs ≠ 0) :
    (q.kind ∈ numberKinds ∧ run Char.isDigit cs ≠ 0) ∨
      ∃ e ∈ openings, e.2 <+: cs ∧ (q.kind = some e.1 ∨ q.kind = some .invalid) := by
  simp only [literalRules, List.mem_cons, List.not_mem_nil, or_false] at hq
  rcases hq with rfl | rfl | rfl | rfl | rfl | rfl | rfl | rfl | rfl | rfl | rfl | rfl | rfl | rfl
    | rfl | rfl
  · exact .inr ⟨(.byte, _), by decide, opening_byteLiteral h, .inl rfl⟩
  · exact .inr ⟨(.char, _), by decide, opening_charLiteral h, .inl rfl⟩
  · exact .inl ⟨by decide, digit_suffixed h⟩
  · exact .inl ⟨by decide, digit_suffixed h⟩
  · obtain ⟨rest, rfl⟩ := digit_hexNumber h
    exact .inl ⟨by decide, by simp [run]⟩
  · exact .inl ⟨by decide, h⟩
  · exact .inl ⟨by decide, digit_floatNumber h⟩
  · exact absurd rfl hkind
  · exact .inr ⟨(.sigil, _), by decide, opening_sigilName h, .inl rfl⟩
  · exact .inr ⟨(.bytes, _), by decide, opening_bytesLiteral h, .inl rfl⟩
  · exact .inr ⟨(.text, _), by decide, opening_quoted h, .inl rfl⟩
  · exact .inr ⟨(.regex, _), by decide, opening_quotedAfter h, .inl rfl⟩
  · exact .inr ⟨(.namePath, _), by decide, opening_dottedPath h, .inl rfl⟩
  · exact .inr ⟨(.path, _), by decide, opening_quotedAfter h, .inl rfl⟩
  · rcases opening_quotedOpening h with h | h | h
    · exact .inr ⟨(.text, _), by decide, h, .inr rfl⟩
    · exact .inr ⟨(.regex, _), by decide, h, .inr rfl⟩
    · exact .inr ⟨(.path, _), by decide, h, .inr rfl⟩
  · exact .inr ⟨(.bytes, _), by decide, opening_bytesOpening h, .inr rfl⟩

/-- No literal but an identifier has a match where neither a digit nor an opening stands. -/
theorem literal_eq_zero {q : Rule} (hq : q ∈ literalRules) (hkind : q.kind ≠ some .ident)
    (hdigit : q.kind ∈ numberKinds → run Char.isDigit cs = 0)
    (hopening : ∀ e ∈ openings, ¬e.2 <+: cs) : q.size cs = 0 := by
  cases hsize : q.size cs with
  | zero => rfl
  | succ n =>
    exfalso
    rcases opening_of_literal hq hkind (by rw [hsize]; exact Nat.succ_ne_zero n) with
      ⟨hnumber, hrun⟩ | ⟨e, he, hprefix, -⟩
    · exact hrun (hdigit hnumber)
    · exact hopening e he hprefix

/-- No opening stands where its first character does not. -/
theorem not_opening {c : Char} {cs : List Char} (hc : c ∉ openings.flatMap (·.2.take 1)) :
    ∀ e ∈ openings, ¬e.2 <+: c :: cs := by
  intro e he hprefix
  have hne : ∀ e ∈ openings, e.2 ≠ [] := by decide
  cases htext : e.2 with
  | nil => exact hne e he htext
  | cons d t =>
    rw [htext] at hprefix
    refine hc (List.mem_flatMap.mpr ⟨e, he, ?_⟩)
    rw [htext, (List.cons_prefix_cons.mp hprefix).1]
    exact List.mem_cons_self

/-- The rule for identifiers. -/
theorem size_ident {q : Rule} (hq : q ∈ literalRules) (hkind : q.kind = some .ident) :
    q.size = word := by
  have hall : ∀ q ∈ literalRules, q.kind = some .ident → q.size = word := by simp [literalRules]
  exact hall q hq hkind

end Openings

/-! ## Words -/

/-- A word: what an identifier may be made of. -/
def IsWord (w : List Char) : Prop :=
  ∃ c cs, w = c :: cs ∧ isWordStart c = true ∧ ∀ d ∈ cs, isWordPart d = true

/-- Words that are no identifiers. -/
def reserved : List String := ["void", "true", "false"] ++ keywords

/-- A word ends in front of the text, and is no opening with it. -/
abbrev Breaks (cs : List Char) : Prop :=
  Front (fun c => isWordPart c = false ∧ c ≠ '\'' ∧ c ≠ '"') cs

/-- First characters of the spellings that are no words. -/
def symbolHeads : List Char :=
  ['(', ')', ',', ';', '=', '+', '-', '*', '/', '%', '|', '&', '^', '!', '<', '>', '~', '?', ':']

/-- A spelling is a reserved word, opens a tuple or a type, or starts with a symbol. -/
theorem spelling_cases : ∀ q ∈ spellings,
    (q.1 ∈ reserved ∧ ∀ c ∈ q.1.toList, isWordPart c = true) ∨
      (∃ c ∈ ['P', 'D', 'E', 'T'], q.1.toList = [c, '(']) ∨
        ∃ c ∈ symbolHeads, q.1.toList.head? = some c := by
  decide

section Words

variable {w rest : List Char}

/-- What stops a lexeme breaks it off. -/
theorem Stops.breaks (h : Stops rest) : Breaks rest := by
  have hall : ∀ c ∈ stopChars, isWordPart c = false ∧ c ≠ '\'' ∧ c ≠ '"' := by decide
  exact h.imp hall

/-- A word is not empty. -/
theorem IsWord.ne_nil (hw : IsWord w) : w ≠ [] := by
  obtain ⟨c, cs, rfl, -⟩ := hw
  exact List.cons_ne_nil c cs

/-- The first character of a word is in no class that words do not start with. -/
theorem IsWord.front {p : Char → Bool} (hw : IsWord w)
    (hp : ∀ c, isWordStart c = true → p c = false) : Front (p · = false) (w ++ rest) := by
  obtain ⟨c, cs, rfl, hc, -⟩ := hw
  simpa using hp c hc

/-- A word ends where its parts do. -/
theorem word_append (hw : IsWord w) (hrest : Front (isWordPart · = false) rest) :
    word (w ++ rest) = w.length := by
  obtain ⟨c, cs, rfl, hc, hcs⟩ := hw
  rw [List.cons_append, word, if_pos hc, run_append hcs hrest, List.length_cons, Nat.add_comm]

/-- Nothing blank stands in front of a word. -/
theorem blank_word (hw : IsWord w) : ∀ q ∈ blankRules, q.size (w ++ rest) = 0 := by
  intro q hq
  simp only [blankRules, List.mem_cons, List.not_mem_nil, or_false] at hq
  rcases hq with rfl | rfl
  · refine run_eq_zero (hw.front fun c hc => ?_)
    cases hblank : isBlank c with
    | false => rfl
    | true =>
      simp only [isBlank, Bool.or_eq_true, beq_iff_eq] at hblank
      rcases hblank with (((rfl | rfl) | rfl) | rfl) | rfl <;> exact absurd hc (by decide)
  · dsimp only
    cases hsize : comment (w ++ rest) with
    | zero => rfl
    | succ n =>
      obtain ⟨c, cs, rfl, hc, -⟩ := hw
      obtain ⟨t, ht⟩ := opening_comment (by rw [hsize]; exact Nat.succ_ne_zero n)
      have hslash : '/' = c := (List.cons.inj ht).1
      exact absurd hc (by rw [← hslash]; decide)

/-- No literal but an identifier starts with a word. -/
theorem literal_word (hw : IsWord w) (hrest : Breaks rest) {q : Rule} (hq : q ∈ literalRules)
    (hkind : q.kind ≠ some .ident) : q.size (w ++ rest) = 0 := by
  refine literal_eq_zero hq hkind (fun _ => run_eq_zero (hw.front fun c hc => ?_)) ?_
  · cases hdigit : c.isDigit with
    | false => rfl
    | true =>
      rw [isWordStart_of_isDigit hdigit] at hc
      cases hc
  · rintro e he ⟨t, ht⟩
    obtain ⟨c, cs, rfl, hc, hcs⟩ := hw
    -- a quote would be the second character, which is a part of the word or ends it
    have hall : ∀ e ∈ openings, (∃ d ∈ ['\'', '$', '"', '@'], e.2 = [d]) ∨
        ∃ d ∈ ['b', 'B', 'R', 'F'], ∃ f ∈ ['\'', '"'], e.2 = [d, f] := by decide
    rcases hall e he with ⟨d, hd, hopening⟩ | ⟨d, -, f, hf, hopening⟩
    · have hnot : ∀ d ∈ ['\'', '$', '"', '@'], isWordStart d = false := by decide
      rw [hopening] at ht
      have hcd : d = c := (List.cons.inj ht).1
      rw [← hcd, hnot d hd] at hc
      cases hc
    · have hsecond : Front (fun d => d ∉ ['\'', '"']) (cs ++ rest) := by
        refine Front.append (fun d hd hquote => ?_) (hrest.imp fun d hd => by simp [hd])
        have hnot : ∀ d ∈ ['\'', '"'], isWordPart d = false := by decide
        exact absurd (hcs d hd) (by simp [hnot d hquote])
      rw [hopening] at ht
      have htail : f :: t = cs ++ rest := (List.cons.inj ht).2
      exact hsecond f (by rw [← htail]; rfl) hf

/-- Spellings that start with a symbol are not in front of a word. -/
theorem IsWord.head_not_symbol (hw : IsWord w) {c : Char} (hc : c ∈ symbolHeads) {t : List Char}
    (ht : t.head? = some c) : ¬t <+: w ++ rest := by
  have hall : ∀ c ∈ symbolHeads, isWordStart c = false := by decide
  obtain ⟨d, cs, rfl, hd, -⟩ := hw
  rintro ⟨u, hu⟩
  cases t with
  | nil => simp at ht
  | cons e t =>
    have hed : e = d := (List.cons.inj hu).1
    rw [List.head?_cons, Option.some.injEq] at ht
    rw [← hed, ht, hall c hc] at hd
    cases hd

/-- Characters of a class in front of a text that does not go on with the class are a part of what
stands in front of that. -/
theorem prefix_of_class {p : Char → Bool} {t : List Char} (ht : ∀ c ∈ t, p c = true)
    (hrest : Front (p · = false) rest) (h : t <+: w ++ rest) : t <+: w := by
  induction t generalizing w with
  | nil => exact List.nil_prefix
  | cons c t ih =>
    cases w with
    | nil =>
      obtain ⟨u, hu⟩ := h
      have hc : p c = false := hrest c (by rw [← List.nil_append rest, ← hu]; rfl)
      rw [ht c List.mem_cons_self] at hc
      cases hc
    | cons d w =>
      obtain ⟨rfl, htail⟩ := List.cons_prefix_cons.mp h
      exact List.cons_prefix_cons.mpr ⟨rfl, ih (fun e he => ht e (List.mem_cons_of_mem _ he)) htail⟩

/-- Spellings in front of a word are parts of it, unless the word opens a tuple or a type. -/
theorem spelling_word (hw : IsWord w) (hrest : Front (isWordPart · = false) rest)
    (hopen : rest.head? = some '(' → ∀ c ∈ ['P', 'D', 'E', 'T'], w ≠ [c]) :
    ∀ q ∈ spellings, q.1.toList <+: w ++ rest → q.1 ∈ reserved ∧ q.1.toList <+: w := by
  intro q hq hprefix
  rcases spelling_cases q hq with ⟨hres, hpart⟩ | ⟨c, hc, htext⟩ | ⟨c, hc, hhead⟩
  · exact ⟨hres, prefix_of_class hpart hrest hprefix⟩
  · exfalso
    obtain ⟨d, cs, rfl, -, hcs⟩ := hw
    rw [htext, List.cons_append] at hprefix
    obtain ⟨rfl, htail⟩ := List.cons_prefix_cons.mp hprefix
    cases cs with
    | nil =>
      obtain ⟨u, hu⟩ := htail
      exact hopen (by rw [← List.nil_append rest, ← hu]; rfl) c hc rfl
    | cons e cs =>
      obtain ⟨rfl, -⟩ := List.cons_prefix_cons.mp (List.cons_append ▸ htail)
      exact absurd (hcs '(' List.mem_cons_self) (by decide)
  · exact absurd hprefix (hw.head_not_symbol hc hhead)

/-- An identifier is matched as a whole. -/
theorem longest_word (hw : IsWord w) (hres : String.ofList w ∉ reserved) (hrest : Breaks rest)
    (hopen : rest.head? = some '(' → ∀ c ∈ ['P', 'D', 'E', 'T'], w ≠ [c]) :
    longest (w ++ rest) = (some .ident, w.length) := by
  have hsize : word (w ++ rest) = w.length := word_append hw (hrest.imp fun _ h => h.1)
  have hpos : 0 < w.length := List.length_pos_iff.mpr hw.ne_nil
  refine longest_literal hpos ⟨⟨some .ident, word⟩, by simp [literalRules], hsize⟩
    (fun q hq => by rw [blank_word hw q hq]; exact hpos) (fun q hq => ?_) fun q hq => ?_
  · by_cases hzero : fixed q.1 (w ++ rest) = 0
    · omega
    · have hprefix := prefix_of_fixed hzero
      obtain ⟨hmem, hpart⟩ := spelling_word hw (hrest.imp fun _ h => h.1) hopen q hq hprefix
      rw [fixed_eq hprefix, ← String.length_toList]
      refine Nat.lt_of_le_of_ne hpart.length_le fun heq => hres ?_
      rw [← hpart.eq_of_length heq, String.ofList_toList]
      exact hmem
  · by_cases hkind : q.kind = some .ident
    · exact .inl ⟨hkind, by rw [size_ident hq hkind, hsize]⟩
    · exact .inr (by rw [literal_word hw hrest hq hkind]; exact hpos)

/-- A reserved word is matched as a whole. -/
theorem longest_reserved {text : String} {kind : TokenKind} (hmem : (text, kind) ∈ spellings)
    (hw : IsWord text.toList) (hrest : Breaks rest)
    (hopen : rest.head? ≠ some '(') :
    longest (text.toList ++ rest) = (some kind, text.length) := by
  have hpos : 0 < text.length := by
    rw [← String.length_toList]
    exact List.length_pos_iff.mpr hw.ne_nil
  refine longest_spelling hmem (List.prefix_append _ _) (fun q hq => ?_) (fun q hq hprefix => ?_)
    fun q hq => ?_
  · rw [blank_word hw q hq]
    exact hpos
  · have hpart :=
      (spelling_word hw (hrest.imp fun _ h => h.1) (fun h => absurd h hopen) q hq hprefix).2
    rw [← String.length_toList, ← String.length_toList]
    exact hpart.length_le
  · by_cases hkind : q.kind = some .ident
    · refine Nat.le_of_eq ?_
      rw [size_ident hq hkind, word_append hw (hrest.imp fun _ h => h.1), String.length_toList]
    · rw [literal_word hw hrest hq hkind]
      exact Nat.zero_le _

end Words

/-! ## Symbols and parentheses -/

/-- Characters that make a longer spelling, or a comment, of a spelling in front of them. -/
def extensions (text : String) : List Char :=
  (if text = "/" then ['/'] else []) ++ spellings.filterMap fun q =>
    if text.toList.isPrefixOf q.1.toList then q.1.toList[text.length]? else none

section Symbols

variable {text : String} {kind : TokenKind} {rest : List Char}

/-- A spelling is not longer than one that is not extended by what stands behind it. -/
theorem spelling_of_extensions (hrest : Front (· ∉ extensions text) rest) :
    ∀ q ∈ spellings, q.1.toList <+: text.toList ++ rest → q.1.length ≤ text.length := by
  intro q hq hprefix
  refine Nat.le_of_not_lt fun hlt => ?_
  rw [← String.length_toList, ← String.length_toList] at hlt
  obtain ⟨u, hu⟩ :=
    List.prefix_of_prefix_length_le (List.prefix_append text.toList rest) hprefix (Nat.le_of_lt hlt)
  cases u with
  | nil =>
    rw [← hu, List.append_nil] at hlt
    exact Nat.lt_irrefl _ hlt
  | cons e u =>
    rw [← hu, List.prefix_append_right_inj] at hprefix
    obtain ⟨v, rfl⟩ := hprefix
    refine hrest e rfl (List.mem_append_right _ (List.mem_filterMap.mpr ⟨q, hq, ?_⟩))
    rw [if_pos (List.isPrefixOf_iff_prefix.mpr ⟨_, hu⟩), ← hu, ← String.length_toList]
    simp

/-- No literal and nothing blank starts with a symbol. -/
theorem literal_symbol {c : Char} (cs : List Char) (hc : c ∈ symbolHeads) :
    (∀ q ∈ literalRules, q.size (c :: cs) = 0) ∧ run isBlank (c :: cs) = 0 := by
  have hclass : ∀ c ∈ symbolHeads, c.isDigit = false ∧ isWordStart c = false ∧
      c ∉ openings.flatMap (·.2.take 1) ∧ isBlank c = false := by decide
  obtain ⟨hdigit, hstart, hopening, hblank⟩ := hclass c hc
  refine ⟨fun q hq => ?_, run_eq_zero (by simpa using hblank)⟩
  by_cases hkind : q.kind = some .ident
  · rw [size_ident hq hkind, word, if_neg (by simp [hstart])]
  · exact literal_eq_zero hq hkind (fun _ => run_eq_zero (by simpa using hdigit))
      (not_opening hopening)

/-- A symbol is matched as a whole if what stands behind it does not extend it. -/
theorem longest_symbol (hmem : (text, kind) ∈ spellings)
    (hhead : ∃ c ∈ symbolHeads, text.toList.head? = some c)
    (hrest : Front (· ∉ extensions text) rest) :
    longest (text.toList ++ rest) = (some kind, text.length) := by
  obtain ⟨c, hc, hhead⟩ := hhead
  obtain ⟨cs, hcs⟩ : ∃ cs, text.toList = c :: cs := by
    cases htext : text.toList with
    | nil => simp [htext] at hhead
    | cons d cs =>
      rw [htext, List.head?_cons, Option.some.injEq] at hhead
      exact ⟨cs, by rw [hhead]⟩
  have hpos : 0 < text.length := by
    rw [← String.length_toList, hcs]
    exact Nat.succ_pos _
  obtain ⟨hliteral, hblank⟩ := literal_symbol (cs ++ rest) hc
  -- no blank is as long as the symbol, and what follows makes no longer spelling of it
  refine longest_spelling hmem (List.prefix_append _ _) (fun q hq => ?_)
    (spelling_of_extensions hrest) fun q hq => ?_
  · simp only [blankRules, List.mem_cons, List.not_mem_nil, or_false] at hq
    rcases hq with rfl | rfl
    · dsimp only
      rw [hcs, List.cons_append, hblank]
      exact hpos
    · dsimp only
      cases hsize : comment (text.toList ++ rest) with
      | zero => exact hpos
      | succ n =>
        exfalso
        -- a comment would begin with the symbol, so the symbol is one of those with a slash in
        -- front
        have hslash : ∀ q ∈ spellings, ['/'] <+: q.1.toList → q.1 = "/" ∨ q.1 = "/=" := by decide
        obtain ⟨t, ht⟩ := opening_comment (by rw [hsize]; exact Nat.succ_ne_zero n)
        have hc' : '/' = c := by
          rw [hcs] at ht
          exact (List.cons.inj ht).1
        rcases hslash _ hmem ⟨cs, by rw [hcs, hc']; rfl⟩ with h | h
        · dsimp only at h
          subst h
          have htail : '/' :: t = rest := (List.cons.inj ht).2
          subst htail
          exact hrest '/' rfl (by decide)
        · dsimp only at h
          subst h
          exact absurd (List.cons.inj (List.cons.inj ht).2).1 (by decide)
  · rw [hcs, List.cons_append, hliteral q hq]
    exact Nat.zero_le _

/-- A letter with a parenthesis behind it opens a tuple or a type. -/
theorem longest_opening {c : Char} (hc : c ∈ ['P', 'D', 'E', 'T'])
    (hmem : (String.ofList [c, '('], kind) ∈ spellings) (rest : List Char) :
    longest (c :: '(' :: rest) = (some kind, 2) := by
  have hstart : isWordStart c = true := by
    have hall : ∀ c ∈ ['P', 'D', 'E', 'T'], isWordStart c = true := by decide
    exact hall c hc
  have hw : IsWord [c] := ⟨c, [], rfl, hstart, by simp⟩
  have hrest : Breaks ('(' :: rest) := by simp [isWordPart]
  have hprefix : (String.ofList [c, '(']).toList <+: c :: '(' :: rest :=
    ⟨rest, by rw [String.toList_ofList]; rfl⟩
  have hrun := longest_spelling hmem hprefix
  rw [String.length_ofList] at hrun
  refine hrun (fun q hq => ?_) (fun q hq hprefix => ?_) fun q hq => ?_
  · rw [show q.size (c :: '(' :: rest) = 0 from blank_word hw q hq]
    exact Nat.succ_pos _
  · rcases spelling_cases q hq with ⟨-, hpart⟩ | ⟨d, -, htext⟩ | ⟨d, hd, hhead⟩
    · have hone : q.1.toList <+: [c] :=
        prefix_of_class hpart (front_cons.mpr (by decide) : Front _ ('(' :: rest)) hprefix
      rw [← String.length_toList]
      exact Nat.le_succ_of_le hone.length_le
    · rw [← String.length_toList, htext]
      exact Nat.le_refl _
    · exact absurd ( hprefix : _ <+: [c] ++ '(' :: rest) (hw.head_not_symbol hd hhead)
  · by_cases hkind : q.kind = some .ident
    · rw [size_ident hq hkind, show word (c :: '(' :: rest) = 1 from
        word_append hw (hrest.imp fun _ h => h.1)]
      exact Nat.le_succ 1
    · rw [show q.size (c :: '(' :: rest) = 0 from literal_word hw hrest hq hkind]
      exact Nat.zero_le _

end Symbols

/-- No spelling starts with a character of a class that none starts with. -/
theorem fixed_eq_zero {p : Char → Bool}
    (hp : ∀ q ∈ spellings, q.1.toList.head?.any (!p ·) = true) {c : Char} (hc : p c = true)
    {cs : List Char} : ∀ q ∈ spellings, fixed q.1 (c :: cs) = 0 := by
  intro q hq
  cases hsize : fixed q.1 (c :: cs) with
  | zero => rfl
  | succ n =>
    have hhead := hp q hq
    have hprefix := prefix_of_fixed (by rw [hsize]; exact Nat.succ_ne_zero n)
    cases htext : q.1.toList with
    | nil => simp [htext] at hhead
    | cons d t =>
      rw [htext] at hprefix
      rw [htext, (List.cons_prefix_cons.mp hprefix).1] at hhead
      simp [hc] at hhead

/-! ## Blanks -/

section Blanks

variable {c : Char}

/-- The blank characters. -/
theorem isBlank_iff : isBlank c = true ↔ c ∈ [' ', '\t', '\r', '\n', '\x0c'] := by
  simp [isBlank, or_assoc]

/-- Something blank is matched up to its end. -/
theorem longest_blank (hc : isBlank c = true) (cs : List Char) :
    longest (c :: cs) = (none, run isBlank cs + 1) := by
  have hmem := isBlank_iff.mp hc
  have hclass : ∀ c ∈ [' ', '\t', '\r', '\n', '\x0c'], c.isDigit = false ∧ isWordStart c = false ∧
      c ∉ openings.flatMap (·.2.take 1) ∧ c ≠ '/' := by decide
  obtain ⟨hdigit, hstart, hopening, hslash⟩ := hclass c hmem
  have hsize : run isBlank (c :: cs) = run isBlank cs + 1 := by
    rw [run, List.takeWhile_cons_of_pos hc, List.length_cons, run]
  have hrules : rules =
      [] ++ ⟨none, run isBlank⟩ :: ⟨none, comment⟩ :: (spellingRules ++ literalRules) := rfl
  have hpos : 0 < run isBlank (c :: cs) := by
    rw [hsize]
    exact Nat.succ_pos _
  rw [← hsize]
  refine longest_eq hrules hpos (by simp) fun q hq => ?_
  suffices hzero : q.size (c :: cs) = 0 by
    rw [hzero]
    exact Nat.zero_le _
  rw [List.mem_cons, List.mem_append] at hq
  rcases hq with rfl | hq | hq
  · dsimp only
    cases hsize : comment (c :: cs) with
    | zero => rfl
    | succ n =>
      obtain ⟨t, ht⟩ := opening_comment (by rw [hsize]; exact Nat.succ_ne_zero n)
      exact absurd (List.cons.inj ht).1.symm hslash
  · obtain ⟨entry, hentry, rfl⟩ := List.mem_map.mp hq
    exact fixed_eq_zero (p := isBlank) (by decide) hc entry hentry
  · by_cases hkind : q.kind = some .ident
    · rw [size_ident hq hkind, word, if_neg (by simp [hstart])]
    · exact literal_eq_zero hq hkind (fun _ => run_eq_zero (by simpa using hdigit))
        (not_opening hopening)

/-- Blanks make no lexemes. -/
theorem lexemes_blank (hc : isBlank c = true) (cs : List Char) : lexemes (c :: cs) =
    lexemes cs := by
  rw [lexemes_of_none (longest_blank hc cs), Nat.add_sub_cancel]
  cases cs with
  | nil => rfl
  | cons d cs =>
    cases hd : isBlank d with
    | false => rw [run, List.takeWhile_cons_of_neg (by simp [hd])]; rfl
    | true =>
      rw [lexemes_of_none (longest_blank hd cs), run, List.takeWhile_cons_of_pos hd]
      rfl

end Blanks

end TupleLang.Lexer
