import TupleLang.Proofs.Matching
import TupleLang.Proofs.Spelling

/-!
# Spacing between tokens

The tokens of a source text can be written again with any blanks between them, and they are lexed as
the same tokens (`spacing_does_not_matter`).

A token is the longest match in front of what stood behind it in the source (`IsToken`). In front of
something blank no rule takes more than the token: most rules take no blanks at all, and the others
have an opening that belongs to the token, so that it is a complete literal of that kind and its own
characters say where it ends (`IsToken.size_le_of_blank`). The rules that took as much as the token
take as much again, so that the same one wins (`IsToken.of_blank_behind`).
-/

namespace TupleLang.Lexer

/-- The text is empty or starts with something blank. -/
abbrev Blank (cs : List Char) : Prop := Front (isBlank · = true) cs

/-! ## In front of something blank -/

section Bounds

variable {P : Char → Prop} {size : List Char → Nat} {t o rest : List Char}

/-- What is taken of the beginning of a text is taken again where the text goes on in another way.
-/
theorem Takes.size_le (h : Takes P size (t ++ rest)) (hle : size (t ++ rest) ≤ t.length)
    (rest' : List Char) : size (t ++ rest) ≤ size (t ++ rest') := by
  obtain ⟨w, x, hsplit, hsize, -, hagain⟩ := h
  obtain ⟨u, rfl⟩ : w <+: t := List.prefix_of_prefix_length_le ⟨x, hsplit.symm⟩
    (List.prefix_append t rest) (hsize ▸ hle)
  rw [hsize, List.append_assoc]
  exact hagain _

/-- Characters that are not blank stand in front of something blank. -/
theorem prefix_of_solid (ho : ∀ c ∈ o, Solid c) (hrest : Blank rest)
    (h : o <+: t ++ rest) : o <+: t :=
  prefix_of_class (p := (!isBlank ·)) (fun c hc => by simpa using ho c hc)
    (hrest.imp fun c hc => by simpa using hc) h

/-- A match without blanks ends in front of something blank. -/
theorem Takes.size_le_length (h : Takes Solid size (t ++ rest)) (hrest : Blank rest) :
    size (t ++ rest) ≤ t.length := by
  obtain ⟨w, x, hsplit, hsize, hw, -⟩ := h
  rw [hsize]
  exact (prefix_of_solid hw hrest ⟨x, hsplit.symm⟩).length_le

theorem hexPairsInside_le_run (cs : List Char) : hexPairsInside cs ≤ run isHexDigit cs := by
  fun_induction hexPairsInside cs with
  | case1 x y c cs hxy ih =>
    rw [Bool.and_eq_true] at hxy
    simp only [run, List.takeWhile_cons_of_pos hxy.1, List.takeWhile_cons_of_pos hxy.2,
      List.length_cons] at ih ⊢
    omega
  | case2 => exact Nat.zero_le _
  | case3 => exact Nat.zero_le _

end Bounds

/-- A comment is matched up to its end. -/
theorem longest_comment (cs : List Char) :
    longest ('/' :: '/' :: cs) = (none, comment ('/' :: '/' :: cs)) := by
  have hrules : rules =
      [⟨none, run isBlank⟩] ++ ⟨none, comment⟩ :: (spellingRules ++ literalRules) := rfl
  obtain ⟨hliteral, hblank⟩ := literal_symbol ('/' :: cs) (c := '/') (by decide)
  have hpos : 2 ≤ comment ('/' :: '/' :: cs) := Nat.le_add_right 2 _
  refine longest_eq hrules (Nat.lt_of_lt_of_le Nat.two_pos hpos) (fun q hq => ?_) fun q hq => ?_
  · rw [List.mem_singleton.mp hq]
    dsimp only
    rw [hblank]
    omega
  · rcases List.mem_append.mp hq with hq | hq
    · obtain ⟨entry, hentry, rfl⟩ := List.mem_map.mp hq
      have hall : ∀ q ∈ spellings, q.1.toList ≠ [] ∧
        (q.1.toList.head? = some '/' → q.1.length ≤ 2) := by
        decide
      obtain ⟨hne, hshort⟩ := hall entry hentry
      by_cases hzero : fixed entry.1 ('/' :: '/' :: cs) = 0
      · simp only [hzero, Nat.zero_le]
      · have hprefix := prefix_of_fixed hzero
        refine Nat.le_trans ?_ hpos
        simp only [fixed_eq hprefix]
        refine hshort ?_
        rw [List.head?_eq_some_head hne, List.IsPrefix.head hprefix hne]
        rfl
    · rw [hliteral q hq]
      exact Nat.zero_le _

/-! ## Tokens in front of something blank -/

/-- The text `t` is a token in front of `rest`. -/
structure IsToken (kind : TokenKind) (t rest : List Char) : Prop where
  longest : Lexer.longest (t ++ rest) = (some kind, t.length)
  ne_nil : t ≠ []
  valid : kind ≠ .invalid

/-- The openings of quoted literals. -/
def quoteOpenings : List (TokenKind × List Char) :=
  [(.text, ['"']), (.regex, ['R', '"']), (.path, ['F', '"'])]

theorem closedQuote_le (n : ℕ) (cs : List Char) : closedQuote n cs ≤ n + quotedItems cs + 1 := by
  simp only [closedQuote]
  split
  · exact Nat.le_refl _
  · exact Nat.zero_le _

/-- What is taken behind the opening of a quoted literal ends with the quote behind its items. -/
theorem size_le_quotedItems {size : List Char → ℕ} {cs : List Char}
    (hsize : size ∈ [quoted, quotedAfter 'R', quotedAfter 'F', quotedOpening]) (h : size cs ≠ 0) :
    ∃ e ∈ quoteOpenings, ∃ u, cs = e.2 ++ u ∧ size cs ≤ e.2.length + quotedItems u + 1 := by
  simp only [List.mem_cons, List.not_mem_nil, or_false] at hsize
  rcases hsize with rfl | rfl | rfl | rfl
  · obtain ⟨u, rfl⟩ := opening_quoted h
    exact ⟨(.text, _), by decide, u, rfl, closedQuote_le 1 u⟩
  · obtain ⟨u, rfl⟩ := opening_quotedAfter h
    exact ⟨(.regex, _), by decide, u, rfl, closedQuote_le 2 u⟩
  · obtain ⟨u, rfl⟩ := opening_quotedAfter h
    exact ⟨(.path, _), by decide, u, rfl, closedQuote_le 2 u⟩
  · rcases opening_quotedOpening h with ⟨u, rfl⟩ | ⟨u, rfl⟩ | ⟨u, rfl⟩
    · exact ⟨(.text, _), by decide, u, rfl, Nat.le_succ _⟩
    · exact ⟨(.regex, _), by decide, u, rfl, Nat.le_succ _⟩
    · exact ⟨(.path, _), by decide, u, rfl, Nat.le_succ _⟩

namespace IsToken

variable {kind : TokenKind} {t u rest rest' : List Char} {q : Rule}

theorem size_le (h : IsToken kind t rest) (hq : q ∈ rules) : q.size (t ++ rest) ≤ t.length := by
  have hle := (le_foldl_better (t ++ rest) rules (some .invalid, 0)).2 q hq
  rwa [show rules.foldl (better (t ++ rest)) _ = _ from h.longest] at hle

theorem length_pos (h : IsToken kind t rest) : 0 < t.length := List.length_pos_iff.mpr h.ne_nil

/-- A token that begins with an opening is matched by the rule for its kind. -/
theorem literal_of_opening {e : TokenKind × List Char} (he : e ∈ openings)
    (h : IsToken kind (e.2 ++ u) rest) (hword : word (e.2 ++ (u ++ rest)) < (e.2 ++ u).length) :
    ∃ q ∈ literalRules, q.kind = some e.1 ∧ q.size (e.2 ++ (u ++ rest)) = (e.2 ++ u).length := by
  obtain ⟨hblank, hspelling⟩ := fixed_opening he (t := u ++ rest)
  have hpos := h.length_pos
  obtain ⟨q, hq, hkind, hsize, -⟩ := rule_of_longest (List.append_assoc e.2 u rest ▸ h.longest)
    fun hinvalid => h.valid (Option.some.inj hinvalid)
  rw [rules, List.mem_append, List.mem_append] at hq
  rcases hq with (hq | hq) | hq
  · rw [hblank q hq] at hsize
    omega
  · obtain ⟨entry, hentry, rfl⟩ := List.mem_map.mp hq
    have hzero := hspelling entry hentry
    dsimp only at hsize
    omega
  · by_cases hident : q.kind = some .ident
    · rw [size_ident hq hident] at hsize
      omega
    · have hne : q.size (e.2 ++ (u ++ rest)) ≠ 0 := by omega
      refine ⟨q, hq, (kind_of_opened he hq hident hne).resolve_right fun hinvalid => ?_, hsize⟩
      rw [hinvalid] at hkind
      exact h.valid (Option.some.inj hkind).symm

/-- A quoted literal ends with the quote behind its items. -/
theorem exists_quote {e : TokenKind × List Char} (he : e ∈ quoteOpenings)
    (h : IsToken kind (e.2 ++ u) rest) :
    ∃ v, u = v ++ ['"'] ∧ ∀ y, quotedItems (v ++ '"' :: y) = v.length := by
  have hopening : ∀ e ∈ quoteOpenings, e ∈ openings := by decide
  have hword : ∀ e ∈ quoteOpenings, ∀ x, word (e.2 ++ x) < e.2.length := by
    simp [quoteOpenings, word, run, isWordStart, isWordPart]
  have hsizes : ∀ e ∈ quoteOpenings, ∀ q ∈ literalRules, q.kind = some e.1 → ∀ x,
      q.size (e.2 ++ x) = closedQuote e.2.length x := by
    simp [quoteOpenings, literalRules, quoted, quotedAfter]
  have hpos := h.length_pos
  obtain ⟨q, hq, hkind, hsize⟩ := h.literal_of_opening (hopening e he) (by
    have hlt := hword e he (u ++ rest)
    rw [List.length_append]
    omega)
  rw [hsizes e he q hq hkind, List.length_append] at hsize
  simp only [closedQuote] at hsize
  split at hsize
  · rename_i hend
    obtain ⟨v, x, hsplit, hv⟩ := exists_append_of_getElem? hend
    have hends : u ++ rest = v ++ ['"'] ++ x := by simpa using hsplit
    have hlength : u.length = (v ++ ['"']).length := by
      rw [List.length_append, List.length_singleton]
      omega
    exact ⟨v, (List.append_inj hends hlength).1, quotedItems_closed (hsplit ▸ hv.symm)⟩
  · rw [List.length_append] at hpos
    omega

/-! ### No rule takes more in front of something blank -/

section Bounds

theorem run_isBlank_le (h : IsToken kind t rest) : run isBlank (t ++ rest') ≤ t.length := by
  obtain ⟨c, t, rfl⟩ := List.exists_cons_of_ne_nil h.ne_nil
  have hsolid : isBlank c = false := by
    by_contra hblank
    have hnone := longest_blank (by simpa using hblank) (t ++ rest)
    rw [← List.cons_append, h.longest] at hnone
    cases hnone
  rw [List.cons_append, run_eq_zero (front_cons.mpr hsolid)]
  exact Nat.zero_le _

theorem comment_le (h : IsToken kind t rest) (hrest : Blank rest') :
    comment (t ++ rest') ≤ t.length := by
  by_cases hzero : comment (t ++ rest') = 0
  · omega
  · obtain ⟨u, rfl⟩ := prefix_of_solid (by decide) hrest (opening_comment hzero)
    have hnone := longest_comment (u ++ rest)
    rw [show '/' :: '/' :: (u ++ rest) = ['/', '/'] ++ u ++ rest from rfl, h.longest] at hnone
    cases hnone

theorem charLiteral_le (h : IsToken kind t rest) (hrest : Blank rest') :
    charLiteral (t ++ rest') ≤ t.length := by
  by_cases hzero : charLiteral (t ++ rest') = 0
  · omega
  · obtain ⟨u, rfl⟩ := prefix_of_solid (by decide) hrest (opening_charLiteral hzero)
    have hall : ∀ q ∈ literalRules, q.kind = some .char → q.size = charLiteral := by
      simp [literalRules]
    obtain ⟨q, hq, hkind, hsize⟩ := h.literal_of_opening (e := (.char, ['\''])) (by decide)
      (by simp [word, isWordStart])
    rw [hall q hq hkind] at hsize
    -- the characters of the token decide alone
    obtain ⟨w, x, hsplit, hw⟩ := exists_charLiteral (hsize ▸ h.length_pos.ne')
    rw [hsplit, hw] at hsize
    rw [← List.append_assoc] at hsplit
    obtain ⟨rfl, -⟩ := List.append_inj hsplit hsize.symm
    exact (hw rest').le

/-- A quoted literal that is a token has its own quote at the end, and none goes on behind that. -/
theorem quoted_le (h : IsToken kind t rest) (hrest : Blank rest') {size : List Char → ℕ}
    (hsize : size ∈ [quoted, quotedAfter 'R', quotedAfter 'F', quotedOpening]) :
    size (t ++ rest') ≤ t.length := by
  by_cases hzero : size (t ++ rest') = 0
  · omega
  · have hsolid : ∀ e ∈ quoteOpenings, ∀ c ∈ e.2, Solid c := by decide
    obtain ⟨e, he, x, hsplit, hle⟩ := size_le_quotedItems hsize hzero
    obtain ⟨u, rfl⟩ := prefix_of_solid (hsolid e he) hrest ⟨x, hsplit.symm⟩
    obtain rfl : u ++ rest' = x :=
      List.append_cancel_left ((List.append_assoc _ _ _).symm.trans hsplit)
    obtain ⟨v, rfl, hv⟩ := h.exists_quote he
    have hitems : quotedItems (v ++ ['"'] ++ rest') = v.length := by
      rw [List.append_assoc]
      exact hv rest'
    rw [hitems] at hle
    simp only [List.length_append, List.length_singleton]
    omega

theorem bytesOpening_le (hrest : Blank rest') (hne : t ≠ []) : bytesOpening (t ++ rest') ≤
    t.length := by
  by_cases hzero : bytesOpening (t ++ rest') = 0
  · omega
  · obtain ⟨u, rfl⟩ := prefix_of_solid (by decide) hrest (opening_bytesOpening hzero)
    have hle : hexPairsInside (u ++ rest') ≤ u.length :=
      (hexPairsInside_le_run _).trans
        ((takes_run (fun _ => solid_hexDigit) (u ++ rest')).size_le_length hrest)
    simp only [List.cons_append, List.nil_append, bytesOpening, List.length_cons]
    omega

/-- No rule takes more than the token where something blank stands behind it. -/
theorem size_le_of_blank (h : IsToken kind t rest) (hrest : Blank rest') (hq : q ∈ rules) :
    q.size (t ++ rest') ≤ t.length := by
  rcases takes_solid hq with hsolid | hloose
  · exact (hsolid _).size_le_length hrest
  · simp only [looseRules, blankRules, openedRules, List.mem_append, List.mem_cons,
      List.not_mem_nil, or_false] at hloose
    rcases hloose with ((rfl | rfl) | rfl | rfl | rfl | rfl) | rfl | rfl
    · exact h.run_isBlank_le
    · exact h.comment_le hrest
    · exact h.charLiteral_le hrest
    · exact h.quoted_le hrest (by simp)
    · exact h.quoted_le hrest (by simp)
    · exact h.quoted_le hrest (by simp)
    · exact h.quoted_le hrest (by simp)
    · exact bytesOpening_le hrest h.ne_nil

end Bounds

/-- What stands behind a token does not matter if it is blank. -/
theorem of_blank_behind (h : IsToken kind t rest) (hrest : Blank rest') : IsToken kind t rest' := by
  obtain ⟨front, hrules, hfront⟩ := exists_rules_eq
  have hsizes : ∀ q ∈ front, q.size (t ++ rest') = q.size (t ++ rest) := by
    intro q hq
    have hmem : q ∈ rules := hrules ▸ List.mem_append_left _ hq
    have htakes := takes_rule hmem (hfront q hq)
    exact Nat.le_antisymm ((htakes _).size_le (h.size_le_of_blank hrest hmem) rest)
      ((htakes _).size_le (h.size_le hmem) rest')
  -- a rule for literals that are opened only does not win, so the rules before them do
  have hfold : front.foldl (better (t ++ rest)) (some .invalid, 0) = (some kind, t.length) := by
    have hopened : ∀ q ∈ openedRules, q.kind = some .invalid := by decide
    have hlongest := h.longest
    rw [Lexer.longest, hrules, List.foldl_append] at hlongest
    rcases foldl_better_cases (t ++ rest) openedRules
      (front.foldl (better (t ++ rest)) (some .invalid, 0)) with heq | ⟨q, hq, heq, -⟩
    · exact heq.symm.trans hlongest
    · rw [hlongest, hopened q hq, Prod.mk.injEq] at heq
      exact absurd (Option.some.inj heq.1) h.valid
  have hagain : front.foldl (better (t ++ rest')) (some .invalid, 0) = (some kind, t.length) :=
    (List.foldl_ext _ _ _ fun best q hq => by rw [better, better, hsizes q hq]).trans hfold
  refine ⟨?_, h.ne_nil, h.valid⟩
  rw [Lexer.longest, hrules, List.foldl_append, hagain]
  exact foldl_better_eq fun q hq => h.size_le_of_blank hrest (hrules ▸ List.mem_append_right _ hq)

/-- In front of something blank a token is the first lexeme. -/
theorem lexemes_eq (h : IsToken kind t rest) (hrest : Blank rest') :
    lexemes (t ++ rest') = ⟨kind, String.ofList t⟩ :: lexemes rest' :=
  lexemes_append h.ne_nil (h.of_blank_behind hrest).longest

end IsToken

/-- A match that is not invalid is a token in front of what is left. -/
theorem isToken_of_longest {cs : List Char} {kind : TokenKind} {n : ℕ}
    (h : longest cs = (some kind, n)) (hvalid : kind ≠ .invalid) :
    ∃ t rest, IsToken kind t rest ∧ t = cs.take (max n 1) := by
  have hkind : some kind ≠ some .invalid := fun hinvalid => hvalid (Option.some.inj hinvalid)
  obtain ⟨q, hq, hrule, hsize, hpos⟩ := rule_of_longest h hkind
  obtain ⟨w, rest, rfl, hw, -, -⟩ := takes_rule hq (hrule ▸ hkind) cs
  obtain rfl : w.length = n := hw.symm.trans hsize
  refine ⟨w, rest, ⟨h, List.length_pos_iff.mp hpos, hvalid⟩, ?_⟩
  rw [Nat.max_eq_left hpos, List.take_left]

/-! ## Texts with blanks between them -/

/-- The text consists of the given ones in this order, with blanks and nothing else between each
two. -/
inductive Apart : List String → String → Prop
  | nil : Apart [] ""
  | single (text : String) : Apart [text] text
  | cons {text next blanks rest : String} {texts : List String} :
      blanks ≠ "" → (∀ c ∈ blanks.toList, isBlank c = true) → Apart (next :: texts) rest →
      Apart (text :: next :: texts) (text ++ blanks ++ rest)

/-- Joined by single spaces, texts are apart. -/
theorem Apart.intercalate : (texts : List String) → Apart texts (" ".intercalate texts)
  | [] => .nil
  | [text] => by
    rw [String.intercalate_singleton]
    exact .single text
  | text :: next :: texts => by
    rw [String.intercalate_cons_cons]
    exact .cons (by decide) (by decide) (.intercalate (next :: texts))

/-- Tokens with blanks between them are lexed one by one. -/
theorem Apart.lexemes_eq {ls : List Lexeme} {spaced : String}
    (hls : ∀ l ∈ ls, ∃ rest, IsToken l.kind l.text.toList rest)
    (h : Apart (ls.map (·.text)) spaced) : lexemes spaced.toList = ls := by
  induction ls generalizing spaced with
  | nil =>
    cases h
    rfl
  | cons l ls ih =>
    obtain ⟨_, hl⟩ := hls l List.mem_cons_self
    have hbehind := fun spaced => @ih spaced fun l' hl' => hls l' (List.mem_cons_of_mem l hl')
    cases ls with
    | nil =>
      cases h
      rw [← List.append_nil l.text.toList, hl.lexemes_eq front_nil,
        String.ofList_toList, lexemes_nil]
    | cons l' ls =>
      cases h with
      | @cons _ _ blanks rest _ hne hblanks hrest =>
        have hblank : Blank (blanks.toList ++ rest.toList) := by
          cases hcs : blanks.toList with
          | nil => exact absurd (String.toList_eq_nil_iff.mp hcs) hne
          | cons c cs => exact front_cons.mpr (hblanks c (hcs ▸ List.mem_cons_self))
        rw [String.toList_append, String.toList_append, List.append_assoc, hl.lexemes_eq hblank,
          String.ofList_toList, lexemes_blanks hblanks, hbehind rest hrest]

/-- **Spacing does not matter.** The texts of the tokens of a source without invalid tokens, written
with blanks between each two in any way, give tokens of the same kinds with the same texts in the
same order; so do the texts joined by single spaces. -/
theorem spacing_does_not_matter (source : String) (h : ∀ t ∈ tokenize source, t.kind ≠ .invalid) :
    (∀ spaced, Apart ((tokenize source).map (·.text)) spaced →
      (tokenize spaced).map Token.lexeme = (tokenize source).map Token.lexeme) ∧
    (tokenize (" ".intercalate ((tokenize source).map (·.text)))).map Token.lexeme =
      (tokenize source).map Token.lexeme := by
  suffices hapart : ∀ spaced, Apart ((tokenize source).map (·.text)) spaced →
      (tokenize spaced).map Token.lexeme = (tokenize source).map Token.lexeme from
    ⟨hapart, hapart _ (.intercalate _)⟩
  intro spaced hspaced
  refine Apart.lexemes_eq (fun l hl => ?_) (by rwa [List.map_map])
  obtain ⟨t, ht, rfl⟩ := List.mem_map.mp hl
  obtain ⟨cs, n, hlongest, htext⟩ := longest_of_mem_lexemes hl
  obtain ⟨w, rest, htoken, rfl⟩ := isToken_of_longest hlongest (h t ht)
  rw [htext, String.toList_ofList]
  exact ⟨rest, htoken⟩

/-- Between the tokens of a text with quotes and slashes in them stand other blanks, and no comment.
-/
theorem spacing_does_not_matter_slashes :
    let source := "R\"//\"/'\"'//B'"
    (∀ t ∈ tokenize source, t.kind ≠ .invalid) ∧
      (tokenize "R\"//\"\t/ \n'\"'").map Token.lexeme = (tokenize source).map Token.lexeme ∧
      (tokenize "R\"//\" / '\"'").map Token.lexeme = (tokenize source).map Token.lexeme := by
  have hvalid : ∀ t ∈ tokenize "R\"//\"/'\"'//B'", t.kind ≠ .invalid := by decide +kernel
  have htexts : (tokenize "R\"//\"/'\"'//B'").map (·.text) = ["R\"//\"", "/", "'\"'"] := by
    decide +kernel
  obtain ⟨hblanks, hspaces⟩ := spacing_does_not_matter "R\"//\"/'\"'//B'" hvalid
  rw [htexts] at hblanks hspaces
  refine ⟨hvalid, hblanks _ ?_, hspaces⟩
  have hlast : Apart ["/", "'\"'"] ("/" ++ " \n" ++ "'\"'") :=
    .cons (by decide) (by decide) (.single _)
  exact .cons (by decide : "\t" ≠ "") (by decide) hlast

end TupleLang.Lexer
