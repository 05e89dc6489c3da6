import Mathlib
import TupleLang.Token.Lexer

/-!
# Lexemes

A lexeme is a token without its place. The lexemes of a text do not depend on where the text stands,
so the lexemes of a text that starts with a match are that match and the lexemes of what is left.

The match at the front of a text is the first of the longest ones: longer than those of the rules
before it, and at least as long as those of the rules behind it.
-/

namespace TupleLang

/-- What holds of all characters of a list is decided along the list, not over all characters. -/
instance (priority := high) decidableForallMemChar (p : Char → Prop) [DecidablePred p]
    (l : List Char) : Decidable (∀ c ∈ l, p c) :=
  List.decidableBAll p l

/-- What holds of some character of a list is decided along the list. -/
instance (priority := high) decidableExistsMemChar (p : Char → Prop) [DecidablePred p]
    (l : List Char) : Decidable (∃ c ∈ l, p c) :=
  List.decidableBEx p l

/-- A token without its place. -/
structure Lexeme where
  kind : TokenKind
  text : String
  deriving DecidableEq, Repr

/-- The lexeme of a token. -/
def Token.lexeme (t : Token) : Lexeme := ⟨t.kind, t.text⟩

@[simp] theorem Token.kind_lexeme (t : Token) : t.lexeme.kind = t.kind := rfl

@[simp] theorem Token.text_lexeme (t : Token) : t.lexeme.text = t.text := rfl

namespace Lexer

/-! ## The longest match -/

section Longest

variable {cs : List Char} {r : Rule} {pre post l : List Rule} {best : Option TokenKind × Nat}

/-- Shorter matches do not reach a bound that the best one so far does not reach. -/
theorem foldl_better_lt {n : Nat} (hbest : best.2 < n) (hl : ∀ q ∈ l, q.size cs < n) :
    (l.foldl (better cs) best).2 < n := by
  induction l generalizing best with
  | nil => exact hbest
  | cons q l ih =>
    refine ih ?_ fun q' hq' => hl q' (List.mem_cons_of_mem _ hq')
    unfold better
    split
    · exact hl q List.mem_cons_self
    · exact hbest

/-- Matches that are no longer leave the best one as it is. -/
theorem foldl_better_eq (hl : ∀ q ∈ l, q.size cs ≤ best.2) : l.foldl (better cs) best = best := by
  induction l generalizing best with
  | nil => rfl
  | cons q l ih =>
    have hq := hl q List.mem_cons_self
    rw [List.foldl_cons, better, if_neg (by omega)]
    exact ih fun q' hq' => hl q' (List.mem_cons_of_mem _ hq')

/-- Rules leave the best match as it is, or one of them has a longer one. -/
theorem foldl_better_cases (cs : List Char) (l : List Rule) (best : Option TokenKind × Nat) :
    l.foldl (better cs) best = best ∨
      ∃ q ∈ l, l.foldl (better cs) best = (q.kind, q.size cs) ∧ best.2 < q.size cs := by
  induction l generalizing best with
  | nil => exact .inl rfl
  | cons q l ih =>
    rw [List.foldl_cons]
    rcases ih (better cs best q) with hsame | ⟨q', hq', hsame, hlt⟩
    · rw [hsame, better]
      split
      · exact .inr ⟨q, List.mem_cons_self, rfl, by assumption⟩
      · exact .inl rfl
    · refine .inr ⟨q', List.mem_cons_of_mem _ hq', hsame, ?_⟩
      unfold better at hlt
      split at hlt
      · dsimp only at hlt
        omega
      · exact hlt

/-- The best match is at least as long as the one before, and as that of every rule. -/
theorem le_foldl_better (cs : List Char) (l : List Rule) (best : Option TokenKind × Nat) :
    best.2 ≤ (l.foldl (better cs) best).2 ∧ ∀ q ∈ l, q.size cs ≤ (l.foldl (better cs) best).2 := by
  induction l generalizing best with
  | nil => simp
  | cons q l ih =>
    obtain ⟨hbest, hl⟩ := ih (better cs best q)
    have hq : best.2 ≤ (better cs best q).2 ∧ q.size cs ≤ (better cs best q).2 := by
      unfold better
      split
      · exact ⟨by dsimp only; omega, Nat.le_refl _⟩
      · exact ⟨Nat.le_refl _, by omega⟩
    rw [List.foldl_cons]
    refine ⟨Nat.le_trans hq.1 hbest, fun q' hq' => ?_⟩
    rcases List.mem_cons.mp hq' with rfl | hq'
    · exact Nat.le_trans hq.2 hbest
    · exact hl q' hq'

/-- The first of the longest matches wins. -/
theorem longest_eq (hrules : rules = pre ++ r :: post) (hpos : 0 < r.size cs)
    (hpre : ∀ q ∈ pre, q.size cs < r.size cs) (hpost : ∀ q ∈ post, q.size cs ≤ r.size cs) :
    longest cs = (r.kind, r.size cs) := by
  have hlt : (pre.foldl (better cs) (some .invalid, 0)).2 < r.size cs := foldl_better_lt hpos hpre
  rw [longest, hrules, List.foldl_append, List.foldl_cons]
  rw [show better cs _ r = (r.kind, r.size cs) from if_pos hlt]
  exact foldl_better_eq hpost

/-- What is matched and not invalid is a match of one of the rules, and it is not empty. -/
theorem rule_of_longest {kind : Option TokenKind} {n : Nat} (h : longest cs = (kind, n))
    (hkind : kind ≠ some .invalid) : ∃ q ∈ rules, q.kind = kind ∧ q.size cs = n ∧ 0 < n := by
  rw [longest] at h
  rcases foldl_better_cases cs rules (some .invalid, 0) with heq | ⟨q, hq, heq, hpos⟩
  · rw [heq, Prod.mk.injEq] at h
    exact absurd h.1.symm hkind
  · rw [heq, Prod.mk.injEq] at h
    exact ⟨q, hq, h.1, h.2, h.2 ▸ hpos⟩

/-- A literal that is longer than all other matches wins. -/
theorem longest_literal {kind : TokenKind} {n : Nat} (hpos : 0 < n)
    (hr : ∃ r ∈ literalRules, r.size cs = n) (hblank : ∀ q ∈ blankRules, q.size cs < n)
    (hspelling : ∀ q ∈ spellings, fixed q.1 cs < n)
    (hliteral : ∀ q ∈ literalRules, (q.kind = some kind ∧ q.size cs = n) ∨ q.size cs < n) :
    longest cs = (some kind, n) := by
  obtain ⟨r, hr, hsize⟩ := hr
  have hle := (le_foldl_better cs rules (some .invalid, 0)).2 r (List.mem_append_right _ hr)
  rw [hsize] at hle
  rcases foldl_better_cases cs rules (some .invalid, 0) with heq | ⟨q, hq, heq, -⟩
  · rw [heq] at hle
    exact absurd hle (Nat.not_le_of_lt hpos)
  · rw [heq] at hle
    dsimp only at hle
    rw [rules, List.mem_append, List.mem_append] at hq
    rcases hq with (hq | hq) | hq
    · exact absurd hle (Nat.not_le_of_lt (hblank q hq))
    · obtain ⟨entry, hentry, rfl⟩ := List.mem_map.mp hq
      exact absurd hle (Nat.not_le_of_lt (hspelling entry hentry))
    · rcases hliteral q hq with ⟨hkind, hn⟩ | hlt
      · rw [longest, heq, hkind, hn]
      · exact absurd hle (Nat.not_le_of_lt hlt)

/-- The length of a spelling that is there. -/
theorem fixed_eq {text : String} (h : text.toList <+: cs) : fixed text cs = text.length := by
  rw [fixed, if_pos (List.isPrefixOf_iff_prefix.mpr h)]

/-- A spelling that has a length is there. -/
theorem prefix_of_fixed {text : String} (h : fixed text cs ≠ 0) : text.toList <+: cs := by
  unfold fixed at h
  split at h
  · exact List.isPrefixOf_iff_prefix.mp (by assumption)
  · exact absurd rfl h

/-- A spelling wins if no other spelling that is there is longer and no literal is. -/
theorem longest_spelling {text : String} {kind : TokenKind} (hmem : (text, kind) ∈ spellings)
    ( hprefix : text.toList <+: cs) (hblank : ∀ q ∈ blankRules, q.size cs < text.length)
    (hspelling : ∀ q ∈ spellings, q.1.toList <+: cs → q.1.length ≤ text.length)
    (hliteral : ∀ q ∈ literalRules, q.size cs ≤ text.length) :
    longest cs = (some kind, text.length) := by
  obtain ⟨pre, post, hsplit⟩ := List.append_of_mem hmem
  have hpos : 0 < text.length := by
    have hall : ∀ q ∈ spellings, 0 < q.1.length := by decide
    exact hall _ hmem
  have hnodup : (spellings.map (·.1)).Nodup := by decide
  have hsize : fixed text cs = text.length := fixed_eq hprefix
  -- no spelling is longer, and those in front of it are shorter, so it wins every tie
  have hle : ∀ q ∈ spellings, fixed q.1 cs ≤ text.length := by
    intro q hq
    by_cases hzero : fixed q.1 cs = 0
    · omega
    · rw [fixed_eq (prefix_of_fixed hzero)]
      exact hspelling q hq (prefix_of_fixed hzero)
  have hlt : ∀ q ∈ pre, fixed q.1 cs < text.length := by
    intro q hq
    have hq' : q ∈ spellings := by simp [hsplit, hq]
    refine Nat.lt_of_le_of_ne (hle q hq') fun heq => ?_
    have hq₁ : q.1.toList <+: cs := prefix_of_fixed (by omega)
    have htext : q.1.toList = text.toList := by
      rw [fixed_eq hq₁, ← String.length_toList, ← String.length_toList] at heq
      exact (List.prefix_of_prefix_length_le hq₁ hprefix (Nat.le_of_eq heq)).eq_of_length heq
    rw [hsplit, List.map_append, List.map_cons, List.nodup_append] at hnodup
    exact hnodup.2.2 q.1 (List.mem_map_of_mem hq) text List.mem_cons_self
      (String.toList_inj.mp htext)
  -- the rule of the spelling splits the table into what comes before and what comes after
  have hrules : rules =
      (blankRules ++ pre.map fun q => ⟨some q.2, fixed q.1⟩) ++
        ⟨some kind, fixed text⟩ ::
          ((post.map fun q => ⟨some q.2, fixed q.1⟩) ++ literalRules) := by
    simp [rules, spellingRules, hsplit]
  have hrun := longest_eq hrules (hsize ▸ hpos : 0 < fixed text cs)
  rw [show (⟨some kind, fixed text⟩ : Rule).size cs = text.length from hsize] at hrun
  refine hrun (fun q hq => ?_) fun q hq => ?_
  · rcases List.mem_append.mp hq with hq | hq
    · exact hblank q hq
    · obtain ⟨entry, hentry, rfl⟩ := List.mem_map.mp hq
      exact hlt entry hentry
  · rcases List.mem_append.mp hq with hq | hq
    · obtain ⟨entry, hentry, rfl⟩ := List.mem_map.mp hq
      exact hle entry (by simp [hsplit, hentry])
    · exact hliteral q hq

/-- A match of a kind that only literals have is longer than every spelling that is there. -/
theorem literal_of_longest {kind : TokenKind} {n : Nat} (h : longest cs = (some kind, n))
    (hkind : ∀ q ∈ spellings, q.2 ≠ kind) (hinvalid : kind ≠ .invalid) :
    (∃ q ∈ literalRules, q.kind = some kind ∧ q.size cs = n) ∧
      ∀ q ∈ spellings, fixed q.1 cs < n := by
  rw [longest, rules, List.foldl_append] at h
  have hle := (le_foldl_better cs (blankRules ++ spellingRules) (some .invalid, 0)).2
  have hfront : ((blankRules ++ spellingRules).foldl (better cs) (some .invalid, 0)).1 ≠
    some kind := by
    rcases foldl_better_cases cs (blankRules ++ spellingRules) (some .invalid, 0) with
      heq | ⟨q, hq, heq, -⟩
    · rw [heq]
      exact fun h => hinvalid (Option.some.inj h).symm
    · rw [heq]
      rcases List.mem_append.mp hq with hq | hq
      · have hnone : ∀ q ∈ blankRules, q.kind = none := by simp [blankRules]
        simp [hnone q hq]
      · obtain ⟨entry, hentry, rfl⟩ := List.mem_map.mp hq
        exact fun h => hkind entry hentry (Option.some.inj h)
  generalize (blankRules ++ spellingRules).foldl (better cs) (some .invalid, 0) = front at *
  rcases foldl_better_cases cs literalRules front with heq | ⟨q, hq, heq, hlt⟩
  · rw [heq] at h
    exact absurd (congrArg Prod.fst h) hfront
  · rw [heq, Prod.mk.injEq] at h
    refine ⟨⟨q, hq, h.1, h.2⟩, fun entry hentry => ?_⟩
    have hentry' := hle ⟨some entry.2, fixed entry.1⟩
      (List.mem_append_right _ (List.mem_map.mpr ⟨entry, hentry, rfl⟩))
    rw [← h.2]
    exact Nat.lt_of_le_of_lt hentry' hlt

end Longest

/-! ## The lexemes of a text -/

/-- The lexemes of a text. -/
def lexemes (cs : List Char) : List Lexeme := (tokensFrom 0 {} cs).map Token.lexeme

/-- The lexemes of a text do not depend on its place, and what has been dealt with has none. -/
theorem map_lexeme_tokensFrom (skip : Nat) (p : Position) (cs : List Char) :
    (tokensFrom skip p cs).map Token.lexeme = lexemes (cs.drop skip) := by
  suffices hplace : ∀ (skip : Nat) (p q : Position),
      (tokensFrom skip p cs).map Token.lexeme =
        (tokensFrom 0 q (cs.drop skip)).map Token.lexeme from hplace skip p {}
  clear skip p
  induction cs with
  | nil => simp [tokensFrom]
  | cons c cs ih =>
    intro skip p q
    cases skip with
    | succ skip => exact ih skip (p.after c) q
    | zero =>
      simp only [List.drop_zero, tokensFrom]
      have hrest := (ih ((longest (c :: cs)).2 - 1) (p.after c) {}).trans
        (ih ((longest (c :: cs)).2 - 1) (q.after c) {}).symm
      cases (longest (c :: cs)).1 with
      | none => exact hrest
      | some kind => exact congrArg (_ :: ·) hrest

@[simp] theorem lexemes_nil : lexemes [] = [] := rfl

/-- The lexemes of a text that does not start with something blank. -/
theorem lexemes_of_some {c : Char} {cs : List Char} {kind : TokenKind} {n : Nat}
    (h : longest (c :: cs) = (some kind, n)) :
    lexemes (c :: cs) =
      ⟨kind, String.ofList ((c :: cs).take (max n 1))⟩ :: lexemes (cs.drop (n - 1)) := by
  rw [lexemes, tokensFrom, h, ← map_lexeme_tokensFrom]
  rfl

/-- The lexemes of a text that starts with something blank. -/
theorem lexemes_of_none {c : Char} {cs : List Char} {n : Nat}
    (h : longest (c :: cs) = (none, n)) : lexemes (c :: cs) = lexemes (cs.drop (n - 1)) := by
  rw [lexemes, tokensFrom, h, ← map_lexeme_tokensFrom]

/-- A match is the first lexeme. -/
theorem lexemes_append {w rest : List Char} {kind : TokenKind} (hw : w ≠ [])
    (h : longest (w ++ rest) = (some kind, w.length)) :
    lexemes (w ++ rest) = ⟨kind, String.ofList w⟩ :: lexemes rest := by
  cases w with
  | nil => exact absurd rfl hw
  | cons c w =>
    rw [List.cons_append] at h ⊢
    rw [lexemes_of_some h]
    simp

end Lexer

/-- The lexemes that a cursor has ahead. -/
def Cursor.lexemes (c : Cursor) : List Lexeme :=
  (c.tokens.toList.drop c.pos).map Token.lexeme

/-- A cursor at the front of a source text has the lexemes of the text ahead. -/
theorem Cursor.lexemes_ofSource (source : String) :
    (ofSource source).lexemes = Lexer.lexemes source.toList := by
  simp [Cursor.lexemes, ofSource, ofTokens, Lexer.tokenize, Lexer.lexemes]

end TupleLang
