import TupleLang.Proofs.Lexeme

/-!
# Places of tokens

The lexer takes a text apart without losing any of it. `Laid p cs tokens` says that a text `cs`,
which begins at place `p`, is laid out as `tokens` with gaps before, between and behind them, and
that there is nothing but blanks and comments in the gaps (`Skipped`). The tokens of a text are laid
out in it (`laid_tokensFrom`).

A place counts bytes, lines and the bytes of the current line. It is a function of the text before
it (`offset_foldl`, `line_foldl`, `column_foldl`), so that the span of a token can be read off the
source (`tokens_are_slices_of_source`).
-/

namespace TupleLang.Lexer

open String (utf8Len)

/-! ## Gaps -/

/-- The text `gap` in front of `rest` is made of blanks and of comments up to the end of their
lines. -/
inductive Skipped : (gap rest : List Char) → Prop
  | nil {rest : List Char} : Skipped [] rest
  | blank {c : Char} {gap rest : List Char} : isBlank c = true → Skipped gap rest →
      Skipped (c :: gap) rest
  | comment {body gap rest : List Char} : '\n' ∉ body → (∀ c ∈ (gap ++ rest).head?, c = '\n') →
      Skipped gap rest → Skipped ('/' :: '/' :: (body ++ gap)) rest

namespace Skipped

variable {gap gap' rest cs : List Char}

/-- One gap behind the other. -/
theorem append (h : Skipped gap (gap' ++ rest)) (h' : Skipped gap' rest) :
    Skipped (gap ++ gap') rest := by
  generalize hall : gap' ++ rest = all at h
  induction h with
  | nil => exact h'
  | blank hc _ ih => exact .blank hc (ih hall)
  | @comment body gap rest' hbody hend _ ih =>
    subst hall
    rw [List.cons_append, List.cons_append, List.append_assoc]
    exact .comment hbody (by rwa [List.append_assoc]) (ih rfl)

/-- Blanks are skipped. -/
theorem blanks (h : ∀ c ∈ gap, isBlank c = true) : Skipped gap rest := by
  induction gap with
  | nil => exact .nil
  | cons c gap ih =>
    exact .blank (h c List.mem_cons_self) (ih fun d hd => h d (List.mem_cons_of_mem _ hd))

end Skipped

/-- The leading characters in a class. -/
theorem take_run (p : Char → Bool) (cs : List Char) : cs.take (run p cs) = cs.takeWhile p :=
  (List.prefix_iff_eq_take.mp (List.takeWhile_prefix p)).symm

/-- What is behind the leading characters in a class is not in the class. -/
theorem drop_run (p : Char → Bool) (cs : List Char) : cs.drop (run p cs) = cs.dropWhile p := by
  have hsplit := List.take_append_drop (run p cs) cs
  rw [take_run] at hsplit
  exact List.append_cancel_left (hsplit.trans List.takeWhile_append_dropWhile.symm)

/-- A match without a kind is a gap, and it is not empty. -/
theorem skipped_of_longest {cs : List Char} {n : Nat} (h : longest cs = (none, n)) :
    0 < n ∧ Skipped (cs.take n) (cs.drop n) := by
  have hnone : ∀ q ∈ spellingRules ++ literalRules, q.kind ≠ none := by
    intro q hq
    rcases List.mem_append.mp hq with hq | hq
    · obtain ⟨entry, -, rfl⟩ := List.mem_map.mp hq
      exact Option.some_ne_none _
    · have hliteral : ∀ q ∈ literalRules, q.kind ≠ none := by simp [literalRules]
      exact hliteral q hq
  obtain ⟨q, hq, hkind, rfl, hpos⟩ := rule_of_longest h (Option.some_ne_none _).symm
  refine ⟨hpos, ?_⟩
  rw [rules, List.append_assoc, List.mem_append] at hq
  rcases hq with hq | hq
  · rcases List.mem_cons.mp hq with rfl | hq
    · refine .blanks fun c hc => ?_
      rw [show (cs.take _) = cs.takeWhile isBlank from take_run isBlank cs] at hc
      exact List.mem_takeWhile_imp hc
    · obtain rfl := List.mem_singleton.mp hq
      -- a comment has matched, so the text begins with its two slashes
      change Skipped (cs.take (comment cs)) (cs.drop (comment cs))
      change 0 < comment cs at hpos
      unfold comment at hpos ⊢
      split at hpos
      · rename_i body
        rw [Nat.add_comm 2, List.take_succ_cons, List.take_succ_cons, List.drop_succ_cons,
          List.drop_succ_cons, take_run, drop_run]
        rw [← List.append_nil (body.takeWhile _)]
        refine .comment (fun hmem => ?_) (fun c hc => ?_) .nil
        · simpa using List.mem_takeWhile_imp hmem
        · rw [List.nil_append] at hc
          have hhead := List.head?_dropWhile_not (fun c : Char => c != '\n') body
          rw [Option.mem_def.mp hc] at hhead
          simpa using hhead
      · cases hpos
  · exact absurd hkind (hnone q hq)

/-! ## Places -/

section Places

variable (cs : List Char)

/-- Characters move the offset on by their bytes. -/
theorem offset_foldl (p : Position) : (cs.foldl Position.after p).offset =
    p.offset + utf8Len cs := by
  induction cs generalizing p with
  | nil => rfl
  | cons c cs ih =>
    rw [List.foldl_cons, ih, String.utf8Len_cons]
    simp only [Position.after]
    omega

/-- The line number counts the newlines before. -/
theorem line_foldl : (cs.foldl Position.after {}).line = 1 + cs.count '\n' := by
  induction cs using List.reverseRecOn with
  | nil => rfl
  | append_singleton cs c ih =>
    rw [List.foldl_append, List.foldl_cons, List.foldl_nil, List.count_append]
    by_cases hc : c = '\n'
    · simp [Position.after, hc, ih]
      omega
    · simp [Position.after, hc, ih]

/-- The column number counts the bytes since the last newline. -/
theorem column_foldl :
    (cs.foldl Position.after {}).column = 1 + utf8Len (cs.rtakeWhile (· ≠ '\n')) := by
  induction cs using List.reverseRecOn with
  | nil => rfl
  | append_singleton cs c ih =>
    rw [List.foldl_append, List.foldl_cons, List.foldl_nil, List.rtakeWhile_concat]
    by_cases hc : c = '\n'
    · simp [Position.after, hc]
    · simp [Position.after, hc, ih]
      omega

end Places

/-! ## Layout -/

/-- The text `cs`, which begins at place `p`, consists of the tokens with gaps before, between and
behind them. Every token is the longest match at its place; where nothing matches it is one
character. -/
inductive Laid : Position → List Char → List Token → Prop
  | done {p : Position} {gap : List Char} : Skipped gap [] → Laid p gap []
  | token {p : Position} {gap text rest : List Char} {kind : TokenKind} {n : Nat}
      {tokens : List Token} : Skipped gap (text ++ rest) → text ≠ [] →
      longest (text ++ rest) = (some kind, n) → text = (text ++ rest).take (max n 1) →
      Laid ((gap ++ text).foldl Position.after p) rest tokens →
      Laid p (gap ++ (text ++ rest)) (tokenAt (gap.foldl Position.after p) kind text :: tokens)

/-- Something skipped in front of the tokens. -/
theorem Laid.skip {p : Position} {gap cs : List Char} {tokens : List Token} (hgap : Skipped gap cs)
    (h : Laid (gap.foldl Position.after p) cs tokens) : Laid p (gap ++ cs) tokens := by
  cases h with
  | done hrest => exact .done (Skipped.append (by rwa [List.append_nil]) hrest)
  | @token _ gap' text rest kind n tokens hgap' htext hlongest htake hrest =>
    rw [← List.append_assoc, ← List.foldl_append]
    refine .token (hgap.append hgap') htext hlongest htake ?_
    rwa [List.append_assoc, List.foldl_append]

/-- Characters that have been dealt with are passed. -/
theorem tokensFrom_skip (skip : Nat) (p : Position) (cs : List Char) :
    tokensFrom skip p cs = tokensFrom 0 ((cs.take skip).foldl Position.after p) (cs.drop skip) := by
  induction cs generalizing skip p with
  | nil => simp [tokensFrom]
  | cons c cs ih =>
    cases skip with
    | zero => rfl
    | succ skip => exact ih skip (p.after c)

/-- The tokens of a text are laid out in it. -/
theorem laid_tokensFrom (p : Position) (cs : List Char) : Laid p cs (tokensFrom 0 p cs) := by
  -- every match takes at least one character, so what is left is shorter
  induction hlength : cs.length using Nat.strong_induction_on generalizing p cs with
  | _ length ih =>
    cases cs with
    | nil => exact .done .nil
    | cons c cs =>
      have hrest : ∀ n, Laid (((c :: cs).take (n + 1)).foldl Position.after p)
          ((c :: cs).drop (n + 1)) (tokensFrom n (p.after c) cs) := by
        intro n
        rw [tokensFrom_skip]
        refine ih (cs.drop n).length ?_ _ _ rfl
        rw [← hlength, List.length_drop, List.length_cons]
        omega
      simp only [tokensFrom]
      cases hlongest : longest (c :: cs) with
      | mk kind n =>
        cases kind with
        | none =>
          obtain ⟨hpos, hskipped⟩ := skipped_of_longest hlongest
          have hlaid := hrest (n - 1)
          rw [Nat.sub_add_cancel hpos] at hlaid
          have hskip := Laid.skip hskipped hlaid
          rwa [List.take_append_drop] at hskip
        | some kind =>
          have hlaid := hrest (n - 1)
          rw [show n - 1 + 1 = max n 1 by omega] at hlaid
          -- the token is what the match takes, and there is no gap in front of it
          have hsplit := List.take_append_drop (max n 1) (c :: cs)
          have htoken : Laid p ([] ++ ((c :: cs).take (max n 1) ++ (c :: cs).drop (max n 1)))
              (tokenAt p kind ((c :: cs).take (max n 1)) :: tokensFrom (n - 1) (p.after c) cs) :=
            .token .nil (by simp) (by rwa [hsplit]) (by rw [hsplit]) hlaid
          rwa [hsplit, List.nil_append] at htoken

/-! ## Slices of the source -/

/-- The part of a source text from one byte offset to another. -/
def slice (source : String) (start stop : Nat) : String :=
  String.Pos.Raw.extract source ⟨start⟩ ⟨stop⟩

/-- The slice between two parts of a text is what stands between them. -/
theorem slice_eq {source : String} {before text after : List Char}
    (h : source.toList = before ++ text ++ after) :
    slice source (utf8Len before) (utf8Len before + utf8Len text) = String.ofList text := by
  obtain rfl : source = String.ofList (before ++ text ++ after) := by
    rw [← h, String.ofList_toList]
  exact String.extract_of_valid before text after

/-- The slices of a text that is cut at two places. -/
theorem toList_slices {source : String} {before text after : List Char}
    (h : source.toList = before ++ text ++ after) :
    (slice source 0 (utf8Len before)).toList = before ∧
      (slice source (utf8Len before) (utf8Len before + utf8Len text)).toList = text ∧
      (slice source (utf8Len before + utf8Len text) source.utf8ByteSize).toList = after := by
  have hsize : source.utf8ByteSize = utf8Len (before ++ text) + utf8Len after := by
    rw [← String.utf8Len_toList, h, String.utf8Len_append]
  have hbefore := slice_eq (show source.toList = [] ++ before ++ (text ++ after) by simpa using h)
  have hafter := slice_eq (show source.toList = before ++ text ++ after ++ [] by simpa using h)
  rw [← hsize, String.utf8Len_append] at hafter
  rw [String.utf8Len_nil, Nat.zero_add] at hbefore
  rw [hbefore, slice_eq h, hafter]
  simp

/-- The token stands in the source where its span says: it is not empty, its text is the slice of
its range and the longest match there, its line is one more than the number of newlines before it,
and its column is one more than the number of bytes since the last of these. -/
structure Placed (source : String) (t : Token) : Prop where
  nonempty : t.span.start < t.span.stop
  inside : t.span.stop ≤ source.utf8ByteSize
  text : t.text = slice source t.span.start t.span.stop
  longest : ∃ n, Lexer.longest (slice source t.span.start source.utf8ByteSize).toList =
    (some t.kind, n) ∧
      t.text.toList = (slice source t.span.start source.utf8ByteSize).toList.take (max n 1)
  line : t.span.line = 1 + (slice source 0 t.span.start).toList.count '\n'
  column : t.span.column = 1 + utf8Len ((slice source 0 t.span.start).toList.rtakeWhile (· ≠ '\n'))

/-- Where the gaps before, between and behind tokens begin and end, in a text from `start` to
`stop`. -/
def gaps (start stop : Nat) : List Token → List (Nat × Nat)
  | [] => [(start, stop)]
  | t :: tokens => (start, t.span.start) :: gaps t.span.stop stop tokens

/-- The part of the source from one offset to another is a gap. -/
def IsGap (source : String) (start stop : Nat) : Prop :=
  start ≤ stop ∧ stop ≤ source.utf8ByteSize ∧
    Skipped (slice source start stop).toList (slice source stop source.utf8ByteSize).toList

theorem isGap_of_skipped {source : String} {before gap rest : List Char}
    (h : source.toList = before ++ gap ++ rest) (hgap : Skipped gap rest) :
    IsGap source (utf8Len before) (utf8Len before + utf8Len gap) := by
  obtain ⟨-, hslice, hrest⟩ := toList_slices h
  refine ⟨Nat.le_add_right _ _, ?_, by rwa [hslice, hrest]⟩
  rw [← String.utf8Len_toList, h, String.utf8Len_append, String.utf8Len_append]
  omega

theorem placed_tokenAt {source : String} {before text rest : List Char} {kind : TokenKind} {n : Nat}
    (h : source.toList = before ++ text ++ rest) (htext : text ≠ [])
    (hlongest : longest (text ++ rest) = (some kind, n))
    (htake : text = (text ++ rest).take (max n 1)) :
    Placed source (tokenAt (before.foldl Position.after {}) kind text) := by
  have hsize : source.utf8ByteSize = utf8Len before + utf8Len text + utf8Len rest := by
    rw [← String.utf8Len_toList, h, String.utf8Len_append, String.utf8Len_append]
  have hpos : utf8Len text ≠ 0 := String.utf8Len_eq_zero.not.mpr htext
  have hstart : (tokenAt (before.foldl Position.after {}) kind text).span.start =
    utf8Len before := by
    simp [tokenAt, offset_foldl]
  have hstop : (tokenAt (before.foldl Position.after {}) kind text).span.stop =
      utf8Len before + utf8Len text := by
    simp [tokenAt, offset_foldl, String.utf8ByteSize_ofList]
  obtain ⟨hbefore, -, -⟩ := toList_slices h
  -- seen from the front of the token, the rest of the source is one piece
  obtain ⟨-, hahead, -⟩ :=
    toList_slices (show source.toList = before ++ (text ++ rest) ++ [] by simpa using h)
  rw [String.utf8Len_append, ← Nat.add_assoc, ← hsize] at hahead
  exact
    { nonempty := by rw [hstart, hstop]; omega
      inside := by rw [hstop, hsize]; omega
      text := by rw [hstart, hstop, slice_eq h]; rfl
      longest := ⟨n, by rw [hstart, hahead, hlongest]; rfl, by
        rw [hstart, hahead, ← htake]
        simp [tokenAt]⟩
      line := by rw [hstart, hbefore, ← line_foldl]; rfl
      column := by rw [hstart, hbefore, ← column_foldl]; rfl }

namespace Laid

variable {source : String} {before cs : List Char} {tokens : List Token}

/-- No token begins before the text in which the tokens are laid out. -/
theorem le_start {p : Position} (h : Laid p cs tokens) : ∀ t ∈ tokens, p.offset ≤ t.span.start := by
  induction h with
  | done => simp
  | @token p gap text rest kind n tokens _ _ _ _ _ ih =>
    intro t ht
    rcases List.mem_cons.mp ht with rfl | ht
    · simp [tokenAt, offset_foldl]
    · have hle := ih t ht
      rw [offset_foldl] at hle
      omega

/-- Tokens that are laid out in the rest of a source have their places there. -/
theorem placed (h : Laid (before.foldl Position.after {}) cs tokens)
    (hsource : source.toList = before ++ cs) :
    (∀ t ∈ tokens, Placed source t) ∧ tokens.Pairwise (fun t u => t.span.stop ≤ u.span.start) ∧
      ∀ gap ∈ gaps (utf8Len before) source.utf8ByteSize tokens, IsGap source gap.1 gap.2 := by
  generalize hp : before.foldl Position.after {} = p at h
  induction h generalizing before with
  | @done p gap hgap =>
    have hgap := isGap_of_skipped
      (show source.toList = before ++ gap ++ [] by simpa using hsource) hgap
    have hsize : source.utf8ByteSize = utf8Len before + utf8Len gap := by
      rw [← String.utf8Len_toList, hsource, String.utf8Len_append]
    rw [← hsize] at hgap
    simpa [gaps] using hgap
  | @token p gap text rest kind n tokens hgap htext hlongest htake hrest ih =>
    subst hp
    obtain ⟨hplaced, hpairwise, hgaps⟩ := ih
      (show source.toList = before ++ (gap ++ text) ++ rest by simpa using hsource)
      (by rw [List.foldl_append])
    have htoken := placed_tokenAt
      (show source.toList = before ++ gap ++ text ++ rest by simpa using hsource) htext
        hlongest htake
    have hfirst := isGap_of_skipped
      (show source.toList = before ++ gap ++ (text ++ rest) by simpa using hsource) hgap
    rw [List.foldl_append] at htoken
    have hstart : (tokenAt ((gap.foldl Position.after (before.foldl Position.after {}))) kind
        text).span.start = utf8Len before + utf8Len gap := by simp [tokenAt, offset_foldl]
    have hstop : (tokenAt ((gap.foldl Position.after (before.foldl Position.after {}))) kind
        text).span.stop = utf8Len (before ++ (gap ++ text)) := by
      simp [tokenAt, offset_foldl, String.utf8ByteSize_ofList, Nat.add_assoc]
    refine ⟨?_, ?_, ?_⟩
    · exact List.forall_mem_cons.mpr ⟨htoken, hplaced⟩
    · refine List.pairwise_cons.mpr ⟨fun u hu => ?_, hpairwise⟩
      have hle := hrest.le_start u hu
      rw [hstop]
      simpa [offset_foldl, Nat.add_assoc] using hle
    · rw [gaps, hstart, hstop]
      exact List.forall_mem_cons.mpr ⟨hfirst, hgaps⟩

end Laid

/-- The tokens of a source text are slices of it: their ranges are not empty and do not overlap, in
increasing order, and nothing but blanks and comments stands before, between and behind them. Every
token is the text of its range and the longest match there, and has the line and the column of its
first byte. -/
theorem tokens_are_slices_of_source (source : String) :
    (∀ t ∈ (Cursor.ofSource source).tokens.toList, Placed source t) ∧
      (Cursor.ofSource source).tokens.toList.Pairwise (fun t u => t.span.stop ≤ u.span.start) ∧
      ∀ gap ∈ gaps 0 source.utf8ByteSize (Cursor.ofSource source).tokens.toList,
        IsGap source gap.1 gap.2 := by
  have hlaid : Laid (([] : List Char).foldl Position.after {}) source.toList (tokenize source) :=
    laid_tokensFrom {} source.toList
  exact hlaid.placed rfl

end TupleLang.Lexer
