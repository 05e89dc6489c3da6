import TupleLang.Proofs.LexingLiteral

/-!
# What the matchers take

What the matcher of a token takes from a text it takes wherever that stands: from every text that
begins with these characters it takes them, and perhaps more behind them (`Takes`). This is so for
all rules but those for literals that are opened only (`takes_rule`).

Most tokens hold no blanks: there are blanks in texts and the like, in characters, and in what is
passed over, and in nothing else (`takes_solid`).
-/

namespace TupleLang.Lexer

/-- The matcher takes characters with the property `P` from the front of the text, and it takes at
least these from every text that begins with them. -/
def Takes (P : Char → Prop) (size : List Char → Nat) (cs : List Char) : Prop :=
  ∃ w rest, cs = w ++ rest ∧ size cs = w.length ∧ (∀ c ∈ w, P c) ∧
    ∀ rest', w.length ≤ size (w ++ rest')

/-- Characters that are not passed over as blanks. -/
abbrev Solid (c : Char) : Prop := isBlank c = false

section Takes

variable {P Q : Char → Prop} {size inner : List Char → Nat} {cs : List Char}

/-- Only a text that is matched has to be looked at. -/
theorem takes_of (h : size cs ≠ 0 → Takes P size cs) : Takes P size cs := by
  by_cases hzero : size cs = 0
  · exact ⟨[], cs, rfl, hzero, by simp, fun _ => Nat.zero_le _⟩
  · exact h hzero

/-- What is weaker holds of the characters that are taken. -/
theorem Takes.imp (h : Takes P size cs) (himp : ∀ c, P c → Q c) : Takes Q size cs := by
  obtain ⟨w, rest, hcs, hsize, hw, hagain⟩ := h
  exact ⟨w, rest, hcs, hsize, fun c hc => himp c (hw c hc), hagain⟩

/-- An opening is taken with what is taken behind it. -/
theorem Takes.opened {o : List Char} (ho : ∀ c ∈ o, P c) (h : Takes P inner cs)
    (hsize : ∀ cs', inner cs ≤ inner cs' → size (o ++ cs') = o.length + inner cs') :
    Takes P size (o ++ cs) := by
  obtain ⟨w, rest, rfl, hinner, hw, hagain⟩ := h
  refine ⟨o ++ w, rest, (List.append_assoc o w rest).symm, ?_, fun c hc => ?_, fun rest' => ?_⟩
  · rw [hsize _ (Nat.le_refl _), hinner, List.length_append]
  · exact (List.mem_append.mp hc).elim (ho c) (hw c)
  · have hle := hagain rest'
    rw [List.append_assoc, hsize _ (hinner ▸ hle), List.length_append]
    omega

/-- What is behind an opening is taken if something is. -/
theorem after_of_ne_zero {n m : ℕ} (h : m ≠ 0) : after n m = n + m := if_neg h

theorem ne_zero_of_after {n m : ℕ} (h : after n m ≠ 0) : m ≠ 0 := by
  rintro rfl
  exact h rfl

/-- An opening is taken if something is taken behind it. -/
theorem Takes.after {o : List Char} (ho : ∀ c ∈ o, P c) (h : Takes P inner cs) (hne : inner cs ≠ 0)
    (hsize : ∀ cs', inner cs' ≠ 0 → size (o ++ cs') = Lexer.after o.length (inner cs')) :
    Takes P size (o ++ cs) := by
  refine h.opened ho fun cs' hle => ?_
  have hne' : inner cs' ≠ 0 := by omega
  rw [hsize cs' hne', after_of_ne_zero hne']

end Takes

/-! ## Runs, spellings and words -/

section Runs

variable {P : Char → Prop} {p : Char → Bool} {c : Char} {w : List Char}

/-- A character of a class without blanks is not blank. -/
theorem solid_of_class (hp : ∀ c ∈ [' ', '\t', '\r', '\n', '\x0c'], p c = false) (hc : p c = true) :
    Solid c := by
  cases hblank : isBlank c with
  | false => exact hblank
  | true =>
    rw [hp c (isBlank_iff.mp hblank)] at hc
    cases hc

/-- Digits are solid. -/
theorem solid_digit (h : c.isDigit = true) : Solid c := solid_of_class (by decide) h

/-- Hexadecimal digits are solid. -/
theorem solid_hexDigit (h : isHexDigit c = true) : Solid c := solid_of_class (by decide) h

/-- Parts of words are solid. -/
theorem solid_wordPart (h : isWordPart c = true) : Solid c := solid_of_class (by decide) h

/-- A run goes on at least as long as such characters do. -/
theorem le_run_append (hw : ∀ c ∈ w, p c = true) (rest : List Char) : w.length ≤
    run p (w ++ rest) := by
  rw [run, List.takeWhile_append_of_pos hw, List.length_append]
  exact Nat.le_add_right _ _

/-- A run takes such characters. -/
theorem takes_run (hp : ∀ c, p c = true → P c) (cs : List Char) : Takes P (run p) cs := by
  have hrun : ∀ c ∈ cs.takeWhile p, p c = true := fun c hc => List.mem_takeWhile_imp hc
  exact ⟨cs.takeWhile p, cs.dropWhile p, List.takeWhile_append_dropWhile.symm, rfl,
    fun c hc => hp c (hrun c hc), le_run_append hrun⟩

/-- A fixed text takes its characters. -/
theorem takes_fixed {text : String} (htext : ∀ c ∈ text.toList, P c) (cs : List Char) :
    Takes P (fixed text) cs := by
  refine takes_of fun h => ?_
  obtain ⟨rest, rfl⟩ := prefix_of_fixed h
  refine ⟨text.toList, rest, rfl, ?_, htext, fun rest' => ?_⟩
  · rw [fixed_eq (List.prefix_append _ _), String.length_toList]
  · rw [fixed_eq (List.prefix_append _ _), String.length_toList]

/-- A word takes solid characters. -/
theorem takes_word (cs : List Char) : Takes Solid word cs := by
  refine takes_of fun h => ?_
  unfold word at h
  split at h
  · rename_i c cs
    split at h
    · rename_i hc
      refine .opened (o := [c]) (by simpa using solid_wordPart (isWordPart_of_isWordStart hc))
        (takes_run (fun _ => solid_wordPart) cs) fun cs' _ => if_pos hc
    · exact absurd rfl h
  · exact absurd rfl h

end Runs

/-! ## Numbers -/

section Numbers

variable {ds rest : List Char}

/-- A text splits where a run of characters of a class ends. -/
theorem exists_run (p : Char → Bool) (cs : List Char) :
    ∃ w rest, cs = w ++ rest ∧ (∀ c ∈ w, p c = true) ∧ Front (p · = false) rest := by
  refine ⟨cs.takeWhile p, cs.dropWhile p, List.takeWhile_append_dropWhile.symm,
    fun c hc => List.mem_takeWhile_imp hc, fun c hc => ?_⟩
  have hhead := List.head?_dropWhile_not p cs
  rwa [hc] at hhead

/-- A number with a suffix takes solid characters. -/
theorem takes_suffixed {letter : Char} (hletter : Solid letter) (cs : List Char) :
    Takes Solid (suffixed letter) cs := by
  refine takes_of fun h => ?_
  obtain ⟨ds, rest, rfl, hds, hrest⟩ := exists_run Char.isDigit cs
  have hsize : ∀ x, Front (·.isDigit = false) x → suffixed letter (ds ++ x) =
      if ds.length ≠ 0 ∧ x.head? = some letter then ds.length + 1 else 0 := by
    intro x hx
    simp [suffixed, run_append hds hx, List.head?_eq_getElem?, List.getElem?_append_right]
  rw [hsize rest hrest] at h
  split at h
  · rename_i hhead
    obtain ⟨rest', rfl⟩ : ∃ rest', rest = letter :: rest' := by
      cases rest with
      | nil => simp at hhead
      | cons c rest' => exact ⟨rest', by simpa using hhead.2⟩
    have hagain : ∀ x, suffixed letter (ds ++ letter :: x) = (ds ++ [letter]).length := by
      intro x
      rw [hsize _ (front_cons.mpr (front_cons.mp hrest)), if_pos ⟨hhead.1, rfl⟩]
      simp
    refine ⟨ds ++ [letter], rest', by simp, hagain rest', fun c hc => ?_, fun x => ?_⟩
    · rcases List.mem_append.mp hc with hc | hc
      · exact solid_digit (hds c hc)
      · rwa [List.mem_singleton.mp hc]
    · rw [List.append_assoc]
      exact (hagain x).ge
  · exact absurd rfl h

/-- A hexadecimal number takes solid characters. -/
theorem takes_hexNumber (cs : List Char) : Takes Solid hexNumber cs := by
  refine takes_of fun h => ?_
  unfold hexNumber at h
  split at h
  · exact .after (o := ['0', 'x']) (by decide) (takes_run (fun _ => solid_hexDigit) _)
      (ne_zero_of_after h) fun _ _ => rfl
  · exact absurd rfl h

/-- An exponent has one of two letters and digits behind it, perhaps with a sign between them. -/
theorem takes_exponent (cs : List Char) : Takes Solid exponent cs := by
  refine takes_of fun h => ?_
  have hdigits : ∀ ds, Takes Solid (run Char.isDigit) ds := takes_run fun _ => solid_digit
  unfold exponent at h
  split at h
  · rename_i e cs
    split at h
    · rename_i he
      have hsolid : Solid e := by
        simp only [Bool.or_eq_true, beq_iff_eq] at he
        rcases he with rfl | rfl <;> decide
      split at h
      · rename_i ds
        refine .after (o := [e, '+']) ?_ (hdigits ds) (ne_zero_of_after h) fun _ _ => if_pos he
        simpa using ⟨hsolid, rfl⟩
      · rename_i ds
        refine .after (o := [e, '-']) ?_ (hdigits ds) (ne_zero_of_after h) fun _ _ => if_pos he
        simpa using ⟨hsolid, rfl⟩
      · refine .after (o := [e]) (by simpa using hsolid) (hdigits cs) (ne_zero_of_after h)
          fun ds hne => ?_
        -- where digits stand there is no sign
        obtain ⟨d, ds, rfl, hd⟩ := head_of_run hne
        have hplus : d ≠ '+' := ne_of_class hd (by decide)
        have hminus : d ≠ '-' := ne_of_class hd (by decide)
        simp [exponent, he, hplus, hminus]
    · exact absurd rfl h
  · exact absurd rfl h

/-- An exponent begins with no digit and no point. -/
theorem front_of_exponent {cs : List Char} (h : exponent cs ≠ 0) :
    Front (fun c => c.isDigit = false ∧ c ≠ '.') cs := by
  unfold exponent at h
  split at h
  · split at h
    · rename_i he
      rw [Bool.or_eq_true, beq_iff_eq, beq_iff_eq] at he
      rcases he with rfl | rfl <;> exact front_cons.mpr (by decide)
    · exact absurd rfl h
  · exact absurd rfl h

/-- The size of a number with a point behind its first digits. -/
theorem floatNumber_point (hds : IsNumeral ds) (rest : List Char) :
    floatNumber (ds ++ '.' :: rest) =
      if run Char.isDigit rest = 0 then 0
      else ds.length + 1 + run Char.isDigit rest + exponent
        (rest.drop (run Char.isDigit rest)) := by
  have hrun : run Char.isDigit (ds ++ '.' :: rest) = ds.length :=
    run_append hds.2 (front_cons.mpr (by decide))
  simp [floatNumber, hrun, hds.1]

/-- The size of a number without a point behind its first digits. -/
theorem floatNumber_exponent (hds : IsNumeral ds)
    (hrest : Front (fun c => c.isDigit = false ∧ c ≠ '.') rest) :
    floatNumber (ds ++ rest) = after ds.length (exponent rest) := by
  have hrun : run Char.isDigit (ds ++ rest) = ds.length :=
    run_append hds.2 (hrest.imp fun _ h => h.1)
  simp only [floatNumber, hrun, List.drop_left, List.length_eq_zero_iff, hds.1, if_false]
  cases rest with
  | nil => rfl
  | cons e rest => simp [(front_cons.mp hrest).2]

/-- A fraction is taken again, and what is taken of an exponent behind it. -/
theorem le_fraction_exponent {fs x : List Char} (hfs : ∀ d ∈ fs, d.isDigit = true)
    (hx : exponent (x ++ rest) = x.length) (hagain : ∀ rest', x.length ≤ exponent (x ++ rest'))
    (rest' : List Char) :
    fs.length + x.length ≤ run Char.isDigit (fs ++ (x ++ rest')) +
      exponent ((fs ++ (x ++ rest')).drop (run Char.isDigit (fs ++ (x ++ rest')))) := by
  cases x with
  | nil => exact Nat.le_trans (le_run_append hfs rest') (Nat.le_add_right _ _)
  | cons e x =>
    have hne : exponent (e :: x ++ rest) ≠ 0 := hx ▸ Nat.succ_ne_zero _
    have hrun : run Char.isDigit (fs ++ (e :: x ++ rest')) = fs.length :=
      run_append hfs (front_cons.mpr (front_cons.mp (front_of_exponent hne)).1)
    rw [hrun, List.drop_left]
    exact Nat.add_le_add_left (hagain rest') _

/-- A floating point number takes solid characters. -/
theorem takes_floatNumber (cs : List Char) : Takes Solid floatNumber cs := by
  refine takes_of fun h => ?_
  obtain ⟨ds, rest, rfl, hdigits, hrest⟩ := exists_run Char.isDigit cs
  have hsolid : ∀ {fs : List Char}, (∀ d ∈ fs, d.isDigit = true) → ∀ d ∈ fs, Solid d :=
    fun hfs d hd => solid_digit (hfs d hd)
  -- there is a digit in front of the point or the exponent
  have hds : IsNumeral ds := by
    refine ⟨?_, hdigits⟩
    rintro rfl
    exact digit_floatNumber h (run_eq_zero hrest)
  by_cases hpoint : rest.head? = some '.'
  · obtain ⟨rest, rfl⟩ : ∃ rest', rest = '.' :: rest' := List.head?_eq_some_iff.mp hpoint
    obtain ⟨fs, rest, rfl, hfs, hend⟩ := exists_run Char.isDigit rest
    obtain ⟨x, rest, rfl, hx, hxsolid, hagain⟩ := takes_exponent rest
    have hrun := run_append hfs hend
    rw [floatNumber_point hds, hrun] at h
    -- behind a point there are digits, or nothing is matched
    have hne : fs.length ≠ 0 := fun hzero => h (if_pos hzero)
    refine ⟨ds ++ '.' :: (fs ++ x), rest, by simp, ?_, fun c hc => ?_, fun rest' => ?_⟩
    · rw [floatNumber_point hds, hrun, if_neg hne, List.drop_left, hx]
      simp only [List.length_append, List.length_cons]
      omega
    · simp only [List.mem_append, List.mem_cons] at hc
      rcases hc with hc | rfl | hc | hc
      · exact hsolid hdigits c hc
      · rfl
      · exact hsolid hfs c hc
      · exact hxsolid c hc
    · have hle := le_fraction_exponent hfs hx hagain rest'
      have hpos := le_run_append hfs (x ++ rest')
      rw [List.append_assoc, List.cons_append, List.append_assoc, floatNumber_point hds,
        if_neg (by omega)]
      simp only [List.length_append, List.length_cons]
      omega
  · have hfront : Front (fun c => c.isDigit = false ∧ c ≠ '.') rest := by
      intro c hc
      exact ⟨hrest c hc, fun hdot => hpoint (hdot ▸ hc)⟩
    rw [floatNumber_exponent hds hfront] at h
    exact .after (hsolid hdigits) (takes_exponent rest) (ne_zero_of_after h)
      fun cs' hne => floatNumber_exponent hds (front_of_exponent hne)

end Numbers

/-! ## Literals with a mark at the end -/

section Closed

variable {cs v x : List Char}

/-- Something in a list has something in front of it and something behind it. -/
theorem exists_append_of_getElem? {c : Char} {n : ℕ} (h : cs[n]? = some c) :
    ∃ v x, cs = v ++ c :: x ∧ v.length = n := by
  obtain ⟨hlt, rfl⟩ := List.getElem?_eq_some_iff.mp h
  refine ⟨cs.take n, cs.drop (n + 1), ?_, List.length_take_of_le (Nat.le_of_lt hlt)⟩
  rw [List.getElem_cons_drop, List.take_append_drop]

/-- Pairs of digits up to a quote are the same whatever stands behind it. -/
theorem hexPairs_closed : (v : List Char) → hexPairs (v ++ '\'' :: x) = v.length →
    ∀ y, hexPairs (v ++ '\'' :: y) = v.length ∧ ∀ c ∈ v, isHexDigit c = true
  | [], _, y => by cases y <;> simp [hexPairs, isHexDigit]
  | [a], h, _ => by simp [hexPairs, isHexDigit] at h
  | a :: b :: v, h, y => by
    simp only [List.cons_append, hexPairs, List.length_cons] at h ⊢
    split at h
    · rename_i hab
      obtain ⟨hsize, hv⟩ := hexPairs_closed v (by omega) y
      rw [if_pos hab, hsize]
      rw [Bool.and_eq_true] at hab
      refine ⟨by omega, ?_⟩
      simpa [hab] using hv
    · omega

theorem quotedItems_cons {c : Char} (hc : c ≠ '\\') (cs : List Char) :
    quotedItems (c :: cs) = if c = '"' then 0 else 1 + quotedItems cs := by
  cases cs <;> simp [quotedItems, hc]

/-- Items of a quoted literal up to a quote are the same whatever stands behind it. -/
theorem quotedItems_closed (hv : quotedItems (v ++ '"' :: x) = v.length) (y : List Char) :
    quotedItems (v ++ '"' :: y) = v.length := by
  -- an item has one or two characters
  induction hlength : v.length using Nat.strong_induction_on generalizing v with
  | _ n ih =>
    subst hlength
    cases v with
    | nil => simp [quotedItems]
    | cons c v =>
      by_cases hc : c = '\\'
      · subst hc
        cases v with
        | nil =>
          simp only [List.cons_append, List.nil_append, quotedItems, List.length_singleton] at hv
          split at hv <;> omega
        | cons d v =>
          simp only [List.cons_append, quotedItems, List.length_cons] at hv ⊢
          split at hv
          · omega
          · rename_i hd
            rw [if_neg hd, ih v.length (by simp) (by omega) rfl]
            omega
      · rw [List.cons_append, quotedItems_cons hc, List.length_cons] at hv ⊢
        split at hv
        · omega
        · rename_i hquote
          rw [if_neg hquote, ih v.length (by simp) (by omega) rfl]
          omega

/-- A quoted literal without its opening. -/
theorem takes_closedQuote (cs : List Char) : Takes (fun _ => True) (closedQuote 0) cs := by
  refine takes_of fun h => ?_
  simp only [closedQuote] at h
  split at h
  · rename_i hend
    obtain ⟨v, x, hcs, hv⟩ := exists_append_of_getElem? hend
    have hsize : ∀ y, closedQuote 0 (v ++ '"' :: y) = (v ++ ['"']).length := by
      intro y
      simp [closedQuote, quotedItems_closed (hcs ▸ hv.symm) y]
    refine ⟨v ++ ['"'], x, by simp [hcs], ?_, fun _ _ => trivial, fun y => ?_⟩
    · rw [hcs, hsize]
    · rw [List.append_assoc]
      exact (hsize y).ge
  · exact absurd rfl h

theorem closedQuote_eq_after (n : ℕ) (cs : List Char) :
    closedQuote n cs = after n (closedQuote 0 cs) := by
  by_cases hend : cs[quotedItems cs]? = some '"'
  · simp [closedQuote, after, hend]
    omega
  · simp [closedQuote, after, hend]

/-- A text takes any characters. -/
theorem takes_quoted (cs : List Char) : Takes (fun _ => True) quoted cs := by
  refine takes_of fun h => ?_
  obtain ⟨cs, rfl⟩ := opening_quoted h
  have hsize : ∀ cs, quoted (['"'] ++ cs) = after 1 (closedQuote 0 cs) := closedQuote_eq_after 1
  rw [hsize] at h
  exact .after (by simp) (takes_closedQuote cs) (ne_zero_of_after h) fun cs' _ => hsize cs'

theorem takes_quotedAfter (letter : Char) (cs : List Char) :
    Takes (fun _ => True) (quotedAfter letter) cs := by
  refine takes_of fun h => ?_
  obtain ⟨cs, rfl⟩ := opening_quotedAfter h
  have hsize : ∀ cs, quotedAfter letter ([letter, '"'] ++ cs) = after 2 (closedQuote 0 cs) :=
    fun cs => (if_pos (beq_self_eq_true letter)).trans (closedQuote_eq_after 2 cs)
  rw [hsize] at h
  exact .after (by simp) (takes_closedQuote cs) (ne_zero_of_after h) fun cs' _ => hsize cs'

/-- A literal of bytes takes solid characters. -/
theorem takes_bytesLiteral (cs : List Char) : Takes Solid bytesLiteral cs := by
  refine takes_of fun h => ?_
  obtain ⟨cs, rfl⟩ := opening_bytesLiteral h
  simp only [List.cons_append, List.nil_append, bytesLiteral] at h ⊢
  split at h
  · rename_i hend
    obtain ⟨v, x, rfl, hv⟩ := exists_append_of_getElem? hend
    have hclosed := hexPairs_closed v hv.symm
    have hsize : ∀ y, bytesLiteral ('B' :: '\'' :: (v ++ '\'' :: y)) =
        ('B' :: '\'' :: (v ++ ['\''])).length := by
      intro y
      simp [bytesLiteral, (hclosed y).1]
    refine ⟨'B' :: '\'' :: (v ++ ['\'']), x, by simp, hsize x, fun c hc => ?_, fun y => ?_⟩
    · simp only [List.mem_cons, List.mem_append, List.not_mem_nil, or_false] at hc
      rcases hc with rfl | rfl | hc | rfl
      · rfl
      · rfl
      · exact solid_hexDigit ((hclosed x).2 c hc)
      · rfl
    · simp only [List.cons_append, List.append_assoc, List.nil_append]
      exact (hsize y).ge
  · exact absurd rfl h

/-- A byte literal takes solid characters. -/
theorem takes_byteLiteral (cs : List Char) : Takes Solid byteLiteral cs := by
  refine takes_of fun h => ?_
  unfold byteLiteral at h
  split at h
  · rename_i a b rest
    split at h
    · rename_i hab
      have hsize : ∀ y, byteLiteral ('b' :: '\'' :: a :: b :: '\'' :: y) = 5 := fun y => if_pos hab
      rw [Bool.and_eq_true] at hab
      refine ⟨['b', '\'', a, b, '\''], rest, rfl, hsize rest, ?_, fun y => (hsize y).ge⟩
      simpa using ⟨rfl, rfl, solid_hexDigit hab.1, solid_hexDigit hab.2, rfl⟩
    · exact absurd rfl h
  · exact absurd rfl h

/-- The two forms of a character. -/
theorem exists_charLiteral (h : charLiteral cs ≠ 0) :
    ∃ w x, cs = w ++ x ∧ ∀ y, charLiteral (w ++ y) = w.length := by
  unfold charLiteral at h
  split at h
  · rename_i c rest
    split at h
    · exact absurd rfl h
    · rename_i hc
      exact ⟨['\'', '\\', c, '\''], rest, rfl, fun y => if_neg hc⟩
  · rename_i c rest hslash
    split at h
    · exact absurd rfl h
    · rename_i hc
      refine ⟨['\'', c, '\''], rest, rfl, fun y => ?_⟩
      rw [Bool.or_eq_true, beq_iff_eq, beq_iff_eq, not_or] at hc
      simp [charLiteral, hc]
  · exact absurd rfl h

theorem takes_charLiteral (cs : List Char) : Takes (fun _ => True) charLiteral cs := by
  refine takes_of fun h => ?_
  obtain ⟨w, x, rfl, hsize⟩ := exists_charLiteral h
  exact ⟨w, x, rfl, hsize x, fun _ _ => trivial, fun y => (hsize y).ge⟩

end Closed

/-! ## Names behind a mark, and comments -/

section Marked

/-- A name with a sigil takes solid characters. -/
theorem takes_sigilName (cs : List Char) : Takes Solid sigilName cs := by
  refine takes_of fun h => ?_
  obtain ⟨cs, rfl⟩ := opening_sigilName h
  exact .after (by decide) (takes_word cs) (ne_zero_of_after h) fun _ _ => rfl

/-- A point belongs to a path if a name begins behind it, and that is taken with it. -/
theorem takes_pathRest (cs : List Char) : Takes Solid pathRest cs := by
  induction cs with
  | nil => exact takes_of fun h => absurd rfl h
  | cons c cs ih =>
    by_cases hpart : isWordPart c = true
    · refine ih.opened (o := [c]) (by simpa using solid_wordPart hpart) fun cs' _ => ?_
      exact if_pos hpart
    · refine takes_of fun h => ?_
      rw [pathRest, if_neg hpart] at h
      split at h
      · rename_i hdot
        rw [Bool.and_eq_true, beq_iff_eq] at hdot
        obtain ⟨rfl, hhead⟩ := hdot
        obtain ⟨w, rest, rfl, hsize, hw, hagain⟩ := ih
        have hstart : w.head?.any isWordStart = true := by
          cases w with
          | nil =>
            -- a name begins here, so that something is taken
            cases rest with
            | nil => simp at hhead
            | cons d rest =>
              have hd : isWordStart d = true := by simpa using hhead
              rw [List.nil_append, pathRest, if_pos (isWordPart_of_isWordStart hd)] at hsize
              simp at hsize
          | cons d w => simpa using hhead
        have hdot : ∀ y, pathRest ('.' :: (w ++ y)) = 1 + pathRest (w ++ y) := by
          intro y
          have hmore : (w ++ y).head?.any isWordStart = true := by
            cases w with
            | nil => simp at hstart
            | cons d w => exact hstart
          rw [pathRest, if_neg hpart, hmore]
          rfl
        refine ⟨'.' :: w, rest, rfl, ?_, List.forall_mem_cons.mpr ⟨rfl, hw⟩, fun y => ?_⟩
        · rw [hdot, hsize, List.length_cons, Nat.add_comm]
        · rw [List.cons_append, hdot, List.length_cons, Nat.add_comm]
          exact Nat.add_le_add_left (hagain y) 1
      · exact absurd rfl h

/-- A path of names takes solid characters. -/
theorem takes_dottedPath (cs : List Char) : Takes Solid dottedPath cs := by
  refine takes_of fun h => ?_
  unfold dottedPath at h
  split at h
  · rename_i c cs
    split at h
    · rename_i hc
      have hsolid : Solid c := solid_wordPart (isWordPart_of_isWordStart hc)
      refine (takes_pathRest cs).opened (o := ['@', c]) ?_ fun cs' _ => if_pos hc
      simpa using ⟨rfl, hsolid⟩
    · exact absurd rfl h
  · exact absurd rfl h

theorem takes_comment (cs : List Char) : Takes (fun _ => True) comment cs := by
  refine takes_of fun h => ?_
  obtain ⟨cs, rfl⟩ := opening_comment h
  exact (takes_run (fun _ _ => trivial) cs).opened (by simp) fun _ _ => rfl

end Marked

/-! ## The rules -/

/-- The rules for literals that are opened only. -/
def openedRules : List Rule := [⟨some .invalid, quotedOpening⟩, ⟨some .invalid, bytesOpening⟩]

/-- The rules for what is passed over, for literals that may hold blanks, and for literals that are
opened only. -/
def looseRules : List Rule :=
  blankRules ++
    [⟨some .char, charLiteral⟩, ⟨some .text, quoted⟩, ⟨some .regex, quotedAfter 'R'⟩,
     ⟨some .path, quotedAfter 'F'⟩] ++ openedRules

section Rules

variable {q : Rule}

/-- Literals that are opened only have the last rules, and no others make what is invalid. -/
theorem exists_rules_eq :
    ∃ front, rules = front ++ openedRules ∧ ∀ q ∈ front, q.kind ≠ some .invalid :=
  ⟨blankRules ++ spellingRules ++ literalRules.take 14, rfl, by decide⟩

/-- Tokens of all other rules hold no blanks. -/
theorem takes_solid (hq : q ∈ rules) : (∀ cs, Takes Solid q.size cs) ∨ q ∈ looseRules := by
  rw [rules, List.mem_append, List.mem_append] at hq
  rcases hq with (hq | hq) | hq
  · exact .inr (List.mem_append_left _ (List.mem_append_left _ hq))
  · obtain ⟨entry, hentry, rfl⟩ := List.mem_map.mp hq
    have hall : ∀ q ∈ spellings, ∀ c ∈ q.1.toList, isBlank c = false := by decide
    exact .inl (takes_fixed (hall entry hentry))
  · simp only [literalRules, List.mem_cons, List.not_mem_nil, or_false] at hq
    rcases hq with rfl | rfl | rfl | rfl | rfl | rfl | rfl | rfl | rfl | rfl | rfl | rfl | rfl | rfl
      | rfl | rfl
    · exact .inl takes_byteLiteral
    · exact .inr (by simp [looseRules, openedRules])
    · exact .inl (takes_suffixed (by decide))
    · exact .inl (takes_suffixed (by decide))
    · exact .inl takes_hexNumber
    · exact .inl (takes_run fun _ => solid_digit)
    · exact .inl takes_floatNumber
    · exact .inl takes_word
    · exact .inl takes_sigilName
    · exact .inl takes_bytesLiteral
    · exact .inr (by simp [looseRules, openedRules])
    · exact .inr (by simp [looseRules, openedRules])
    · exact .inl takes_dottedPath
    · exact .inr (by simp [looseRules, openedRules])
    · exact .inr (by simp [looseRules, openedRules])
    · exact .inr (by simp [looseRules, openedRules])

/-- What is a token or is passed over is taken again wherever it stands. -/
theorem takes_rule (hq : q ∈ rules) (hkind : q.kind ≠ some .invalid) (cs : List Char) :
    Takes (fun _ => True) q.size cs := by
  rcases takes_solid hq with hsolid | hloose
  · exact (hsolid cs).imp fun _ _ => trivial
  · simp only [looseRules, blankRules, openedRules, List.mem_append, List.mem_cons,
      List.not_mem_nil, or_false] at hloose
    rcases hloose with ((rfl | rfl) | rfl | rfl | rfl | rfl) | rfl | rfl
    · exact takes_run (fun _ _ => trivial) cs
    · exact takes_comment cs
    · exact takes_charLiteral cs
    · exact takes_quoted cs
    · exact takes_quotedAfter 'R' cs
    · exact takes_quotedAfter 'F' cs
    · exact absurd rfl hkind
    · exact absurd rfl hkind

end Rules

end TupleLang.Lexer
