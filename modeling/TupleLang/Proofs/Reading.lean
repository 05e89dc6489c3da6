import TupleLang.Proofs.Grammar
import TupleLang.Proofs.LinearReader

/-!
# Readers follow the grammar

What a reader does with a cursor and a store is what the grammar says about the lexemes ahead. It
fails exactly where the grammar gives nothing; otherwise it ends in front of the lexemes that the
grammar leaves, and the cell that it gives denotes the datum.
-/

namespace TupleLang

open ParseM Grammar

namespace Cursor

/-- The cursor is not beyond the end of input, and the token there is the end of input. -/
structure Regular (c : Cursor) : Prop where
  inRange : c.pos ≤ c.tokens.size
  eof : c.eof.lexeme = .eof

variable {c : Cursor}

/-- A regular cursor is regular behind the tokens it has passed. -/
theorem Regular.advance (hc : c.Regular) (n : Nat) : (c.advance n).Regular :=
  ⟨Nat.min_le_right _ _, hc.eof⟩

/-- The cursor in front of a source is regular. -/
theorem regular_ofSource (source : String) : (ofSource source).Regular := ⟨Nat.zero_le _, rfl⟩

/-- The token ahead is the lexeme ahead. -/
theorem Regular.lexeme_peek (hc : c.Regular) (n : Nat) :
    (c.peek n).lexeme = Grammar.ahead c.lexemes n := by
  rw [peek, Grammar.ahead, Cursor.lexemes, List.getElem?_map, List.getElem?_drop,
    Array.getElem?_toList]
  cases c.tokens[c.pos + n]? with
  | none => exact hc.eof
  | some t => rfl

/-- The kind of a token ahead is that of its lexeme. -/
theorem Regular.kind_peek (hc : c.Regular) (n : Nat) :
    (c.peek n).kind = (Grammar.ahead c.lexemes n).kind := by
  rw [← hc.lexeme_peek, Token.kind_lexeme]

theorem Regular.text_peek (hc : c.Regular) (n : Nat) :
    (c.peek n).text = (Grammar.ahead c.lexemes n).text := by
  rw [← hc.lexeme_peek, Token.text_lexeme]

/-- A token ahead is a word if its lexeme is. -/
theorem Regular.isWord_peek (hc : c.Regular) (n : Nat) (text : String) :
    (c.peek n).isWord text = (Grammar.ahead c.lexemes n).isWord text := by
  rw [← hc.lexeme_peek]
  rfl

/-- The kind of the token in front is that of its lexeme. -/
theorem Regular.kind_current (hc : c.Regular) :
    c.current.kind = (Grammar.ahead c.lexemes 0).kind := hc.kind_peek 0

/-- The text of the token in front is that of its lexeme. -/
theorem Regular.text_current (hc : c.Regular) :
    c.current.text = (Grammar.ahead c.lexemes 0).text := hc.text_peek 0

/-- The token in front is a word if its lexeme is. -/
theorem Regular.isWord_current (hc : c.Regular) (text : String) :
    c.current.isWord text = (Grammar.ahead c.lexemes 0).isWord text := hc.isWord_peek 0 text

/-- Moving forward passes lexemes. -/
theorem lexemes_advance (c : Cursor) (n : Nat) : (c.advance n).lexemes = c.lexemes.drop n := by
  rw [Cursor.lexemes, Cursor.lexemes, ← List.map_drop, List.drop_drop]
  change List.map _ (c.tokens.toList.drop (min (c.pos + n) c.tokens.size)) = _
  by_cases hle : c.pos + n ≤ c.tokens.size
  · rw [Nat.min_eq_left hle]
  · rw [Nat.min_eq_right (by omega), List.drop_eq_nil_of_le (by simp),
      List.drop_eq_nil_of_le (by simp; omega)]

/-- There are as many lexemes as tokens left. -/
theorem length_lexemes (c : Cursor) : c.lexemes.length = c.remaining := by
  simp [Cursor.lexemes, remaining]

end Cursor

namespace ParseM

variable {α β γ δ : Type} {Q : α → β → Store → Prop} {s : ParseState}

/-- The parser does what the grammar says: it fails where the grammar gives nothing, and otherwise
ends in front of the lexemes that are left, with a result that `Q` relates to that of the grammar
and to the store. -/
def Follows (Q : α → β → Store → Prop) (m : ParseM α) (s : ParseState)
    (o : Option (β × List Lexeme)) : Prop :=
  match m s, o with
  | .ok a s', some (b, ls) => s'.cursor.Regular ∧ s'.cursor.lexemes = ls ∧ Q a b s'.store
  | .error _ _, none => True
  | _, _ => False

namespace Follows

variable {m : ParseM α} {o : Option (β × List Lexeme)}

/-- Where the grammar gives something, so does the parser. -/
theorem of_some {b : β} {ls : List Lexeme} (h : Follows Q m s (some (b, ls))) :
    ∃ a s', m s = .ok a s' ∧ s'.cursor.Regular ∧ s'.cursor.lexemes = ls ∧ Q a b s'.store := by
  unfold Follows at h
  cases hrun : m s with
  | ok a s' =>
    rw [hrun] at h
    exact ⟨a, s', rfl, h⟩
  | error e s' =>
    rw [hrun] at h
    exact h.elim

/-- Where the parser gives something, so does the grammar. -/
theorem of_ok {a : α} {s' : ParseState} (h : Follows Q m s o) (hrun : m s = .ok a s') :
    ∃ b, o = some (b, s'.cursor.lexemes) ∧ s'.cursor.Regular ∧ Q a b s'.store := by
  unfold Follows at h
  rw [hrun] at h
  cases o with
  | none => exact h.elim
  | some r =>
    obtain ⟨b, ls⟩ := r
    obtain ⟨hcursor, rfl, hQ⟩ := h
    exact ⟨b, rfl, hcursor, hQ⟩

/-- Where the parser fails, the reader fails. -/
theorem of_error {e : ParseFailure} {s' : ParseState} (h : Follows Q m s o)
    (hrun : m s = .error e s') : o = none := by
  unfold Follows at h
  rw [hrun] at h
  cases o with
  | none => rfl
  | some r => exact h.elim

/-- The same result in front of the same lexemes. -/
protected theorem pure (hs : s.cursor.Regular) {a : α} {b : β} (h : Q a b s.store) :
    Follows Q (pure a) s (some (b, s.cursor.lexemes)) := ⟨hs, rfl, h⟩

/-- A failure follows a reader that fails. -/
protected theorem throw (e : ParseFailure) : Follows Q (throw e) s none := trivial

/-- So does a complaint. -/
theorem complain (message : String) (span : Span) :
    Follows Q (ParseM.complain message span) s none := trivial

/-- So does a complaint about the token in front. -/
theorem complainHere (message : String) : Follows Q (ParseM.complainHere message) s none := trivial

/-- So does a complaint about the depth. -/
theorem tooDeep (what : String) : Follows Q (ParseM.tooDeep what) s none := trivial

/-- What comes about in a store may be seen in another way. -/
theorem imp {Q' : α → β → Store → Prop} (hm : Follows Q m s o)
    (h : ∀ a b t, Q a b t → Q' a b t) : Follows Q' m s o := by
  unfold Follows at hm ⊢
  split at hm
  · exact ⟨hm.1, hm.2.1, h _ _ _ hm.2.2⟩
  · trivial
  · exact hm.elim

/-- What follows a parser that succeeds begins where that one has ended. -/
theorem bind_of_ok {Q' : γ → β → Store → Prop} {f : α → ParseM γ} {a : α} {s' : ParseState}
    (hrun : m s = .ok a s') (hf : Follows Q' (f a) s' o) : Follows Q' (m >>= f) s o := by
  have hnext : (m >>= f) s = f a s' := by
    change EStateM.bind m f s = _
    rw [EStateM.bind, hrun]
  unfold Follows at hf ⊢
  rwa [hnext]

/-- What follows a parser knows how that one has come to its result. -/
theorem bind_run {Q' : γ → δ → Store → Prop} {f : α → ParseM γ}
    {g : β × List Lexeme → Option (δ × List Lexeme)} (hm : Follows Q m s o)
    (hf : ∀ a b s', m s = .ok a s' → s'.cursor.Regular → Q a b s'.store →
      Follows Q' (f a) s' (g (b, s'.cursor.lexemes))) : Follows Q' (m >>= f) s (o.bind g) := by
  cases hrun : m s with
  | error e s' =>
    obtain rfl := hm.of_error hrun
    have hfail : (m >>= f) s = .error e s' := by
      change EStateM.bind m f s = _
      rw [EStateM.bind, hrun]
    unfold Follows
    rw [hfail]
    trivial
  | ok a s' =>
    obtain ⟨b, rfl, hcursor, hQ⟩ := hm.of_ok hrun
    exact .bind_of_ok hrun (hf a b s' hrun hcursor hQ)

/-- What follows a parser sees its result and the lexemes that are left. -/
protected theorem bind {Q' : γ → δ → Store → Prop} {f : α → ParseM γ}
    {g : β × List Lexeme → Option (δ × List Lexeme)} (hm : Follows Q m s o)
    (hf : ∀ a b s', s'.cursor.Regular → Q a b s'.store →
      Follows Q' (f a) s' (g (b, s'.cursor.lexemes))) : Follows Q' (m >>= f) s (o.bind g) :=
  hm.bind_run fun a b s' _ => hf a b s'

/-- A result is put to use in the same way on both sides. -/
theorem andReturn {Q' : γ → δ → Store → Prop} {f : α → γ} {g : β → δ} (hm : Follows Q m s o)
    (h : ∀ a b t, Q a b t → Q' (f a) (g b) t) :
    Follows Q' (do return f (← m)) s (o.map fun r => (g r.1, r.2)) := by
  rw [Option.map_eq_bind]
  exact hm.bind fun a b s' hs' hQ => .pure hs' (h a b _ hQ)

/-- Giving something up after a failure does not matter. -/
theorem onFailure (f : ParseState → ParseState) (hm : Follows Q m s o) :
    Follows Q (ParseM.onFailure f m) s o := by
  cases hrun : m s with
  | ok a s' =>
    unfold Follows at hm ⊢
    simpa only [ParseM.onFailure, hrun] using hm
  | error e s' =>
    obtain rfl := hm.of_error hrun
    unfold Follows
    simp only [ParseM.onFailure, hrun]

/-- Cells that are held are of no concern to the reader. -/
theorem holdingCells (cells : List Cell) (hm : Follows Q m s o) :
    Follows Q (ParseM.holdingCells cells m) s o := hm.onFailure _

/-- Nodes that are held are of no concern to the reader. -/
theorem holding (nodes : List Node) (hm : Follows Q m s o) :
    Follows Q (ParseM.holding nodes m) s o := hm.onFailure _

/-- Looking at the token in front is looking at the first lexeme. -/
theorem current_bind {f : Token → ParseM α} (hf : Follows Q (f s.cursor.current) s o) :
    Follows Q (current >>= f) s o := hf

/-- Looking further ahead is looking at a later lexeme. -/
theorem peek_bind {n : Nat} {f : Token → ParseM α} (hf : Follows Q (f (s.cursor.peek n)) s o) :
    Follows Q (peek n >>= f) s o := hf

/-- The reader knows nothing of the store. -/
theorem store_bind {f : Store → ParseM α} (hf : Follows Q (f s.store) s o) :
    Follows Q (store >>= f) s o := hf

/-- There is a round for every lexeme and one more. -/
theorem rounds_bind {f : Nat → ParseM α}
    (hf : Follows Q (f (s.cursor.lexemes.length + 1)) s o) : Follows Q (rounds >>= f) s o := by
  rw [Cursor.length_lexemes] at hf
  exact hf

/-- What follows a step forward sees the lexemes behind it. -/
theorem advance_bind (hs : s.cursor.Regular) (n : Nat) {f : Unit → ParseM α}
    {g : List Lexeme → Option (β × List Lexeme)}
    (hf : ∀ s', s'.store = s.store → s'.cursor.Regular →
      Follows Q (f ()) s' (g s'.cursor.lexemes)) :
    Follows Q (advance n >>= f) s (g (s.cursor.lexemes.drop n)) := by
  have hnext := hf { s with cursor := s.cursor.advance n } rfl (hs.advance n)
  rw [Cursor.lexemes_advance] at hnext
  exact hnext

end Follows

/-- The parser, which leaves the store alone, gives what the grammar does. -/
def Yields (m : ParseM α) (s : ParseState) (o : Option (α × List Lexeme)) : Prop :=
  Follows (fun a b t => a = b ∧ t = s.store) m s o

namespace Yields

variable {m : ParseM α} {o : Option (α × List Lexeme)}

/-- A result is yielded in front of the same lexemes. -/
protected theorem pure (hs : s.cursor.Regular) (a : α) :
    Yields (pure a) s (some (a, s.cursor.lexemes)) := Follows.pure hs ⟨rfl, rfl⟩

/-- What follows a parser that leaves the store alone sees the same store. -/
theorem andThen {Q : γ → δ → Store → Prop} {f : α → ParseM γ}
    {g : α × List Lexeme → Option (δ × List Lexeme)} (hm : Yields m s o)
    (hf : ∀ a s', s'.store = s.store → s'.cursor.Regular →
      Follows Q (f a) s' (g (a, s'.cursor.lexemes))) : Follows Q (m >>= f) s (o.bind g) :=
  Follows.bind hm fun a _ s' hs' h => h.1 ▸ hf a s' h.2 hs'

/-- Readers follow each other as the parts of the parser do. -/
protected theorem bind {f : α → ParseM β} {g : α × List Lexeme → Option (β × List Lexeme)}
    (hm : Yields m s o)
    (hf : ∀ a s', s'.store = s.store → s'.cursor.Regular →
      Yields (f a) s' (g (a, s'.cursor.lexemes))) : Yields (m >>= f) s (o.bind g) :=
  hm.andThen fun a s' hstore hs' => hstore ▸ hf a s' hstore hs'

/-- Moving the cursor on drops lexemes. -/
theorem advance_bind (hs : s.cursor.Regular) (n : Nat) {f : Unit → ParseM α}
    {g : List Lexeme → Option (α × List Lexeme)}
    (hf : ∀ s', s'.store = s.store → s'.cursor.Regular → Yields (f ()) s' (g s'.cursor.lexemes)) :
    Yields (advance n >>= f) s (g (s.cursor.lexemes.drop n)) :=
  Follows.advance_bind hs n fun s' hstore hs' => hstore ▸ hf s' hstore hs'

end Yields

end ParseM

/-! ## Types -/

namespace TypeReader

variable {s : ParseState} {nested : ParseM TypeDesc} {scan : Scan TypeDesc}

/-- The name of a type's element is read as by the reader. -/
theorem yields_name (hs : s.cursor.Regular) :
    Yields name s (Grammar.name ["="] s.cursor.lexemes) := by
  unfold name Grammar.name
  refine .current_bind (.peek_bind ?_)
  rw [hs.kind_current, hs.text_current, hs.isWord_peek]
  by_cases h : (ahead s.cursor.lexemes 0).kind = .ident ∧
      ["="].any (ahead s.cursor.lexemes 1).isWord = true
  · rw [if_pos h, if_pos (by simpa using h)]
    exact Yields.advance_bind hs 2 (g := fun ls => some (some _, ls)) fun s' _ hs' =>
      Yields.pure hs' _
  · rw [if_neg h, if_neg (by simpa using h)]
    exact Yields.pure hs _

theorem yields_element (hnested : ∀ s, s.cursor.Regular → Yields nested s (scan s.cursor.lexemes))
    (hs : s.cursor.Regular) :
    Yields (element nested) s (Grammar.typeElement scan s.cursor.lexemes) := by
  unfold element Grammar.typeElement
  refine .current_bind ?_
  rw [hs.kind_current, hs.text_current]
  cases (ahead s.cursor.lexemes 0).kind
  case lparen => exact Yields.advance_bind hs 1 fun s' _ hs' => hnested s' hs'
  case typeOpen => exact Yields.advance_bind hs 1 fun s' _ hs' => hnested s' hs'
  case ident =>
    exact Yields.advance_bind hs 1 (g := fun ls => some (_, ls)) fun s' _ hs' => Yields.pure hs' _
  case voidWord =>
    exact Yields.advance_bind hs 1 (g := fun ls => some (_, ls)) fun s' _ hs' => Yields.pure hs' _
  all_goals exact .complain _ _

theorem yields_elements (hnested : ∀ s, s.cursor.Regular → Yields nested s (scan s.cursor.lexemes))
    (rounds : Nat) (fields : List TypeDesc.Field) (comma : Bool) {s : ParseState}
    (hs : s.cursor.Regular) :
    Yields (elements nested rounds fields comma) s
      (Grammar.typeElements scan rounds fields comma s.cursor.lexemes) := by
  induction rounds generalizing fields comma s with
  | zero => exact .throw _
  | succ rounds ih =>
    unfold elements Grammar.typeElements
    refine .current_bind ?_
    rw [hs.kind_current]
    by_cases hclose : (ahead s.cursor.lexemes 0).kind = .rparen
    · rw [if_pos hclose, if_pos (by simpa using hclose)]
      exact Yields.advance_bind hs 1 (g := fun ls => some (_, ls)) fun s' _ hs' => Yields.pure hs' _
    · rw [if_neg hclose, if_neg (by simpa using hclose)]
      refine (yields_name hs).bind fun name s₁ _ hs₁ => ?_
      refine (yields_element hnested hs₁).bind fun type s₂ _ hs₂ => ?_
      refine .current_bind ?_
      rw [hs₂.kind_current]
      dsimp only
      cases (ahead s₂.cursor.lexemes 0).kind
      case comma => exact Yields.advance_bind hs₂ 1 fun s' _ hs' => ih _ _ hs'
      case rparen =>
        exact Yields.advance_bind hs₂ 1 (g := fun ls => some (_, ls)) fun s' _ hs' =>
          Yields.pure hs' _
      all_goals exact .complainHere _

/-- A type is read as by the reader. -/
theorem yields_body (levels : Nat) {s : ParseState} (hs : s.cursor.Regular) :
    Yields (body levels) s (Grammar.typeBody levels s.cursor.lexemes) := by
  induction levels generalizing s with
  | zero => exact .tooDeep _
  | succ levels ih =>
    unfold body Grammar.typeBody
    exact .rounds_bind (yields_elements (fun s hs => ih hs) _ [] false hs)

end TypeReader

/-! ## Building tuples -/

namespace Tuple

variable {t : Tuple}

/-- Names of the attributes, in order. -/
def names (t : Tuple) : List String := t.entries.filterMap (·.name)

/-- The name index lists the names of the attributes. -/
def Indexed (t : Tuple) : Prop := t.index.map (·.1) = t.names

/-- A name is in the index when it is a key of it. -/
theorem contains_iff (ht : t.Indexed) {n : String} : t.contains n = true ↔ n ∈ t.names := by
  rw [← ht, contains]
  induction t.index with
  | nil => simp
  | cons e index ih =>
    obtain ⟨key, pos⟩ := e
    by_cases hkey : n = key
    · simp [List.lookup, hkey]
    · have hbeq : (n == key) = false := by simpa using hkey
      simp [List.lookup, hbeq, hkey, ih]

/-- An attribute is taken if its name is new and its type suits the kind. -/
theorem insertInitial_cases (ht : t.Indexed) (name : Option String) (cell : Cell) :
    match t.insertInitial name cell with
    | .ok (_, t') => (∀ n ∈ name, n ∉ t.names) ∧ (t.kind = .data → cell.type.isData = true) ∧
        t'.kind = t.kind ∧ t'.entries = t.entries ++ [⟨name, cell⟩] ∧ t'.Indexed
    | .error _ => ¬((∀ n ∈ name, n ∉ t.names) ∧ (t.kind = .data → cell.type.isData = true)) := by
  have hdata : (t.kind == .data && !cell.type.isData) = true ↔
      ¬(t.kind = .data → cell.type.isData = true) := by simp
  unfold insertInitial
  cases name with
  | none =>
    dsimp only
    by_cases hkind : t.kind = .data → cell.type.isData = true
    · rw [if_neg (hdata.not.mpr (not_not.mpr hkind))]
      refine ⟨by simp, hkind, rfl, rfl, ?_⟩
      simpa [Indexed, names] using ht
    · rw [if_pos (hdata.mpr hkind)]
      exact fun h => hkind h.2
  | some n =>
    dsimp only
    by_cases hnew : n ∈ t.names
    · rw [if_pos ((contains_iff ht).mpr hnew)]
      exact fun h => h.1 n rfl hnew
    · rw [if_neg ((contains_iff ht).not.mpr hnew)]
      by_cases hkind : t.kind = .data → cell.type.isData = true
      · rw [if_neg (hdata.not.mpr (not_not.mpr hkind))]
        refine ⟨fun m hm => Option.some.inj hm ▸ hnew, hkind, rfl, rfl, ?_⟩
        rw [Indexed, names] at ht
        simp [Indexed, names, ht]
      · rw [if_pos (hdata.mpr hkind)]
        exact fun h => hkind h.2

/-- Attributes are taken if their names are new and differ, and their types suit the kind. -/
theorem insertAll_cases (ht : t.Indexed) (hnodup : t.names.Nodup)
    (entries : List (Option String × Cell)) :
    match t.insertAll entries with
    | .ok t' => (t.names ++ entries.filterMap (·.1)).Nodup ∧
        (t.kind = .data → ∀ e ∈ entries, e.2.type.isData = true) ∧ t'.kind = t.kind ∧
          t'.entries = t.entries ++ entries.map fun e => ⟨e.1, e.2⟩
    | .error _ => ¬((t.names ++ entries.filterMap (·.1)).Nodup ∧
        (t.kind = .data → ∀ e ∈ entries, e.2.type.isData = true)) := by
  induction entries generalizing t with
  | nil => simpa [insertAll] using hnodup
  | cons e entries ih =>
    obtain ⟨name, cell⟩ := e
    have hinsert := insertInitial_cases ht name cell
    rw [insertAll]
    cases hres : t.insertInitial name cell with
    | error err =>
      rw [hres] at hinsert
      -- a cell that does not go in has a name that is taken, or no plain data
      refine fun h => hinsert ⟨fun n hn => ?_, fun hk => h.2 hk _ List.mem_cons_self⟩
      obtain ⟨-, -, hdisj⟩ := List.nodup_append.mp h.1
      exact fun hmem => hdisj n hmem n (by simp [Option.mem_def.mp hn]) rfl
    | ok r =>
      obtain ⟨pos, t₁⟩ := r
      rw [hres] at hinsert
      obtain ⟨hnew, hdata, hkind, hentries, hindexed⟩ := hinsert
      have hnames : t₁.names ++ entries.filterMap (·.1) =
          t.names ++ ((name, cell) :: entries).filterMap (·.1) := by
        rw [names, hentries, names]
        cases name <;> simp
      -- the names that are there stay different, so the rest goes in as it would have
      have hnodup₁ : t₁.names.Nodup := by
        rw [names, hentries]
        cases name with
        | none => simpa [names] using hnodup
        | some n =>
          simp only [List.filterMap_append, List.filterMap_cons, List.filterMap_nil]
          exact List.nodup_append.mpr ⟨hnodup, List.nodup_singleton n,
            fun m hm k hk hmk => hnew n rfl (by rwa [← List.mem_singleton.mp hk, ← hmk])⟩
      have hrest := ih hindexed hnodup₁
      dsimp only [bind, Except.bind]
      cases hall : t₁.insertAll entries with
      | error err =>
        rw [hall, hnames, hkind] at hrest
        exact fun h => hrest ⟨h.1, fun hk e he => h.2 hk e (List.mem_cons_of_mem _ he)⟩
      | ok t' =>
        rw [hall, hnames, hkind, hentries] at hrest
        refine ⟨hrest.1, fun hk e he => ?_, hrest.2.2.1, by simpa using hrest.2.2.2⟩
        rcases List.mem_cons.mp he with rfl | he
        · exact hdata hk
        · exact hrest.2.1 hk e he

end Tuple

namespace Store

variable {s₀ s s' : Store} {cells cells' : List Cell} {data data' : List Datum}

/-- The store has come about from `s₀` by making cells that denote the data, with their tuples. -/
def Gains (s₀ s : Store) (cells : List Cell) (data : List Datum) : Prop :=
  ∃ ids, s.Denotes cells data ids ∧ ids.Nodup ∧ s.root ∉ ids ∧ s₀.Trade [] s ids

namespace Gains

/-- A sound store has gained no cells from itself. -/
protected theorem nil (hs : s.Sound) : s.Gains s [] [] :=
  ⟨[], .nil, List.nodup_nil, List.not_mem_nil, .refl hs []⟩

/-- What has gained cells is sound. -/
theorem sound (h : s₀.Gains s cells data) : s.Sound := by
  obtain ⟨ids, -, -, -, htrade⟩ := h
  exact htrade.sound

/-- What is made later is made beside what there is. -/
theorem append (h : s₀.Gains s cells data) (h' : s.Gains s' cells' data') :
    s₀.Gains s' (cells ++ cells') (data ++ data') := by
  obtain ⟨ids, hden, hnodup, hroot, htrade⟩ := h
  obtain ⟨ids', hden', hnodup', hroot', htrade'⟩ := h'
  have hdisj : ∀ x ∈ ids, x ∉ ids' := by
    intro x hx
    obtain ⟨t, ht⟩ := hden.owns.live x hx
    exact htrade'.not_mem_new ht (by simp)
  refine ⟨ids ++ ids', (hden.keeps htrade' (by simp)).append hden', ?_, ?_, ?_⟩
  · exact List.nodup_append.mpr ⟨hnodup, hnodup', fun x hx y hy hxy => hdisj x hx (hxy ▸ hy)⟩
  · rw [List.mem_append, not_or, htrade'.root]
    exact ⟨hroot, htrade'.root ▸ hroot'⟩
  · have hframe := htrade'.frame ids
    rw [List.append_nil] at hframe
    exact htrade.trans hframe

/-- A new cell with a scalar denotes the scalar. -/
theorem newCell (hs : s.Sound) (type : String) {v : Value} (hv : v.tupleId? = none) :
    s.Gains { s with heap := (Cell.make s.heap (.leaf type) v).2 }
      [(Cell.make s.heap (.leaf type) v).1] [.scalar type v] := by
  have hgrows := Cell.grows_make s.heap (.leaf type) v
  refine ⟨[], .scalar rfl (Cell.stores_make s.heap (.leaf type) v) hv .nil, List.nodup_nil,
    List.not_mem_nil, ?_⟩
  exact { Trade.refl hs [] with sound := ⟨hs.arena, hs.root_live⟩, heap := hgrows }

end Gains

end Store

namespace ParseM

variable {s : ParseState}

/-- The parser gives a cell that denotes what the grammar gives; its tuples are all that is new
since `s₀`. -/
def Gives (s₀ : Store) (m : ParseM Cell) (s : ParseState)
    (o : Option (Datum × List Lexeme)) : Prop :=
  Follows (fun c d t => s₀.Gains t [c] [d]) m s o

/-- A new cell with a scalar is a scalar. -/
theorem Gives.newCell (hs : s.store.Sound) (hcursor : s.cursor.Regular) (type : String) {v : Value}
    (hv : v.tupleId? = none) :
    Gives s.store (onStore (StoreM.newCell (.leaf type) v)) s
      (some (.scalar type v, s.cursor.lexemes)) :=
  ⟨hcursor, rfl, .newCell hs type hv⟩

end ParseM

/-! ## Values -/

namespace ValueReader

variable {s₀ : Store} {s : ParseState} {levels : Nat}

/-- A scalar is read as by the reader. -/
theorem gives_scalar (hs : s.store.Sound) (hcursor : s.cursor.Regular) (token : Token)
    (negative : Bool) :
    Gives s.store (scalar token negative) s
      ((Grammar.scalar token.lexeme negative).map (·, s.cursor.lexemes)) := by
  have hread : Literal.read ⟨token.lexeme.kind, token.lexeme.text, {}⟩ negative =
      Literal.read token negative := by
    simp only [Literal.read, Token.lexeme]
  unfold scalar Grammar.scalar
  rw [hread]
  cases h : Literal.read token negative with
  | error message => exact .complain _ _
  | ok typed => exact .newCell hs hcursor _ (Literal.tupleId?_read h)

theorem gives_value {tuple : TupleKind → ParseM Cell} {scan : TupleKind → Scan Datum}
    (htuple : ∀ kind s, s.store.Sound → s.cursor.Regular →
      Gives s.store (tuple kind) s (scan kind s.cursor.lexemes))
    (hs : s.store.Sound) (hcursor : s.cursor.Regular) :
    Gives s.store (value levels tuple) s (Grammar.value levels scan s.cursor.lexemes) := by
  -- the opening of a tuple is passed, and a scalar with its sign
  have hopen : ∀ kind, Gives s.store (do advance 1; tuple kind) s
      (scan kind (s.cursor.lexemes.drop 1)) := by
    intro kind
    refine .advance_bind hcursor 1 fun s' hstore hcursor' => ?_
    rw [← hstore] at hs ⊢
    exact htuple kind s' hs hcursor'
  have hscalar : ∀ n token negative, Gives s.store (do advance n; scalar token negative) s
      ((Grammar.scalar token.lexeme negative).map (·, s.cursor.lexemes.drop n)) := by
    intro n token negative
    refine .advance_bind hcursor n (g := fun ls => (Grammar.scalar _ _).map (·, ls))
      fun s' hstore hcursor' => ?_
    rw [← hstore] at hs ⊢
    exact gives_scalar hs hcursor' token negative
  unfold value Grammar.value
  refine .current_bind ?_
  dsimp only
  rw [hcursor.kind_current, hcursor.text_current]
  have htoken := hcursor.lexeme_peek 0
  cases hkind : (ahead s.cursor.lexemes 0).kind
  case plainOpen => exact hopen _
  case dynamicOpen => exact hopen _
  case dataOpen => exact hopen _
  -- a type literal becomes a new cell for the type
  case typeOpen =>
    refine .advance_bind hcursor 1
      (g := fun ls => (typeBody levels ls).map fun t => (Datum.scalar "type" (.type t.1), t.2))
      fun s₁ hstore₁ hcursor₁ => ?_
    rw [Option.map_eq_bind]
    refine (TypeReader.yields_body levels hcursor₁).andThen fun t s₂ hstore₂ hcursor₂ => ?_
    rw [← hstore₁, ← hstore₂] at hs ⊢
    exact Gives.newCell hs hcursor₂ "type" rfl
  case ident =>
    refine .advance_bind hcursor 1 (g := fun ls => some (_, ls)) fun s' hstore hcursor' => ?_
    rw [← hstore] at hs ⊢
    exact Gives.newCell hs hcursor' "name" rfl
  case symbol =>
    dsimp only
    -- a minus sign belongs to the number right behind it
    by_cases hminus : (ahead s.cursor.lexemes 0).text = "-"
    · rw [if_pos (by simp [hminus]), if_pos (by simp [hminus])]
      refine .peek_bind ?_
      rw [hcursor.kind_peek]
      by_cases hnumber : ((ahead s.cursor.lexemes 1).kind == .int ||
          (ahead s.cursor.lexemes 1).kind == .long ||
            (ahead s.cursor.lexemes 1).kind == .float) = true
      · rw [if_pos hnumber, if_pos hnumber, ← hcursor.lexeme_peek]
        exact hscalar 2 _ true
      · rw [if_neg hnumber, if_neg hnumber]
        exact .complain _ _
    · rw [if_neg (by simp [hminus]), if_neg (by decide), if_neg (by simp [hminus])]
      exact .complain _ _
  all_goals
    first
      | exact htoken ▸ hscalar 1 _ false
      | exact .complain _ _

/-- The name of a tuple's element is read as by the reader. -/
theorem yields_name (hs : s.cursor.Regular) :
    Yields name s (Grammar.name ["=", ":"] s.cursor.lexemes) := by
  unfold name Grammar.name
  refine .current_bind (.peek_bind ?_)
  rw [hs.kind_current, hs.text_current, hs.isWord_peek,
    hs.isWord_peek]
  by_cases h : (ahead s.cursor.lexemes 0).kind = .ident ∧
      ["=", ":"].any (ahead s.cursor.lexemes 1).isWord = true
  · rw [if_pos h, if_pos (by simpa using h)]
    exact Yields.advance_bind hs 2 (g := fun ls => some (some _, ls)) fun s' _ hs' =>
      Yields.pure hs' _
  · rw [if_neg h, if_neg (by simpa using h)]
    exact Yields.pure hs _

/-- Building a tuple from cells gives what the grammar makes of the data. -/
theorem gives_build {entries : List (Option String × Cell)} {data : List Datum.Entry}
    (hgains : s₀.Gains s.store (entries.map (·.2)) (data.map (·.2)))
    (hnames : entries.map (·.1) = data.map (·.1)) (hcursor : s.cursor.Regular) (scope : TupleId)
    (kind : TupleKind) :
    Gives s₀ (build scope kind entries) s
    ((Grammar.build kind data).map (·, s.cursor.lexemes)) := by
  obtain ⟨ids, hden, hnodup, hroot, htrade⟩ := hgains
  have hfields : entries.map (fun e => (e.1, e.2.type)) = Datum.fieldsOf data := by
    have htypes := hden.map_type
    rw [List.map_map, List.map_map] at htypes
    have hzip := congrArg₂ List.zip hnames htypes
    rw [List.zip_map', List.zip_map'] at hzip
    rw [Datum.fieldsOf_eq_map]
    exact hzip
  let empty : Tuple := { kind, permissions := kind.fixedPermissions?.getD {}, parent := some scope }
  have hheld : s.store.Holds (entries.map (·.2) : List Cell) ids :=
    ⟨⟨_, rfl, hden.owns⟩, hnodup, hroot⟩
  have hbuild := build_run htrade.sound scope kind entries hheld
  have hinsert := Tuple.insertAll_cases (t := empty) rfl List.nodup_nil entries
  -- what the empty tuple takes is what the grammar admits
  have hadmits : ((empty.names ++ entries.filterMap (·.1)).Nodup ∧
      (empty.kind = .data → ∀ e ∈ entries, e.2.type.isData = true)) ↔
        Admits kind (Datum.fieldsOf data) := by
    rw [Admits, ← hfields, List.filterMap_map]
    refine and_congr Iff.rfl (imp_congr Iff.rfl ?_)
    simp only [List.mem_map, forall_exists_index, and_imp, forall_apply_eq_imp_iff₂]
  unfold Gives Follows Grammar.build
  cases hrun : build scope kind entries s with
  | error e s' =>
    rw [hrun] at hbuild
    obtain ⟨-, ⟨err, herr⟩, -⟩ := hbuild
    rw [herr] at hinsert
    rw [if_neg fun h => hinsert (hadmits.mpr h)]
    trivial
  | ok c s' =>
    rw [hrun] at hbuild
    obtain ⟨hsame, id, t, hall, ht, howned, htype, hstores, -, hid, hne, htrade', horphan⟩ := hbuild
    rw [hall] at hinsert
    obtain ⟨hnew, hdata, hkind, hentries⟩ := hinsert
    rw [if_pos (hadmits.mp ⟨hnew, hdata⟩)]
    refine ⟨hsame ▸ hcursor, by rw [hsame], id :: (ids ++ []), ?_, ?_, ?_, ?_⟩
    · have hcells : t.entries.map (·.cell) = entries.map (·.2) := by
        simp [hentries, empty]
      have hattributes : t.entries.map (·.name) = data.map (·.1) := by
        rw [← hnames]
        simp [hentries, empty]
      have hden' : s'.store.Denotes (t.entries.map (·.cell)) (data.map (·.2)) ids := by
        rw [hcells]
        exact hden.congr_orphan (fun x hx => horphan x fun h => hid (h ▸ hx)) htrade'.heap
      rw [← show t.kind = kind from hkind]
      exact .tuple howned hstores ht htype hattributes hden' .nil
    · rw [List.append_nil, List.nodup_cons]
      exact ⟨hid, hnodup⟩
    · rw [List.append_nil, List.mem_cons, not_or]
      exact ⟨hne.symm, by rw [htrade'.root]; exact hroot⟩
    · rw [List.append_nil]
      exact htrade.trans htrade'

theorem gives_element {value nested : ParseM Cell} {scan scanNested : Scan Datum}
    (hvalue : ∀ s, s.store.Sound → s.cursor.Regular → Gives s.store value s (scan s.cursor.lexemes))
    (hnested : ∀ s, s.store.Sound → s.cursor.Regular →
      Gives s.store nested s (scanNested s.cursor.lexemes))
    (hs : s.store.Sound) (hcursor : s.cursor.Regular) :
    Gives s.store (element value nested) s (Grammar.element scan scanNested s.cursor.lexemes) := by
  unfold element Grammar.element
  refine .current_bind ?_
  rw [hcursor.kind_current]
  by_cases h : (ahead s.cursor.lexemes 0).kind = .lparen
  · rw [if_pos h, if_pos (by simpa using h)]
    refine .advance_bind hcursor 1 fun s' hstore hcursor' => ?_
    rw [← hstore] at hs ⊢
    exact hnested s' hs hcursor'
  · rw [if_neg h, if_neg (by simpa using h)]
    exact hvalue s hs hcursor

theorem gives_elements {scope : TupleId} {kind : TupleKind} {value nested : ParseM Cell}
    {scan scanNested : Scan Datum}
    (hvalue : ∀ s, s.store.Sound → s.cursor.Regular → Gives s.store value s (scan s.cursor.lexemes))
    (hnested : ∀ s, s.store.Sound → s.cursor.Regular →
      Gives s.store nested s (scanNested s.cursor.lexemes))
    (rounds : Nat) {entries : List (Option String × Cell)} {data : List Datum.Entry}
    {s : ParseState} (hgains : s₀.Gains s.store (entries.map (·.2)) (data.map (·.2)))
    (hnames : entries.map (·.1) = data.map (·.1)) (hcursor : s.cursor.Regular) :
    Gives s₀ (elements scope kind value nested rounds entries) s
      (Grammar.elements kind scan scanNested rounds data s.cursor.lexemes) := by
  induction rounds generalizing entries data s with
  | zero => exact (Follows.throw _).holdingCells _
  | succ rounds ih =>
    unfold elements Grammar.elements
    refine .current_bind ?_
    rw [hcursor.kind_current]
    -- the round is for one element, unless the parenthesis is there already
    by_cases hclose : (ahead s.cursor.lexemes 0).kind = .rparen
    · rw [if_pos hclose, if_pos (by simpa using hclose)]
      refine .advance_bind hcursor 1 (g := fun ls => (Grammar.build kind data).map (·, ls))
        fun s' hstore hcursor' => ?_
      exact gives_build (hstore ▸ hgains) hnames hcursor' scope kind
    · rw [if_neg hclose, if_neg (by simpa using hclose)]
      refine (yields_name hcursor).andThen fun name s₁ hstore₁ hcursor₁ => ?_
      rw [← hstore₁] at hgains
      refine .bind ((gives_element hvalue hnested hgains.sound hcursor₁).holdingCells _)
        fun c d s₂ hcursor₂ (hgains₂ : s₁.store.Gains s₂.store [c] [d]) => ?_
      -- the element joins those that have been read
      have hgains' : s₀.Gains s₂.store ((entries ++ [(name, c)]).map (·.2))
          ((data ++ [(name, d)]).map (·.2)) := by
        simpa using hgains.append hgains₂
      have hnames' : (entries ++ [(name, c)]).map (·.1) = (data ++ [(name, d)]).map (·.1) := by
        simp [hnames]
      refine .current_bind ?_
      rw [hcursor₂.kind_current]
      dsimp only
      cases (ahead s₂.cursor.lexemes 0).kind
      case comma =>
        exact .advance_bind hcursor₂ 1 fun s' hstore hcursor' =>
          ih (hstore ▸ hgains') hnames' hcursor'
      case rparen =>
        refine .advance_bind hcursor₂ 1 (g := fun ls => (Grammar.build kind _).map (·, ls))
          fun s' hstore hcursor' => ?_
        exact gives_build (hstore ▸ hgains') hnames' hcursor' scope kind
      all_goals exact (Follows.complainHere _).holdingCells _

/-- A tuple is read as by the reader. -/
theorem gives_tuple (scope : TupleId) (levels : Nat) (kind : TupleKind) {s : ParseState}
    (hs : s.store.Sound) (hcursor : s.cursor.Regular) :
    Gives s.store (tuple scope levels kind) s (Grammar.tuple levels kind s.cursor.lexemes) := by
  induction levels generalizing kind s with
  | zero => exact .tooDeep _
  | succ levels ih =>
    unfold tuple Grammar.tuple
    refine .rounds_bind (gives_elements ?_ ?_ _ ?_ rfl hcursor)
    · exact fun s hs hcursor => gives_value (fun kind s hs hcursor => ih kind hs hcursor) hs hcursor
    · exact fun s hs hcursor => ih kind hs hcursor
    · exact .nil hs

/-- Reading a value gives what the grammar gives. -/
theorem gives_read (scope : TupleId) (levels : Nat) (hs : s.store.Sound)
    (hcursor : s.cursor.Regular) :
    Gives s.store (read scope levels) s (Grammar.read levels s.cursor.lexemes) :=
  gives_value (fun kind _ hs hcursor => gives_tuple scope levels kind hs hcursor) hs hcursor

end ValueReader

end TupleLang
