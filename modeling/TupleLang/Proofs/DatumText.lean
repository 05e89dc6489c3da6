import TupleLang.Proofs.FollowingParser
import TupleLang.Proofs.Reading
import TupleLang.Proofs.TypeText

/-!
# Text of data

What is written for a datum is read back as the datum. It has to be readable: scalars that literals
stand for, identifiers as names, tuples of the kinds with a letter, no deeper than the reader goes.
All data that are read from a text are of this sort.
-/

namespace TupleLang

open Lexer

namespace Datum

/-- Data that can be read, with so many levels of nesting. -/
inductive Readable : Nat → Datum → Prop
  | scalar {levels : Nat} {type : String} {v : Value} :
      Literal.Stands type v → Readable levels (.scalar type v)
  | float {levels : Nat} (x : Float) : Readable levels (.scalar "float" (.float x))
  | type {levels : Nat} {t : TypeDesc} :
      t.Readable levels → 0 < levels → Readable levels (.scalar "type" (.type t))
  | tuple {levels : Nat} {kind : TupleKind} {entries : List Entry} :
      kind ∈ [.plain, .dynamic, .data] → Grammar.Admits kind (fieldsOf entries) →
      (∀ e ∈ entries, ∀ name, e.1 = some name → IsIdent name) →
      (∀ e ∈ entries, Readable levels e.2) → Readable (levels + 1) (.tuple kind entries)

/-! ## Writing attributes -/

section Writing

variable {forms : TextForms} {kind : TupleKind}

/-- The pieces behind the opening of a tuple, from some attributes on. -/
def bodyPieces (forms : TextForms) (kind : TupleKind) (first : Bool) (state : Store.EntriesState)
    (entries : List Entry) : List Piece :=
  let (inner, inBlock) := entriesPieces forms kind first state entries
  inner ++ (if inBlock then [.endBlock, .lineBreak] else []) ++ [.punct ")"]

/-- The pieces of a tuple: its letter, unless the tuple around it has the same, and its entries. -/
theorem pieces_tuple (enclosing : Option TupleKind) (entries : List Entry) :
    (tuple kind entries).pieces forms enclosing =
      (if enclosing = some kind then [] else [.word kind.letter]) ++
        .punct "(" :: bodyPieces forms kind true {} entries := by
  simp [pieces, bodyPieces]

/-- After the last entry a block is ended. -/
theorem bodyPieces_nil (first : Bool) (state : Store.EntriesState) :
    bodyPieces forms kind first state [] =
      (if state.inBlock then [.endBlock, .lineBreak] else []) ++ [.punct ")"] := by
  rw [bodyPieces, entriesPieces]
  rfl

/-- An entry comes behind a comma, unless it is the first. -/
theorem bodyPieces_cons (first : Bool) (state : Store.EntriesState) (e : Entry)
    (entries : List Entry) :
    bodyPieces forms kind first state (e :: entries) =
      (if first then [] else [.punct ","]) ++
        ((entryPieces state e.1 e.2.isTuple (e.2.pieces forms (some kind))).1 ++
          bodyPieces forms kind false
            (entryPieces state e.1 e.2.isTuple (e.2.pieces forms (some kind))).2 entries) := by
  obtain ⟨name, d⟩ := e
  simp [bodyPieces, entriesPieces]

/-- A word ends in front of the attributes behind it. -/
theorem endsWord_body (state : Store.EntriesState) (entries : List Entry) (others : List Piece) :
    EndsWord (bodyPieces forms kind false state entries ++ others) := by
  cases entries with
  | nil =>
    rw [bodyPieces_nil]
    split
    · exact EndsWord.endBlock EndsWord.lineBreak
    · exact EndsWord.punct (by decide)
  | cons e entries =>
    rw [bodyPieces_cons]
    exact EndsWord.punct (by decide)

/-- An attribute is written with its name: in front of `:` and on a line of its own for a tuple, in
front of `=` for a scalar. -/
theorem writes_entry {name : Option String} (hname : ∀ n, name = some n → IsIdent n) {d : Datum}
    {ls : List Lexeme} (h : Writes (d.pieces forms (some kind)) ls)
    (hscalar : d.isTuple = false → ∃ w, d.pieces forms (some kind) = [.word w] ∧ Clear w)
    (state : Store.EntriesState) :
    Writes (entryPieces state name d.isTuple (d.pieces forms (some kind))).1
      (Grammar.nameLexemes (if d.isTuple then ":" else "=") name ++ ls) := by
  intro others ks hends hspells
  cases htuple : d.isTuple with
  | true =>
    -- a tuple begins a line of its own, in the block that is open or in a new one
    have hlines : ∀ {pieces : List Piece} {js : List Lexeme}, Spells pieces js →
        Spells ((if state.inBlock then [] else [.startBlock]) ++ .lineBreak :: pieces) js := by
      intro pieces js hjs
      split
      · exact Spells.lineBreak hjs
      · exact Spells.startBlock (Spells.lineBreak hjs)
    cases name with
    | none =>
      have hinner := hlines (h others ks hends hspells)
      simpa [entryPieces, Grammar.nameLexemes] using hinner
    | some name =>
      have hident := hname name rfl
      have hinner := h (.endBlock :: others) ks hends.endBlock hspells.endBlock
      -- a name in front of a tuple has a block of its own behind it
      have hsign : Spells (.punct ":" :: .startBlock :: .lineBreak ::
          (d.pieces forms (some kind) ++ .endBlock :: others)) (⟨.symbol, ":"⟩ :: (ls ++ ks)) :=
        Spells.punct (by decide) hinner.lineBreak.startBlock
      have hword := hlines (Spells.word hident.clear.1 (EndsWord.punct (by decide)) hsign)
      rw [hident.clear.2] at hword
      simpa [entryPieces, Grammar.nameLexemes] using hword
  | false =>
    -- a scalar stands on the line of the one before it, unless that was a tuple
    have hgap : ∀ {pieces : List Piece} {js : List Lexeme}, Spells pieces js →
        Spells ((if state.afterTuple then [.lineBreak] else []) ++ pieces) js := by
      intro pieces js hjs
      split
      · exact Spells.lineBreak hjs
      · exact hjs
    cases name with
    | none =>
      have hinner := hgap (h others ks hends hspells)
      simpa [entryPieces, Grammar.nameLexemes] using hinner
    | some name =>
      have hident := hname name rfl
      obtain ⟨w, hw, hclear⟩ := hscalar htuple
      have hinner := h others ks hends hspells
      rw [hw] at hinner ⊢
      have hsign : Spells (.punct "=" :: .word w :: others) (⟨.symbol, "="⟩ :: (ls ++ ks)) :=
        Spells.equals_word hclear hinner
      have hword := hgap (Spells.word hident.clear.1 (EndsWord.punct (by decide)) hsign)
      rw [hident.clear.2] at hword
      simpa [entryPieces, Grammar.nameLexemes] using hword

end Writing

/-! ## Reading attributes -/

/-- Reads an element of a tuple of the given kind. -/
abbrev readElement (levels : Nat) (kind : TupleKind) : Grammar.Scan Datum :=
  Grammar.element (Grammar.value levels (Grammar.tuple levels)) (Grammar.tuple levels kind)

/-- The lexemes are what is written for a datum in a tuple of the given kind, and are read as the
datum. -/
structure Echoes (forms : TextForms) (levels : Nat) (kind : TupleKind) (d : Datum)
    (ls : List Lexeme) : Prop where
  writes : Writes (d.pieces forms (some kind)) ls
  scalar : d.isTuple = false → ∃ w, d.pieces forms (some kind) = [.word w] ∧ Clear w
  heads : Grammar.Heads ls
  reads : ∀ rest, readElement levels kind (ls ++ rest) = some (d, rest)

section Reading

variable {forms : TextForms} {levels : Nat} {kind : TupleKind} {d : Datum} {ls : List Lexeme}
  {entries : List Entry}

/-- A legible scalar is written and read as an element. -/
theorem echoes_scalar {type : String} {v : Value}
    (h : Legible levels (scalarText forms type v) (.scalar type v)) :
    Echoes forms levels kind (.scalar type v) (lexemes (scalarText forms type v).toList) := by
  obtain ⟨l, others, hls, hkind, hident⟩ := h.reads.head
  have hpieces : (Datum.scalar type v).pieces forms (some kind) =
    [.word (scalarText forms type v)] := by
    rw [pieces]
  rw [List.mem_pair, not_or] at hkind
  refine ⟨?_, fun _ => ⟨_, hpieces, h.clear⟩, ⟨l, others, hls, hkind.2, hident⟩, fun rest => ?_⟩
  · rw [hpieces]
    exact Writes.word h.clear
  · have hlparen :
      (Grammar.ahead (lexemes (scalarText forms type v).toList ++ rest) 0).kind ≠ .lparen := by
      rw [hls]
      exact hkind.1
    rw [readElement, Grammar.element, if_neg hlparen]
    exact h.reads.value _ rest

/-- One element of a tuple is read, and the others behind it. -/
theorem elements_entry {sign : String} (hsign : sign ∈ ["=", ":"]) (name : Option String)
    (h : Echoes forms levels kind d ls) (rounds : Nat) (done : List Entry) (last : Bool)
    (rest : List Lexeme) :
    Grammar.elements kind (Grammar.value levels (Grammar.tuple levels)) (Grammar.tuple levels kind)
        (rounds + 1) done (Grammar.nameLexemes sign name ++ (ls ++ Grammar.closes last :: rest)) =
      if last then (Grammar.build kind (done ++ [(name, d)])).map (·, rest)
      else Grammar.elements kind (Grammar.value levels (Grammar.tuple levels))
        (Grammar.tuple levels kind) rounds (done ++ [(name, d)]) rest := by
  have hread := h.reads (Grammar.closes last :: rest)
  rw [readElement] at hread
  rw [Grammar.elements, if_neg (Grammar.head_append h.heads name _),
    Grammar.name_append hsign h.heads name last rest, Option.bind_some, hread, Option.bind_some]
  cases last <;> rfl

/-- What is written for attributes is read as the attributes, which are at least one. -/
theorem exists_entries (hnames : ∀ e ∈ entries, ∀ name, e.1 = some name → IsIdent name)
    (hechoes : ∀ e ∈ entries, ∃ ls, Echoes forms levels kind e.2 ls) (state : Store.EntriesState) :
    ∃ ls, entries.length ≤ ls.length ∧
      Writes (bodyPieces forms kind false state entries) (Grammar.closes entries.isEmpty :: ls) ∧
      (entries = [] → ls = []) ∧
      (entries ≠ [] → Writes (bodyPieces forms kind true state entries) ls ∧
        ∀ (done : List Entry) (rounds : Nat) (rest : List Lexeme), entries.length ≤ rounds →
          Grammar.elements kind (Grammar.value levels (Grammar.tuple levels))
              (Grammar.tuple levels kind) rounds done (ls ++ rest) =
            (Grammar.build kind (done ++ entries)).map (·, rest)) := by
  induction entries generalizing state with
  | nil =>
    refine ⟨[], Nat.le_refl 0, fun others ks _ hspells => ?_, fun _ => rfl, fun h => absurd rfl h⟩
    have hclose : Spells (.punct ")" :: others) (Grammar.closes true :: ks) :=
      Spells.punct (by decide) hspells
    rw [bodyPieces_nil]
    split
    · exact hclose.lineBreak.endBlock
    · exact hclose
  | cons e entries ih =>
    obtain ⟨els, hels⟩ := hechoes e List.mem_cons_self
    obtain ⟨tail, hlength, hwrites, hnil, hcons⟩ := ih
      (fun f hf => hnames f (List.mem_cons_of_mem e hf))
      (fun f hf => hechoes f (List.mem_cons_of_mem e hf))
      (entryPieces state e.1 e.2.isTuple (e.2.pieces forms (some kind))).2
    -- a tuple is named with a colon, anything else with an equality sign
    have hsign : (if e.2.isTuple then ":" else "=") ∈ ["=", ":"] := by
      cases e.2.isTuple <;> decide
    have hentry := writes_entry (hnames e List.mem_cons_self) hels.writes hels.scalar state
    generalize (if e.2.isTuple then ":" else "=") = sign at hsign hentry
    -- the first attribute is written without a comma in front
    have hfirst : Writes (bodyPieces forms kind true state (e :: entries))
        (Grammar.nameLexemes sign e.1 ++ (els ++ Grammar.closes entries.isEmpty :: tail)) := by
      intro others ks hends hspells
      have hall := hentry _ _ (endsWord_body _ entries others) (hwrites others ks hends hspells)
      simpa [bodyPieces_cons] using hall
    refine ⟨_, ?_, fun others ks hends hspells => ?_, fun h => by simp at h,
      fun _ => ⟨hfirst, fun done rounds rest hrounds => ?_⟩⟩
    · -- there are at least as many lexemes as attributes
      have hpos := hels.heads.length_pos
      simp
      omega
    · -- further attributes stand behind a comma
      have hcomma := hfirst others ks hends hspells
      rw [bodyPieces_cons] at hcomma ⊢
      exact Spells.punct (by decide) hcomma
    · -- reading takes one round for each attribute
      obtain ⟨rounds, rfl⟩ : ∃ n, rounds = n + 1 := ⟨rounds - 1, by simp at hrounds; omega⟩
      have hstep := elements_entry hsign e.1 hels rounds done entries.isEmpty (tail ++ rest)
      rw [List.append_assoc, List.append_assoc]
      refine hstep.trans ?_
      cases entries with
      | nil => simp [hnil rfl]
      | cons f entries =>
        have hrest := (hcons (by simp)).2 (done ++ [e]) rounds rest (by simp at hrounds ⊢; omega)
        simpa using hrest

/-- What is written for a tuple behind its opening is read as the tuple. -/
theorem exists_body (hadmits : Grammar.Admits kind (fieldsOf entries))
    (hnames : ∀ e ∈ entries, ∀ name, e.1 = some name → IsIdent name)
    (hechoes : ∀ e ∈ entries, ∃ ls, Echoes forms levels kind e.2 ls) :
    ∃ ls, Writes (bodyPieces forms kind true {} entries) ls ∧
      ∀ rest, Grammar.tuple (levels + 1) kind (ls ++ rest) = some (.tuple kind entries, rest) := by
  have hbuild : Grammar.build kind entries = some (.tuple kind entries) := by
    rw [Grammar.build, if_pos hadmits]
  obtain ⟨ls, hlength, hwrites, hnil, hcons⟩ := exists_entries hnames hechoes {}
  cases entries with
  | nil =>
    refine ⟨[Grammar.closes true], ?_, fun rest => ?_⟩
    · rw [hnil rfl] at hwrites
      exact hwrites
    · simp [Grammar.tuple, Grammar.elements, Grammar.closes, hbuild]
  | cons e entries =>
    obtain ⟨hfirst, hreads⟩ := hcons (List.cons_ne_nil e entries)
    refine ⟨ls, hfirst, fun rest => ?_⟩
    rw [Grammar.tuple, hreads [] _ rest (by simp at hlength ⊢; omega), List.nil_append, hbuild]
    rfl

end Reading

/-- The lexeme that opens a tuple of a kind with a letter. -/
def opening : TupleKind → Lexeme
  | .plain => ⟨.plainOpen, "P("⟩
  | .dynamic => ⟨.dynamicOpen, "D("⟩
  | _ => ⟨.dataOpen, "E("⟩

/-- The letter of a kind and a parenthesis spell one lexeme. -/
theorem spells_opening {kind : TupleKind} (hkind : kind ∈ [.plain, .dynamic, .data])
    {pieces : List Piece}
    {ls : List Lexeme} (h : Spells pieces ls) :
    Spells (.word kind.letter :: .punct "(" :: pieces) (opening kind :: ls) := by
  simp only [List.mem_cons, List.not_mem_nil, or_false] at hkind
  rcases hkind with rfl | rfl | rfl
  · exact Spells.opening (c := 'P') (by decide) (by decide) h
  · exact Spells.opening (c := 'D') (by decide) (by decide) h
  · exact Spells.opening (c := 'E') (by decide) (by decide) h

/-- That lexeme opens a tuple of the kind. -/
theorem value_opening {kind : TupleKind} (hkind : kind ∈ [.plain, .dynamic, .data]) (levels : Nat)
    (tuple : TupleKind → Grammar.Scan Datum) (rest : List Lexeme) :
    Grammar.value levels tuple (opening kind :: rest) = tuple kind rest := by
  simp only [List.mem_cons, List.not_mem_nil, or_false] at hkind
  rcases hkind with rfl | rfl | rfl <;> rfl

/-! ## Reading back -/

namespace Readable

variable (forms : TextForms) {levels : Nat} {d : Datum}

/-- A readable scalar without a floating point number is legible. -/
theorem legible {type : String} {v : Value}
    (h : Readable levels (.scalar type v)) (hfloat : (Datum.scalar type v).hasFloat = false) :
    Legible levels (scalarText forms type v) (.scalar type v) := by
  cases h with
  | scalar hv => exact hv.legible levels
  | float x => simp [hasFloat] at hfloat
  | type ht hlevels => exact ht.legible hlevels

/-- If no entry has a floating point number then each of them has none. -/
theorem hasFloat_of_mem {entries : List Entry} (h : anyFloat entries = false) :
    ∀ e ∈ entries, e.2.hasFloat = false := by
  induction entries with
  | nil => exact List.forall_mem_nil _
  | cons e entries ih =>
    obtain ⟨name, d⟩ := e
    rw [anyFloat, Bool.or_eq_false_iff] at h
    exact List.forall_mem_cons.mpr ⟨h.1, ih h.2⟩

/-- What is written for a readable datum inside a tuple is read back as the datum. -/
theorem echoes (h : d.Readable levels) (hfloat : d.hasFloat = false)
    (kind : TupleKind) : ∃ ls, Echoes forms levels kind d ls := by
  induction h generalizing kind with
  | scalar hv => exact ⟨_, echoes_scalar (legible forms (.scalar hv) hfloat)⟩
  | float x => simp [hasFloat] at hfloat
  | type ht hlevels => exact ⟨_, echoes_scalar (legible forms (.type ht hlevels) hfloat)⟩
  | @tuple levels kind' entries hkind hadmits hnames _ ih =>
    rw [hasFloat] at hfloat
    obtain ⟨ls, hwrites, hreads⟩ := exists_body hadmits hnames fun e he =>
      ih e he (hasFloat_of_mem hfloat e he) kind'
    by_cases hsame : some kind = some kind'
    · -- a tuple of the same kind goes without its letter
      obtain rfl := Option.some.inj hsame
      refine ⟨⟨.lparen, "("⟩ :: ls, ?_, fun h => (nomatch h), ⟨_, _, rfl, by simp, by simp⟩, hreads⟩
      intro others ks hends hspells
      rw [pieces_tuple, if_pos rfl]
      exact Spells.punct (by decide) (hwrites others ks hends hspells)
    · refine ⟨opening kind' :: ls, ?_, fun h => (nomatch h), ⟨_, _, rfl, ?_, ?_⟩, fun rest => ?_⟩
      · intro others ks hends hspells
        rw [pieces_tuple, if_neg hsame]
        exact spells_opening hkind (hwrites others ks hends hspells)
      · cases kind' <;> simp [opening]
      · cases kind' <;> simp [opening]
      · have hparen : (Grammar.ahead (opening kind' :: (ls ++ rest)) 0).kind ≠ .lparen := by
          cases kind' <;> simp [opening]
        rw [List.cons_append, readElement, Grammar.element, if_neg hparen, value_opening hkind]
        exact hreads rest

end Readable

end Datum

/-! ## What is read can be written -/

namespace Literal

/-- A word of a literal stands for itself. -/
theorem stands_of_word? {w : Word} (hw : w ≠ .unsigned) {n : Int} {typed : Typed}
    (h : word? w n = some typed) : Stands typed.type typed.value := by
  obtain ⟨x, -, rfl⟩ := Option.map_eq_some_iff.mp h
  cases w with
  | int => exact .int x
  | long => exact .long x
  | unsigned => exact absurd rfl hw

/-- What a literal of the form of its kind is read as is a floating point number or has a literal
of its own. -/
theorem stands_of_read {l : Lexeme} (hl : Fits l) {negative : Bool} {typed : Typed}
    (h : read ⟨l.kind, l.text, {}⟩ negative = .ok typed) :
    Stands typed.type typed.value ∨ ∃ x, typed = ⟨"float", .float x⟩ := by
  obtain ⟨kind, text⟩ := l
  cases kind with
  | voidWord => exact .inl (Except.ok.inj h ▸ .void)
  | trueWord => exact .inl (Except.ok.inj h ▸ .bool true)
  | falseWord => exact .inl (Except.ok.inj h ▸ .bool false)
  | int =>
    left
    simp only [read, bind, Except.bind] at h
    split at h
    · cases h
    · -- without a suffix the number is an `int` if it fits, and else a `long`
      rcases Option.or_eq_some_iff.mp (eq_of_orFail h) with hint | ⟨-, hlong⟩
      · exact stands_of_word? (by decide) hint
      · exact stands_of_word? (by decide) hlong
  | long =>
    left
    simp only [read, bind, Except.bind] at h
    split at h
    · cases h
    · exact stands_of_word? (by decide) (eq_of_orFail h)
  | float =>
    right
    obtain ⟨x, -, rfl⟩ := Option.map_eq_some_iff.mp (eq_of_orFail h)
    exact ⟨_, rfl⟩
  | index =>
    left
    obtain ⟨n, -, rfl⟩ := Option.map_eq_some_iff.mp (eq_of_orFail h)
    exact .index _
  | bits =>
    left
    obtain ⟨n, -, rfl⟩ := Option.map_eq_some_iff.mp (eq_of_orFail h)
    exact .bits _
  | byte =>
    left
    obtain ⟨b, -, rfl⟩ := Option.map_eq_some_iff.mp (eq_of_orFail h)
    exact .byte b
  | bytes =>
    left
    obtain ⟨bs, -, rfl⟩ := Option.map_eq_some_iff.mp (eq_of_orFail h)
    exact .bytes bs
  | char =>
    left
    simp only [read] at h
    split at h
    · exact Except.ok.inj h ▸ .char _
    · cases h
  | text => exact .inl (Except.ok.inj h ▸ .text _)
  | regex => exact .inl (Except.ok.inj h ▸ .regex _)
  | path => exact .inl (Except.ok.inj h ▸ .path _)
  | namePath =>
    left
    obtain ⟨p, htext, hp⟩ := hl.path rfl
    -- behind its mark stands the path itself
    have hcut : Cut.inside 1 0 text = String.ofList p := Cut.inside_mark (by decide) htext
    simp only [read, hcut, String.toList_ofList, Except.ok.injEq] at h
    rw [← h]
    exact .namePath hp
  | sigil =>
    left
    obtain ⟨w, htext, hw⟩ := hl.sigil rfl
    -- behind its mark stands the word itself
    have hcut : Cut.inside 1 0 text = String.ofList w := Cut.inside_mark (by decide) htext
    simp only [read, hcut, Except.ok.injEq] at h
    rw [← h]
    exact .sigil (by rwa [String.toList_ofList])
  | ident => exact .inl (Except.ok.inj h ▸ .name (hl.ident rfl))
  | _ => cases h

end Literal

namespace Grammar

section Values

variable {levels : Nat} {tuple : TupleKind → Scan Datum}

/-- Scalars that are read can be read back. -/
theorem readable_scalar {l : Lexeme} (hl : Fits l) {negative : Bool} {d : Datum}
    (h : scalar l negative = some d) : d.Readable levels := by
  rw [scalar] at h
  split at h
  · rename_i typed hread
    rw [← Option.some.inj h]
    rcases Literal.stands_of_read hl hread with hstands | ⟨x, rfl⟩
    · exact .scalar hstands
    · exact .float x
  · cases h

/-- The tuples that are read behind an opening can be read back. -/
def GetsTuples (levels : Nat) (tuple : TupleKind → Scan Datum) : Prop :=
  ∀ kind ∈ [TupleKind.plain, .dynamic, .data], Gets (Datum.Readable levels) (tuple kind)

/-- Values that are read can be read back if tuples can. -/
theorem gets_value (htuple : GetsTuples levels tuple) :
    Gets (Datum.Readable levels) (value levels tuple) := by
  intro ls x rest hls h
  rw [value] at h
  dsimp only at h
  -- what is left is a scalar, behind a minus or not
  split at h
  · exact htuple .plain (by simp) _ x rest (hls.drop 1) h
  · exact htuple .dynamic (by simp) _ x rest (hls.drop 1) h
  · exact htuple .data (by simp) _ x rest (hls.drop 1) h
  · obtain ⟨⟨t, ls'⟩, ht, hx⟩ := Option.map_eq_some_iff.mp h
    obtain ⟨⟨hreadable, hlevels⟩, hls'⟩ := gets_typeBody levels _ t ls' (hls.drop 1) ht
    obtain ⟨rfl, rfl⟩ := Prod.mk.inj hx
    exact ⟨.type hreadable hlevels, hls'⟩
  · -- a bare name is a value of its own
    rename_i hkind
    obtain ⟨rfl, rfl⟩ := Prod.mk.inj (Option.some.inj h)
    exact ⟨.scalar (.name ((hls.ahead 0).ident hkind)), hls.drop 1⟩
  · split at h
    · split at h
      · obtain ⟨d, hd, hx⟩ := Option.map_eq_some_iff.mp h
        obtain ⟨rfl, rfl⟩ := Prod.mk.inj hx
        exact ⟨readable_scalar (hls.ahead 1) hd, hls.drop 2⟩
      · cases h
    · split at h
      · obtain ⟨d, hd, hx⟩ := Option.map_eq_some_iff.mp h
        obtain ⟨rfl, rfl⟩ := Prod.mk.inj hx
        exact ⟨readable_scalar (hls.ahead 0) hd, hls.drop 1⟩
      · cases h

/-- Attributes that can be read. -/
def EntriesReadable (levels : Nat) (entries : List Datum.Entry) : Prop :=
  ∀ e ∈ entries, (∀ name, e.1 = some name → IsIdent name) ∧ e.2.Readable levels

/-- A tuple that has been put together from entries that can be read back can be read back. -/
theorem readable_build {kind : TupleKind} (hkind : kind ∈ [.plain, .dynamic, .data])
    {entries : List Datum.Entry} (h : EntriesReadable levels entries) {d : Datum}
    (hbuild : build kind entries = some d) : d.Readable (levels + 1) := by
  rw [build] at hbuild
  split at hbuild
  · rename_i hadmits
    rw [← Option.some.inj hbuild]
    exact .tuple hkind hadmits (fun e he => (h e he).1) fun e he => (h e he).2
  · cases hbuild

/-- So the entries that are read come to a tuple that can be read back. -/
theorem gets_elements {kind : TupleKind} (hkind : kind ∈ [.plain, .dynamic, .data])
    {value nested : Scan Datum} (hvalue : Gets (Datum.Readable levels) value)
    (hnested : Gets (Datum.Readable levels) nested) (rounds : Nat) {entries : List Datum.Entry}
    (hentries : EntriesReadable levels entries) :
    Gets (Datum.Readable (levels + 1)) (elements kind value nested rounds entries) := by
  -- a nested tuple in bare parentheses, or any value
  have helement : Gets (Datum.Readable levels) (element value nested) := by
    intro ls x rest hls h
    rw [element] at h
    split at h
    · exact hnested _ x rest (hls.drop 1) h
    · exact hvalue _ x rest hls h
  induction rounds generalizing entries with
  | zero => exact fun ls x rest _ h => by cases h
  | succ rounds ih =>
    intro ls x rest hls h
    rw [elements] at h
    split at h
    · obtain ⟨d, hd, hx⟩ := Option.map_eq_some_iff.mp h
      obtain ⟨rfl, rfl⟩ := Prod.mk.inj hx
      exact ⟨readable_build hkind hentries hd, hls.drop 1⟩
    · obtain ⟨⟨name, ls'⟩, hname, h⟩ := Option.bind_eq_some_iff.mp h
      obtain ⟨⟨d, ls''⟩, hd, h⟩ := Option.bind_eq_some_iff.mp h
      obtain ⟨hident, hls'⟩ := gets_name _ ls name ls' hls hname
      obtain ⟨hreadable, hls''⟩ := helement ls' d ls'' hls' hd
      -- the element joins those that were read
      have hmore : EntriesReadable levels (entries ++ [(name, d)]) := by
        intro e he
        rcases List.mem_append.mp he with he | he
        · exact hentries e he
        · rw [List.mem_singleton.mp he]
          exact ⟨hident, hreadable⟩
      dsimp only at h
      split at h
      · exact ih hmore _ x rest (hls''.drop 1) h
      · obtain ⟨d, hd, hx⟩ := Option.map_eq_some_iff.mp h
        obtain ⟨rfl, rfl⟩ := Prod.mk.inj hx
        exact ⟨readable_build hkind hmore hd, hls''.drop 1⟩
      · cases h

end Values

/-- Tuples that are read can be read back. -/
theorem gets_tuple (levels : Nat) : GetsTuples levels (tuple levels) := by
  induction levels with
  | zero => exact fun kind _ ls x rest _ h => by cases h
  | succ levels ih =>
    intro kind hkind ls x rest hls h
    have hnone : EntriesReadable levels [] := List.forall_mem_nil _
    exact gets_elements hkind (gets_value ih) (ih kind hkind) _ hnone ls x rest hls h

/-- The data that are read can be read back. -/
theorem gets_read (levels : Nat) : Gets (Datum.Readable levels) (read levels) :=
  gets_value (gets_tuple levels)

end Grammar

/-! ## Values and their text -/

/-- A cursor without lexemes ahead is at the end of input. -/
theorem Cursor.Regular.atEnd {c : Cursor} (hc : c.Regular) (h : c.lexemes = []) :
    c.atEnd = true := by
  rw [Cursor.atEnd, Cursor.current, hc.kind_peek, h]
  rfl

end TupleLang
