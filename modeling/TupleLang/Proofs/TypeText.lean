import TupleLang.Proofs.ScalarText

/-!
# Text of types

What is written for a type descriptor is read back as the descriptor, as long as its names are
identifiers and it is not nested deeper than the reader goes. All descriptors that are read from a
text are of this sort.
-/

namespace TupleLang

open Lexer

/-! ## Names -/

namespace Grammar

/-- Lexemes of a name and the sign behind it. -/
def nameLexemes (sign : String) : Option String → List Lexeme
  | none => []
  | some name => [⟨.ident, name⟩, ⟨.symbol, sign⟩]

/-- Lexemes of an element: something stands there, and it is no name with a sign behind it. -/
def Heads (ls : List Lexeme) : Prop :=
  ∃ l others, ls = l :: others ∧ l.kind ≠ .rparen ∧ (l.kind = .ident → others = [])

/-- The lexeme that ends an element. -/
def closes (last : Bool) : Lexeme := if last then ⟨.rparen, ")"⟩ else ⟨.comma, ","⟩

@[simp] theorem text_closes (last : Bool) : (closes last).text = if last then ")" else "," := by
  cases last <;> rfl

/-- What stands at the head of something is not empty. -/
theorem Heads.length_pos {ls : List Lexeme} (h : Heads ls) : 0 < ls.length := by
  obtain ⟨l, others, rfl, -⟩ := h
  exact Nat.succ_pos _

/-- The name in front of an element is found. -/
theorem name_append {signs : List String} {sign : String} (hsign : sign ∈ signs)
    {ls : List Lexeme} (hls : Heads ls) (name : Option String) (last : Bool) (rest : List Lexeme) :
    Grammar.name signs (nameLexemes sign name ++ (ls ++ closes last :: rest)) =
      some (name, ls ++ closes last :: rest) := by
  cases name with
  | some name =>
    have hany : signs.any (Lexeme.isWord ⟨.symbol, sign⟩) = true :=
      List.any_eq_true.mpr ⟨sign, hsign, by simp [Lexeme.isWord]⟩
    simp [Grammar.name, nameLexemes, hany]
  | none =>
    obtain ⟨l, others, rfl, -, hident⟩ := hls
    have hnot : ¬((ahead (l :: others ++ closes last :: rest) 0).kind = .ident ∧
        signs.any (ahead (l :: others ++ closes last :: rest) 1).isWord = true) := by
      rintro ⟨hkind, hany⟩
      rw [hident hkind] at hany
      cases last <;> simp [closes, Lexeme.isWord] at hany
    rw [nameLexemes, List.nil_append, Grammar.name, if_neg hnot]

/-- A name and a head behind it do not begin with a closing parenthesis. -/
theorem head_append {sign : String} {ls : List Lexeme} (hls : Heads ls) (name : Option String)
    (rest : List Lexeme) : (ahead (nameLexemes sign name ++ (ls ++ rest)) 0).kind ≠ .rparen := by
  cases name with
  | some name => simp [nameLexemes]
  | none =>
    obtain ⟨l, others, rfl, hkind, -⟩ := hls
    exact hkind

end Grammar

/-! ## Descriptors that can be read -/

namespace TypeDesc

/-- What a leaf may be called: identifiers, and `void`. -/
def IsLeafName (s : String) : Prop := IsIdent s ∨ s = "void"

/-- Descriptors with readable names that are nested no deeper than so many levels. -/
inductive Readable : Nat → TypeDesc → Prop
  | leaf {levels : Nat} {name : String} : IsLeafName name → Readable levels (.leaf name)
  | tree {levels : Nat} {fields : List Field} :
      (∀ f ∈ fields, ∀ name, f.1 = some name → IsIdent name) →
      (∀ f ∈ fields, Readable levels f.2) → Readable (levels + 1) (.tree fields)

/-- What can be read within some levels can be read within one more. -/
theorem Readable.succ {levels : Nat} {t : TypeDesc} (h : t.Readable levels) :
    t.Readable (levels + 1) := by
  induction h with
  | leaf hname => exact .leaf hname
  | tree hnames _ ih => exact .tree hnames ih

namespace IsLeafName

variable {s : String}

/-- The name of a leaf is lexed on its own, as a single lexeme. -/
theorem clear (h : IsLeafName s) :
    ∃ kind ∈ [TokenKind.ident, .voidWord], Clear s ∧ lexemes s.toList = [⟨kind, s⟩] := by
  rcases h with h | rfl
  · exact ⟨.ident, by decide, h.clear⟩
  · exact ⟨.voidWord, by decide, clear_void⟩

end IsLeafName

/-! ## Writing and reading -/

/-- The lexemes are what is written for a type inside another one, and are read as the type. -/
structure Echoes (levels : Nat) (t : TypeDesc) (ls : List Lexeme) : Prop where
  writes : Writes t.innerPieces ls
  heads : Grammar.Heads ls
  reads : ∀ rest, Grammar.typeElement (Grammar.typeBody levels) (ls ++ rest) = some (t, rest)

/-- The name of a leaf is read as the leaf. -/
theorem echoes_leaf {levels : Nat} {name : String} (h : IsLeafName name) :
    Echoes levels (.leaf name) (lexemes name.toList) := by
  obtain ⟨kind, hkind, hclear, heq⟩ := h.clear
  rw [List.mem_pair] at hkind
  refine ⟨?_, ?_, fun rest => ?_⟩
  · rw [innerPieces]
    exact Writes.word hclear
  · rw [heq]
    refine ⟨_, [], rfl, ?_, fun _ => rfl⟩
    rcases hkind with rfl | rfl <;> simp
  · rw [heq]
    rcases hkind with rfl | rfl <;> rfl

section Fields

variable {levels : Nat} {name : Option String} {t : TypeDesc} {ls : List Lexeme}

/-- A named type is written with its name. -/
theorem writes_field (hname : ∀ n, name = some n → IsIdent n) (ht : t.Readable levels)
    (h : Writes t.innerPieces ls) :
    Writes (namePieces name ++ t.innerPieces) (Grammar.nameLexemes "=" name ++ ls) := by
  cases name with
  | none => exact h
  | some name =>
    have hident := hname name rfl
    intro others ks hends hspells
    have hinner := h others ks hends hspells
    have hsign :
      Spells (.punct "=" :: (t.innerPieces ++ others)) (⟨.symbol, "="⟩ :: (ls ++ ks)) := by
      cases ht with
      | leaf hleaf =>
        obtain ⟨_, -, hclear, -⟩ := hleaf.clear
        exact Spells.equals_word hclear hinner
      | tree => exact Spells.equals_paren hinner
    have hends' : EndsWord (.punct "=" :: (t.innerPieces ++ others)) := EndsWord.punct (by decide)
    have hword := Spells.word hident.clear.1 hends' hsign
    rw [hident.clear.2] at hword
    simpa [namePieces, Grammar.nameLexemes] using hword

/-- One element of a type is read, and the others behind it. -/
theorem typeElements_field (name : Option String) (h : Echoes levels t ls) (rounds : Nat)
    (done : List Field) (comma last : Bool) (rest : List Lexeme) :
    Grammar.typeElements (Grammar.typeBody levels) (rounds + 1) done comma
        (Grammar.nameLexemes "=" name ++ (ls ++ Grammar.closes last :: rest)) =
      if last then some (TypeReader.close (done ++ [(name, t)]) false, rest)
      else Grammar.typeElements (Grammar.typeBody levels) rounds (done ++ [(name, t)])
        true rest := by
  rw [Grammar.typeElements, if_neg (Grammar.head_append h.heads name _),
    Grammar.name_append (by simp) h.heads name last rest, Option.bind_some, h.reads,
      Option.bind_some]
  cases last <;> rfl

end Fields

/-! ## Trees -/

section Trees

variable {levels : Nat} {fields : List Field}

theorem fieldPieces_cons (f : Field) (fields : List Field) :
    fieldPieces (f :: fields) = namePieces f.1 ++ f.2.innerPieces ++
      if fields = [] then [] else .punct "," :: fieldPieces fields := by
  obtain ⟨name, t⟩ := f
  cases fields with
  | nil => simp [fieldPieces]
  | cons g fields => simp [fieldPieces]

/-- An element is written in front of the punctuation that ends it. -/
theorem writes_closes {pieces others : List Piece} {ls ks : List Lexeme} (h : Writes pieces ls)
    (hothers : Writes others ks) (last : Bool) :
    Writes (pieces ++ .punct (Grammar.closes last).text :: others)
    (ls ++ Grammar.closes last :: ks) := by
  intro behind js hends hspells
  have hrest := hothers behind js hends hspells
  rw [List.append_assoc, List.append_assoc]
  refine h _ _ ?_ ?_
  · cases last <;> exact EndsWord.punct (by decide)
  · cases last <;> exact Spells.punct (by decide) hrest

/-- What is written for the children of a tree and the parenthesis behind them is read as the
children. -/
theorem exists_fields (hnames : ∀ f ∈ fields, ∀ name, f.1 = some name → IsIdent name)
    (hreadable : ∀ f ∈ fields, f.2.Readable levels)
    (hechoes : ∀ f ∈ fields, ∃ ls, Echoes levels f.2 ls) :
    ∃ ls, fields.length < ls.length ∧ Writes (fieldPieces fields ++ [.punct ")"]) ls ∧
      ∀ (done : List Field) (comma : Bool) (rounds : Nat) (rest : List Lexeme),
        fields.length < rounds →
          Grammar.typeElements (Grammar.typeBody levels) rounds done comma (ls ++ rest) =
            some (TypeReader.close (done ++ fields) (comma && fields.isEmpty), rest) := by
  induction fields with
  | nil =>
    refine ⟨[Grammar.closes true], Nat.one_pos, writes_closes Writes.nil Writes.nil true, ?_⟩
    intro done comma rounds rest hrounds
    obtain ⟨rounds, rfl⟩ : ∃ n, rounds = n + 1 := ⟨rounds - 1, by simp at hrounds; omega⟩
    simp [Grammar.typeElements, Grammar.closes]
  | cons f fields ih =>
    obtain ⟨ls, hls⟩ := hechoes f List.mem_cons_self
    have hfield :=
      writes_field (hnames f List.mem_cons_self) (hreadable f List.mem_cons_self) hls.writes
    -- the fields that are left, up to the closing parenthesis
    obtain ⟨tail, hlength, hwrites, hreads⟩ := ih
      (fun g hg => hnames g (List.mem_cons_of_mem f hg))
      (fun g hg => hreadable g (List.mem_cons_of_mem f hg))
      fun g hg => hechoes g (List.mem_cons_of_mem f hg)
    -- a lone field has a comma behind it
    cases fields with
    | nil =>
      refine ⟨_, ?_, by simpa [fieldPieces_cons] using writes_closes hfield Writes.nil true, ?_⟩
      · have hpos := hls.heads.length_pos
        simp
        omega
      · intro done comma rounds rest hrounds
        obtain ⟨rounds, rfl⟩ : ∃ n, rounds = n + 1 := ⟨rounds - 1, by simp at hrounds; omega⟩
        have hstep := typeElements_field f.1 hls rounds done comma true rest
        simpa using hstep
    | cons g fields =>
      refine ⟨_, ?_, by simpa [fieldPieces_cons] using writes_closes hfield hwrites false, ?_⟩
      · simp at hlength ⊢
        omega
      · intro done comma rounds rest hrounds
        obtain ⟨rounds, rfl⟩ : ∃ n, rounds = n + 1 := ⟨rounds - 1, by simp at hrounds; omega⟩
        have hstep := typeElements_field f.1 hls rounds done comma false (tail ++ rest)
        simpa [hreads _ _ rounds rest (by simp at hrounds ⊢; omega)] using hstep

/-- What is written for the children of a tree, with the comma behind a lone one, is read as the
tree. -/
theorem exists_body (hnames : ∀ f ∈ fields, ∀ name, f.1 = some name → IsIdent name)
    (hreadable : ∀ f ∈ fields, f.2.Readable levels)
    (hechoes : ∀ f ∈ fields, ∃ ls, Echoes levels f.2 ls) :
    ∃ ls, Writes (fieldPieces fields ++ loneComma fields ++ [.punct ")"]) ls ∧
      ∀ rest, Grammar.typeBody (levels + 1) (ls ++ rest) = some (.tree fields, rest) := by
  by_cases hlone : ∃ t, fields = [(none, t)]
  · -- the comma has the reader go on, find nothing and close a tree
    obtain ⟨t, rfl⟩ := hlone
    obtain ⟨ls, hls⟩ := hechoes (none, t) List.mem_cons_self
    have hwrites := writes_closes hls.writes (writes_closes Writes.nil Writes.nil true) false
    refine ⟨_, by simpa [fieldPieces, loneComma, namePieces] using hwrites, fun rest => ?_⟩
    have hstep := typeElements_field none hls (ls.length + rest.length + 2) [] false false
      (Grammar.closes true :: rest)
    have hlast : Grammar.typeElements (Grammar.typeBody levels) (ls.length + rest.length + 2)
        [(none, t)] true (Grammar.closes true :: rest) = some (.tree [(none, t)], rest) := by
      simp [Grammar.typeElements, Grammar.closes, TypeReader.close]
    have hlength : (ls ++ [Grammar.closes false, Grammar.closes true] ++ rest).length + 1 =
        ls.length + rest.length + 2 + 1 := by
      simp
      omega
    rw [Grammar.typeBody, hlength, List.append_assoc]
    exact hstep.trans hlast
  · have hnot : loneComma fields = [] := by
      unfold loneComma
      split
      · rename_i t
        exact absurd ⟨t, rfl⟩ hlone
      · rfl
    obtain ⟨ls, hlength, hwrites, hreads⟩ := exists_fields hnames hreadable hechoes
    refine ⟨ls, by simpa [hnot] using hwrites, fun rest => ?_⟩
    rw [Grammar.typeBody, hreads [] false _ rest (by simp; omega), List.nil_append, Bool.false_and]
    unfold TypeReader.close
    split
    · rename_i t _
      exact absurd ⟨t, rfl⟩ hlone
    · rfl

/-- What is written for a type inside another one is read back. -/
theorem Readable.echoes {t : TypeDesc} (h : t.Readable levels) : ∃ ls, Echoes levels t ls := by
  induction h with
  | leaf hname => exact ⟨_, echoes_leaf hname⟩
  | @tree levels fields hnames hreadable ih =>
    obtain ⟨ls, hwrites, hreads⟩ := exists_body hnames hreadable ih
    refine ⟨⟨.lparen, "("⟩ :: ls, ?_, ⟨_, _, rfl, by simp, by simp⟩, fun rest => hreads rest⟩
    intro others ks hends hspells
    rw [innerPieces]
    exact Spells.punct (by decide) (hwrites others ks hends hspells)

end Trees

/-- What is written for a type on its own, behind the letter. -/
theorem Readable.exists_pieces {levels : Nat} {t : TypeDesc} (h : t.Readable levels)
    (hlevels : 0 < levels) :
    ∃ pieces ls, t.pieces = .word "T" :: .punct "(" :: pieces ∧ Writes pieces ls ∧
      ∀ rest, Grammar.typeBody levels (ls ++ rest) = some (t, rest) := by
  cases h with
  | @leaf _ name hname =>
    obtain ⟨levels, rfl⟩ := Nat.exists_eq_add_one.mpr hlevels
    have hleaf : Echoes levels (.leaf name) (lexemes name.toList) := echoes_leaf hname
    refine ⟨_, lexemes name.toList ++ [Grammar.closes true], rfl,
      writes_closes hleaf.writes Writes.nil true, fun rest => ?_⟩
    have hstep := typeElements_field none hleaf
      (lexemes name.toList ++ Grammar.closes true :: rest).length [] false true rest
    rw [Grammar.typeBody, List.append_assoc]
    exact hstep
  | @tree levels fields hnames hreadable =>
    obtain ⟨ls, hwrites, hreads⟩ := exists_body hnames hreadable fun f hf => (hreadable f hf).echoes
    exact ⟨_, ls, rfl, hwrites, hreads⟩

/-- The text of a type is read back as the type. -/
theorem Readable.legible {levels : Nat} {t : TypeDesc} (h : t.Readable levels)
    (hlevels : 0 < levels)
    {forms : TextForms} :
    Legible levels (Datum.scalarText forms "type" (.type t)) (.scalar "type" (.type t)) := by
  obtain ⟨pieces, ls, hpieces, hwrites, hreads⟩ := h.exists_pieces hlevels
  have htext : Datum.scalarText forms "type" (.type t) = Layout.render t.pieces := by
    rw [Datum.scalarText_eq rfl]
    simp [Value.plainText, text]
  have hspells : Spells t.pieces (⟨.typeOpen, "T("⟩ :: ls) := by
    rw [hpieces]
    exact Spells.opening (c := 'T') (by decide) (by decide) hwrites.spells
  have hlexemes : lexemes (Layout.render t.pieces).toList = ⟨.typeOpen, "T("⟩ :: ls := by
    simpa using hspells.lexemes_render front_nil
  rw [htext]
  refine ⟨⟨fun rest hrest => ?_, ?_⟩, ?_⟩
  · rw [hspells.lexemes_render hrest, hlexemes]
  · rw [Layout.toList_render, hpieces, Layout.written_word]
    exact ⟨'T', _, rfl, by decide⟩
  · rw [hlexemes]
    refine ⟨fun tuple rest => ?_, ⟨_, _, rfl, by decide, by simp⟩, by simp⟩
    have hvalue : Grammar.value levels tuple (⟨.typeOpen, "T("⟩ :: (ls ++ rest)) =
        (Grammar.typeBody levels (ls ++ rest)).map fun t => (.scalar "type" (.type t.1), t.2) := rfl
    rw [List.cons_append, hvalue, hreads]
    rfl

end TypeDesc

/-! ## What is read can be written -/

/-- All lexemes are of the form of their kind, as those of a text are. -/
def AllFit (ls : List Lexeme) : Prop := ∀ l ∈ ls, Fits l

/-- What is left of fitting lexemes fits. -/
theorem AllFit.drop {ls : List Lexeme} (h : AllFit ls) (n : Nat) : AllFit (ls.drop n) :=
  fun l hl => h l (List.mem_of_mem_drop hl)

theorem fits_eof : Fits Lexeme.eof where
  spelling h := absurd h (by decide)
  ident h := absurd h (by decide)
  sigil h := absurd h (by decide)
  path h := absurd h (by decide)
  number h := absurd h (by decide)

/-- A lexeme ahead fits. -/
theorem AllFit.ahead {ls : List Lexeme} (h : AllFit ls) (n : Nat) : Fits (Grammar.ahead ls n) := by
  rw [Grammar.ahead]
  cases hl : ls[n]? with
  | none => exact fits_eof
  | some l => exact h l (List.mem_of_getElem? hl)

namespace Grammar

/-- A reader gives results with a property, and leaves lexemes of the form of their kind. -/
def Gets {α : Type} (P : α → Prop) (scan : Scan α) : Prop :=
  ∀ ls x rest, AllFit ls → scan ls = some (x, rest) → P x ∧ AllFit rest

/-- Names that are read are identifiers. -/
theorem gets_name (signs : List String) :
    Gets (fun name : Option String => ∀ n, name = some n → IsIdent n) (name signs) := by
  intro ls x rest hls h
  rw [name] at h
  split at h
  · rename_i hname
    obtain ⟨rfl, rfl⟩ := Prod.mk.inj (Option.some.inj h)
    refine ⟨fun n hn => ?_, hls.drop 2⟩
    rw [← Option.some.inj hn]
    exact (hls.ahead 0).ident hname.1
  · obtain ⟨rfl, rfl⟩ := Prod.mk.inj (Option.some.inj h)
    exact ⟨fun n hn => (nomatch hn), hls⟩

section Types

variable {levels : Nat} {nested : Scan TypeDesc}

/-- A lexeme with the word `void` is spelled like that. -/
theorem text_voidWord {l : Lexeme} (h : Fits l) (hkind : l.kind = .voidWord) : l.text = "void" := by
  have hmem := h.spelling (by rw [hkind]; decide)
  have hall : ∀ q ∈ spellings, q.2 = .voidWord → q.1 = "void" := by decide
  exact hall _ hmem hkind

theorem gets_typeElement (hnested : Gets (TypeDesc.Readable levels) nested) :
    Gets (TypeDesc.Readable levels) (typeElement nested) := by
  intro ls x rest hls h
  rw [typeElement] at h
  split at h
  · exact hnested _ x rest (hls.drop 1) h
  · exact hnested _ x rest (hls.drop 1) h
  · rename_i hkind
    obtain ⟨rfl, rfl⟩ := Prod.mk.inj (Option.some.inj h)
    exact ⟨.leaf (.inl ((hls.ahead 0).ident hkind)), hls.drop 1⟩
  · rename_i hkind
    obtain ⟨rfl, rfl⟩ := Prod.mk.inj (Option.some.inj h)
    exact ⟨.leaf (.inr (text_voidWord (hls.ahead 0) hkind)), hls.drop 1⟩
  · cases h

/-- Children of a tree that can be read. -/
def FieldsReadable (levels : Nat) (fields : List TypeDesc.Field) : Prop :=
  ∀ f ∈ fields, (∀ name, f.1 = some name → IsIdent name) ∧ f.2.Readable levels

theorem readable_close {fields : List TypeDesc.Field} (h : FieldsReadable levels fields)
    (comma : Bool) : (TypeReader.close fields comma).Readable (levels + 1) := by
  unfold TypeReader.close
  split
  · exact (h _ List.mem_cons_self).2.succ
  · exact .tree (fun f hf => (h f hf).1) fun f hf => (h f hf).2

theorem gets_typeElements (hnested : Gets (TypeDesc.Readable levels) nested) (rounds : Nat)
    {fields : List TypeDesc.Field} (hfields : FieldsReadable levels fields) (comma : Bool) :
    Gets (TypeDesc.Readable (levels + 1)) (typeElements nested rounds fields comma) := by
  induction rounds generalizing fields comma with
  | zero => exact fun ls x rest _ h => by cases h
  | succ rounds ih =>
    intro ls x rest hls h
    rw [typeElements] at h
    split at h
    · obtain ⟨rfl, rfl⟩ := Prod.mk.inj (Option.some.inj h)
      exact ⟨readable_close hfields comma, hls.drop 1⟩
    · obtain ⟨⟨name, ls'⟩, hname, h⟩ := Option.bind_eq_some_iff.mp h
      obtain ⟨⟨type, ls''⟩, htype, h⟩ := Option.bind_eq_some_iff.mp h
      obtain ⟨hident, hls'⟩ := gets_name _ ls name ls' hls hname
      obtain ⟨hreadable, hls''⟩ := gets_typeElement hnested ls' type ls'' hls' htype
      have hmore : FieldsReadable levels (fields ++ [(name, type)]) := by
        intro f hf
        rcases List.mem_append.mp hf with hf | hf
        · exact hfields f hf
        · rw [List.mem_singleton.mp hf]
          exact ⟨hident, hreadable⟩
      dsimp only at h
      split at h
      · exact ih hmore true _ x rest (hls''.drop 1) h
      · obtain ⟨rfl, rfl⟩ := Prod.mk.inj (Option.some.inj h)
        exact ⟨readable_close hmore false, hls''.drop 1⟩
      · cases h

end Types

/-- The types that are read can be read back. -/
theorem gets_typeBody (levels : Nat) :
    Gets (fun t : TypeDesc => t.Readable levels ∧ 0 < levels) (typeBody levels) := by
  induction levels with
  | zero => exact fun ls x rest _ h => by cases h
  | succ levels ih =>
    intro ls x rest hls h
    have hnested : Gets (TypeDesc.Readable levels) (typeBody levels) := fun ls x rest hls h =>
      ⟨(ih ls x rest hls h).1.1, (ih ls x rest hls h).2⟩
    have hnone : FieldsReadable levels [] := List.forall_mem_nil _
    obtain ⟨hreadable, hrest⟩ := gets_typeElements hnested _ hnone false ls x rest hls h
    exact ⟨⟨hreadable, Nat.succ_pos levels⟩, hrest⟩

end Grammar

end TupleLang
