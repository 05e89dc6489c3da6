import TupleLang.Layout
import TupleLang.Proofs.LexingLiteral

/-!
# Lexing a layout

Pieces are laid out so that each of them is lexed on its own: words are kept apart by blanks or by
punctuation, and a mark is never written in front of a character that would make a longer mark of
it. The only pieces that grow together are the letter of a tuple or a type and the parenthesis
behind it.

Pieces are put in front of others one by one. What is known of the pieces behind is which lexemes
they spell, and that a word in front of them ends there.
-/

namespace TupleLang

open Lexer

/-! ## What a layout writes -/

namespace Layout

/-- What pieces add to a text that ends with `edge`. -/
def written (edge : Edge) (indent : Nat) (pieces : List Piece) : List Char :=
  (({ text := "", indent, last := edge } : Layout).addAll pieces).text.toList

/-- What is added to a text does not depend on the text. -/
theorem toList_text_addAll (l : Layout) (pieces : List Piece) :
    (l.addAll pieces).text.toList = l.text.toList ++ written l.last l.indent pieces := by
  induction pieces generalizing l with
  | nil => simp [written]
  | cons p pieces ih =>
    -- what is written depends on the layout only by its edge and its indentation
    have hself : written l.last l.indent (p :: pieces) =
        (({ text := "", indent := l.indent, last := l.last } : Layout).add p).text.toList ++
          written (l.add p).last (l.add p).indent pieces := by
      rw [written, addAll_cons, ih]
      cases p <;> rfl
    rw [addAll_cons, ih, hself, ← List.append_assoc]
    cases p <;> simp [add]

variable {edge : Edge} {indent : Nat} {pieces : List Piece} {text : String}

@[simp] theorem written_nil : written edge indent [] = [] := rfl

/-- A word stands behind the gap that it needs. -/
@[simp] theorem written_word :
    written edge indent (.word text :: pieces) =
      (gap edge.spacesWord).toList ++ (text.toList ++ written .word indent pieces) := by
  rw [written, addAll_cons, toList_text_addAll]
  simp [add]

/-- A punctuation mark stands behind the gap that it needs. -/
@[simp] theorem written_punct :
    written edge indent (.punct text :: pieces) =
      (gap (Edge.ofPunct text == .opening && edge.spacesOpening)).toList ++
        (text.toList ++ written (Edge.ofPunct text) indent pieces) := by
  rw [written, addAll_cons, toList_text_addAll]
  simp [add]

/-- An operator stands behind the gap that it needs. -/
@[simp] theorem written_operator :
    written edge indent (.operator text :: pieces) =
      (gap edge.spacesOperator).toList ++ (text.toList ++ written .operator indent pieces) := by
  rw [written, addAll_cons, toList_text_addAll]
  simp [add]

@[simp] theorem written_startBlock :
    written edge indent (.startBlock :: pieces) = written edge (indent + 1) pieces := rfl

@[simp] theorem written_endBlock :
    written edge indent (.endBlock :: pieces) = written edge (indent - 1) pieces := rfl

@[simp] theorem written_lineBreak :
    written edge indent (.lineBreak :: pieces) =
      '\n' :: (List.replicate (2 * indent) ' ' ++ written .lineStart indent pieces) := by
  rw [written, addAll_cons, toList_text_addAll]
  simp [add, newline]

/-- The text of a layout is what its pieces write. -/
theorem toList_render (pieces : List Piece) : (render pieces).toList =
    written .lineStart 0 pieces :=
  rfl

end Layout

open Layout

/-! ## Blanks -/

/-- Blanks in front of a text make no lexemes. -/
theorem Lexer.lexemes_blanks {bs : List Char} (hbs : ∀ c ∈ bs, isBlank c = true) (cs : List Char) :
    lexemes (bs ++ cs) = lexemes cs := by
  induction bs with
  | nil => rfl
  | cons c bs ih =>
    rw [List.cons_append, lexemes_blank (hbs c List.mem_cons_self)]
    exact ih fun d hd => hbs d (List.mem_cons_of_mem c hd)

/-- A gap adds no lexemes. -/
theorem Lexer.lexemes_gap (needed : Bool) (cs : List Char) :
    lexemes ((gap needed).toList ++ cs) = lexemes cs := by
  refine lexemes_blanks (fun c hc => ?_) cs
  cases needed with
  | false => exact absurd hc List.not_mem_nil
  | true =>
    rw [show (gap true).toList = [' '] from rfl, List.mem_singleton] at hc
    rw [hc]
    rfl

/-! ## Texts that are lexed on their own -/

/-- The text is lexed on its own wherever something stops behind it, and it makes no longer mark of
a mark in front of it. -/
structure Clear (w : String) : Prop where
  lexemes_append : ∀ rest, Stops rest → lexemes (w.toList ++ rest) =
    lexemes w.toList ++ lexemes rest
  head : ∃ c cs, w.toList = c :: cs ∧ c ∉ stopChars

/-- A text that is a single lexeme wherever something stops behind it is lexed on its own. -/
theorem Clear.of_longest {w : String} {kind : TokenKind}
    (hhead : ∃ c cs, w.toList = c :: cs ∧ c ∉ stopChars)
    (h : ∀ rest, Stops rest → longest (w.toList ++ rest) = (some kind, w.length)) :
    Clear w ∧ lexemes w.toList = [⟨kind, w⟩] := by
  have hne : w.toList ≠ [] := by
    obtain ⟨c, cs, hcs, -⟩ := hhead
    exact hcs ▸ List.cons_ne_nil c cs
  -- where the word stops nothing makes its match longer
  have hone : ∀ rest, Stops rest → lexemes (w.toList ++ rest) = ⟨kind, w⟩ :: lexemes rest := by
    intro rest hrest
    rw [Lexer.lexemes_append hne (by rw [h rest hrest, String.length_toList]), String.ofList_toList]
  have hself : lexemes w.toList = [⟨kind, w⟩] := by
    rw [← List.append_nil w.toList, hone [] front_nil, lexemes_nil]
  exact ⟨⟨fun rest hrest => by rw [hone rest hrest, hself]; rfl, hhead⟩, hself⟩

/-! ## Pieces and the lexemes that they spell -/

/-- The pieces spell the lexemes, wherever something stops behind them. -/
def Spells (pieces : List Piece) (ls : List Lexeme) : Prop :=
  ∀ edge indent rest, Stops rest → lexemes (written edge indent pieces ++ rest) = ls ++ lexemes rest

/-- A word in front of the pieces ends there. -/
def EndsWord (pieces : List Piece) : Prop :=
  ∀ indent rest, Stops rest → Stops (written .word indent pieces ++ rest)

namespace EndsWord

variable {pieces : List Piece}

/-- The end of the text ends a word. -/
protected theorem nil : EndsWord [] := fun _ _ h => h

/-- The end of a block is written as nothing. -/
theorem endBlock (h : EndsWord pieces) : EndsWord (.endBlock :: pieces) :=
  fun _ _ hrest => h _ _ hrest

/-- A line break ends a word. -/
theorem lineBreak : EndsWord (.lineBreak :: pieces) := by
  intro indent rest _
  rw [written_lineBreak, List.cons_append]
  exact front_cons.mpr (by decide)

/-- A mark of this kind ends a word. -/
theorem punct {p : String} (hp : p ∈ [")", ",", ";", "=", ":"]) :
    EndsWord (.punct p :: pieces) := by
  intro indent rest _
  have hall : ∀ p ∈ [")", ",", ";", "=", ":"], (Edge.ofPunct p == .opening) = false ∧
      ∃ c ∈ stopChars, p.toList = [c] := by decide
  obtain ⟨hedge, c, hc, htext⟩ := hall p hp
  rw [written_punct, hedge, htext]
  exact front_cons.mpr hc

end EndsWord

namespace Spells

variable {pieces : List Piece} {ls : List Lexeme}

/-- Nothing spells no lexemes. -/
protected theorem nil : Spells [] [] := fun _ _ _ _ => rfl

/-- The start of a block spells nothing. -/
theorem startBlock (h : Spells pieces ls) : Spells (.startBlock :: pieces) ls :=
  fun _ _ _ hrest => h _ _ _ hrest

/-- Nor does its end. -/
theorem endBlock (h : Spells pieces ls) : Spells (.endBlock :: pieces) ls :=
  fun _ _ _ hrest => h _ _ _ hrest

/-- Nor does a line break. -/
theorem lineBreak (h : Spells pieces ls) : Spells (.lineBreak :: pieces) ls := by
  intro edge indent rest hrest
  rw [written_lineBreak, List.cons_append, lexemes_blank (by decide), List.append_assoc,
    lexemes_blanks (by simp [isBlank])]
  exact h _ _ _ hrest

/-- A word spells its lexemes where it ends. -/
theorem word {w : String} (hw : Clear w) (hends : EndsWord pieces) (h : Spells pieces ls) :
    Spells (.word w :: pieces) (lexemes w.toList ++ ls) := by
  intro edge indent rest hrest
  rw [written_word, List.append_assoc, lexemes_gap, List.append_assoc,
    hw.lexemes_append _ (hends _ _ hrest), h _ _ _ hrest, List.append_assoc]

/-- A mark spells itself where nothing makes a longer one of it. -/
theorem mark {p : String} {kind : TokenKind} (hmem : (p, kind) ∈ spellings)
    (hhead : ∃ c ∈ symbolHeads, p.toList.head? = some c)
    (hnext : ∀ indent rest, Stops rest →
      Front (· ∉ extensions p) (written (Edge.ofPunct p) indent pieces ++ rest))
    (h : Spells pieces ls) : Spells (.punct p :: pieces) (⟨kind, p⟩ :: ls) := by
  intro edge indent rest hrest
  have hne : p.toList ≠ [] := by
    obtain ⟨c, -, hc⟩ := hhead
    intro hnil
    simp [hnil] at hc
  rw [written_punct, List.append_assoc, lexemes_gap, List.append_assoc, Lexer.lexemes_append hne
    (by rw [longest_symbol hmem hhead (hnext _ _ hrest), String.length_toList]), h _ _ _ hrest,
    String.ofList_toList]
  rfl

/-- Parentheses, commas and the like spell themselves. -/
theorem punct {p : String} {kind : TokenKind}
    (hp : (p, kind) ∈ [("(", TokenKind.lparen), (")", .rparen), (",", .comma), (";", .semicolon),
      (":", .symbol)]) (h : Spells pieces ls) : Spells (.punct p :: pieces) (⟨kind, p⟩ :: ls) := by
  have hall : ∀ q ∈ [("(", TokenKind.lparen), (")", .rparen), (",", .comma), (";", .semicolon),
      (":", .symbol)], q ∈ spellings ∧ (∃ c ∈ symbolHeads, q.1.toList.head? = some c) ∧
        extensions q.1 = [] := by decide
  obtain ⟨hmem, hhead, hext⟩ := hall _ hp
  refine mark hmem hhead (fun _ _ _ c _ => ?_) h
  rw [show extensions p = [] from hext]
  exact List.not_mem_nil

/-- The sign between a name and what it stands for spells itself in front of a word. -/
theorem equals_word {w : String} (hw : Clear w) (h : Spells (.word w :: pieces) ls) :
    Spells (.punct "=" :: .word w :: pieces) (⟨.symbol, "="⟩ :: ls) := by
  refine mark (by decide) (by decide) (fun indent rest _ => ?_) h
  obtain ⟨c, cs, hcs, hc⟩ := hw.head
  rw [show Edge.ofPunct "=" = .attached from rfl, written_word, hcs]
  refine front_cons.mpr ?_
  rw [show extensions "=" = ['='] by decide, List.mem_singleton]
  rintro rfl
  exact hc (by decide)

/-- The sign between a name and what it stands for spells itself in front of a parenthesis. -/
theorem equals_paren (h : Spells (.punct "(" :: pieces) ls) :
    Spells (.punct "=" :: .punct "(" :: pieces) (⟨.symbol, "="⟩ :: ls) := by
  refine mark (by decide) (by decide) (fun indent rest _ => ?_) h
  rw [show Edge.ofPunct "=" = .attached from rfl, written_punct]
  exact front_cons.mpr (by decide)

/-- The letter of a tuple or a type and its parenthesis are one lexeme. -/
theorem opening {c : Char} {kind : TokenKind} (hc : c ∈ ['P', 'D', 'E', 'T'])
    (hmem : (String.ofList [c, '('], kind) ∈ spellings) (h : Spells pieces ls) :
    Spells (.word (String.ofList [c]) :: .punct "(" :: pieces)
      (⟨kind, String.ofList [c, '(']⟩ :: ls) := by
  intro edge indent rest hrest
  rw [written_word, List.append_assoc, lexemes_gap, written_punct,
    show (Edge.ofPunct "(" == .opening && Edge.word.spacesOpening) = false from rfl,
    show Edge.ofPunct "(" = .opening from rfl]
  -- the letter and the parenthesis are one token
  have hrun := longest_opening hc hmem (written .opening indent pieces ++ rest)
  have hlex : lexemes ([c, '('] ++ (written .opening indent pieces ++ rest)) = _ :=
    Lexer.lexemes_append (by simp) hrun
  rw [h _ _ _ hrest] at hlex
  simpa [gap] using hlex

/-- The lexemes of a layout are those that its pieces spell. -/
theorem lexemes_render (h : Spells pieces ls) {rest : List Char} (hrest : Stops rest) :
    lexemes ((render pieces).toList ++ rest) = ls ++ lexemes rest := by
  rw [toList_render]
  exact h _ _ _ hrest

end Spells

/-! ## Pieces in front of others -/

/-- The pieces spell the lexemes in front of all pieces where a word ends. -/
def Writes (pieces : List Piece) (ls : List Lexeme) : Prop :=
  ∀ others ks, EndsWord others → Spells others ks → Spells (pieces ++ others) (ls ++ ks)

namespace Writes

variable {pieces : List Piece} {ls : List Lexeme}

/-- Nothing is written as no lexemes. -/
protected theorem nil : Writes [] [] := fun _ _ _ h => h

/-- A clear word is written as its own lexemes. -/
protected theorem word {w : String} (hw : Clear w) : Writes [.word w] (lexemes w.toList) :=
  fun _ _ hends h => Spells.word hw hends h

/-- A word ends in front of nothing. -/
protected theorem spells (h : Writes pieces ls) : Spells pieces ls := by
  simpa using h [] [] EndsWord.nil Spells.nil

end Writes

end TupleLang
