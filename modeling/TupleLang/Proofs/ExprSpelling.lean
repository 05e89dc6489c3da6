import TupleLang.Proofs.ScalarText

/-!
# Lexing the layout of expressions

Operators are written with blanks around them, groups and calls with parentheses. The name of a
function grows together with the parenthesis behind it only if it is the letter of a tuple or a
type.
-/

namespace TupleLang

open Lexer Layout

/-! ## Operators -/

/-- The text spells the lexemes in front of a blank. -/
def Spaced (o : String) (ls : List Lexeme) : Prop :=
  ∀ rest, lexemes (o.toList ++ ' ' :: rest) = ls ++ lexemes rest

theorem stops_blank (rest : List Char) : Stops (' ' :: rest) := front_cons.mpr (by decide)

/-- A clear word may stand between blanks. -/
theorem Clear.spaced {w : String} (hw : Clear w) : Spaced w (lexemes w.toList) := by
  intro rest
  rw [hw.lexemes_append _ (stops_blank rest), lexemes_blank (by decide)]

/-- A symbol may stand between blanks. -/
theorem spaced_symbol {o : String} (ho : o ∈ symbols) : Spaced o [⟨.symbol, o⟩] := by
  -- no spelling goes on with a blank
  have hall : ∀ o ∈ symbols, (o, TokenKind.symbol) ∈ spellings ∧
      (∃ c ∈ symbolHeads, o.toList.head? = some c) ∧ ' ' ∉ extensions o := by decide
  obtain ⟨hmem, hhead, hblank⟩ := hall o ho
  have hne : o.toList ≠ [] := by
    obtain ⟨c, -, hc⟩ := hhead
    intro hnil
    simp [hnil] at hc
  intro rest
  have hmatch : longest (o.toList ++ ' ' :: rest) = (some .symbol, o.length) :=
    longest_symbol hmem hhead (front_cons.mpr hblank)
  rw [← String.length_toList] at hmatch
  rw [Lexer.lexemes_append hne hmatch, lexemes_blank (by decide), String.ofList_toList]
  rfl

/-- A keyword is a clear word. -/
theorem clear_keyword {o : String} (ho : o ∈ keywords) :
    Clear o ∧ lexemes o.toList = [⟨.keyword, o⟩] := by
  have hall : ∀ o ∈ keywords, (o, TokenKind.keyword) ∈ spellings ∧
      (∀ c ∈ o.toList.take 1, isWordStart c = true) ∧ (∀ c ∈ o.toList, isWordPart c = true) ∧
        o.toList ≠ [] := by decide
  obtain ⟨hmem, hstart, hparts, hne⟩ := hall o ho
  refine clear_reserved hmem ?_
  cases hcs : o.toList with
  | nil => exact absurd hcs hne
  | cons c cs =>
    rw [hcs] at hstart hparts
    exact ⟨c, cs, rfl, hstart c (by simp), fun d hd => hparts d (List.mem_cons_of_mem c hd)⟩

/-- A keyword may stand between blanks. -/
theorem spaced_keyword {o : String} (ho : o ∈ keywords) : Spaced o [⟨.keyword, o⟩] := by
  have hspaced := (clear_keyword ho).1.spaced
  rwa [(clear_keyword ho).2] at hspaced

/-- So may the two keywords of a type test that is denied. -/
theorem spaced_isNot : Spaced "is not" [⟨.keyword, "is"⟩, ⟨.keyword, "not"⟩] := by
  intro rest
  have his : Spaced "is" [⟨.keyword, "is"⟩] := spaced_keyword (by decide)
  have hnot : Spaced "not" [⟨.keyword, "not"⟩] := spaced_keyword (by decide)
  have hboth := his ("not".toList ++ ' ' :: rest)
  rw [hnot rest] at hboth
  exact hboth

/-- The pieces stand apart from an operator in front of them. -/
def Detached (pieces : List Piece) : Prop :=
  ∃ p ps, pieces = p :: ps ∧ (p = .punct "(" ∨ ∃ w, p = .word w)

/-- Pieces are detached if the first of them are. -/
theorem Detached.append {pieces : List Piece} (h : Detached pieces) (others : List Piece) :
    Detached (pieces ++ others) := by
  obtain ⟨p, ps, rfl, hp⟩ := h
  exact ⟨p, ps ++ others, rfl, hp⟩

/-- What is detached is written behind a blank. -/
theorem Detached.written {pieces : List Piece} (h : Detached pieces) (indent : Nat) :
    ∃ cs, Layout.written .operator indent pieces = ' ' :: cs := by
  obtain ⟨p, ps, rfl, rfl | ⟨w, rfl⟩⟩ := h
  · exact ⟨_, written_punct⟩
  · exact ⟨_, written_word⟩

/-- An operator spells its lexemes in front of what stands apart from it. -/
theorem Spells.operator {o : String} {os : List Lexeme} (ho : Spaced o os) {pieces : List Piece}
    (hpieces : Detached pieces) {ls : List Lexeme} (h : Spells pieces ls) :
    Spells (.operator o :: pieces) (os ++ ls) := by
  intro edge indent rest hrest
  have hbehind := h .operator indent rest hrest
  obtain ⟨cs, hcs⟩ := hpieces.written indent
  rw [hcs, List.cons_append, lexemes_blank (by decide)] at hbehind
  rw [written_operator, List.append_assoc, lexemes_gap, hcs, List.append_assoc,
    List.cons_append, ho, hbehind, List.append_assoc]

theorem EndsWord.operator {o : String} {pieces : List Piece} :
    EndsWord (.operator o :: pieces) := by
  intro indent rest _
  rw [written_operator]
  exact stops_blank _

/-! ## Pieces in front of others -/

namespace Writes

variable {pieces others : List Piece} {ls ks : List Lexeme}

/-- An operator in front of its operand. -/
theorem operator {o : String} {os : List Lexeme} (ho : Spaced o os) (hpieces : Detached pieces)
    (h : Writes pieces ls) : Writes (.operator o :: pieces) (os ++ ls) := by
  intro behind ks hends hspells
  rw [List.append_assoc]
  exact Spells.operator ho (hpieces.append behind) (h behind ks hends hspells)

/-- An operand in front of an operator. -/
theorem append_operator {o : String} (h : Writes pieces ls)
    (hothers : Writes (.operator o :: others) ks) :
    Writes (pieces ++ .operator o :: others) (ls ++ ks) := by
  intro behind ms hends hspells
  rw [List.append_assoc, List.append_assoc]
  exact h _ _ EndsWord.operator (hothers behind ms hends hspells)

/-- Something in front of a mark. -/
theorem append_punct {p : String} {kind : TokenKind}
    (hp : (p, kind) ∈ [(",", .comma), (";", .semicolon)])
    (h : Writes pieces ls) (hothers : Writes others ks) :
    Writes (pieces ++ .punct p :: others) (ls ++ ⟨kind, p⟩ :: ks) := by
  have hall : ∀ q ∈ [(",", TokenKind.comma), (";", .semicolon)], q ∈ [("(", TokenKind.lparen),
      (")", .rparen), (",", .comma), (";", .semicolon), (":", .symbol)] ∧
        q.1 ∈ [")", ",", ";", "=", ":"] := by decide
  obtain ⟨hmark, hend⟩ := hall _ hp
  intro behind ms hends hspells
  rw [List.append_assoc, List.append_assoc]
  exact h _ _ (EndsWord.punct hend) (Spells.punct hmark (hothers behind ms hends hspells))

/-- Something up to a closing parenthesis. -/
theorem closed (h : Writes pieces ls) :
    Writes (pieces ++ [.punct ")"]) (ls ++ [⟨.rparen, ")"⟩]) := by
  intro behind ms hends hspells
  rw [List.append_assoc, List.append_assoc]
  exact h _ _ (EndsWord.punct (by decide)) (Spells.punct (by decide) hspells)

/-- A group. -/
theorem group (h : Writes pieces ls) :
    Writes (.punct "(" :: pieces ++ [.punct ")"]) (⟨.lparen, "("⟩ :: (ls ++ [⟨.rparen, ")"⟩])) := by
  intro behind ms hends hspells
  exact Spells.punct (by decide) (h.closed behind ms hends hspells)

/-- A call of a function. -/
theorem call {name : String} (hname : IsIdent name) (hletter : name ∉ ["P", "D", "E", "T"])
    (h : Writes pieces ls) :
    Writes (.word name :: (.punct "(" :: pieces ++ [.punct ")"]))
      (⟨.ident, name⟩ :: ⟨.lparen, "("⟩ :: (ls ++ [⟨.rparen, ")"⟩])) := by
  intro behind ms hends hspells edge indent rest hrest
  have hgroup := h.group behind ms hends hspells .word indent rest hrest
  have hopening : Layout.written .word indent (.punct "(" :: pieces ++ [.punct ")"] ++ behind) =
      '(' :: Layout.written .opening indent (pieces ++ [.punct ")"] ++ behind) := written_punct
  -- the four letters would open a tuple or a type instead
  have hwrong : ∀ c ∈ ['P', 'D', 'E', 'T'], name.toList ≠ [c] := by
    intro c hc heq
    have hall : ∀ c ∈ ['P', 'D', 'E', 'T'], String.ofList [c] ∈ ["P", "D", "E", "T"] := by decide
    refine hletter ?_
    rw [← String.ofList_toList (s := name), heq]
    exact hall c hc
  have hlongest : longest (name.toList ++ '(' :: (Layout.written .opening indent
      (pieces ++ [.punct ")"] ++ behind) ++ rest)) = (some .ident, name.toList.length) :=
    longest_word hname.1 (by rw [String.ofList_toList]; exact hname.2) (front_cons.mpr (by decide))
      fun _ => hwrong
  rw [List.cons_append, written_word, List.append_assoc, lexemes_gap, List.append_assoc, hopening,
    List.cons_append, Lexer.lexemes_append hname.1.ne_nil hlongest, String.ofList_toList]
  rw [hopening, List.cons_append] at hgroup
  rw [hgroup]
  rfl

end Writes

end TupleLang
