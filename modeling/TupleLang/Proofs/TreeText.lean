import TupleLang.Expr.Text
import TupleLang.Proofs.ExprBuilt
import TupleLang.Proofs.ExprSpelling

/-!
# Text of trees

What is written for a tree is read back as the tree, by a frame that may go as deep as the one that
the tree came from (`Built.echoes`). All operators are written with parentheses, so the precedences
do not matter, and every operand ends where its frame does.

One thing is written that was not read: the type in the place of a name, behind `is` or `is not`.
The name needs no level of nesting, while the type needs one below its frame. A tree is *roomy* when
there is one wherever it takes it.
-/

namespace TupleLang

open Lexer Grammar

/-! ## Trees -/

/-- Levels that are left for the operand at a place, if `levels` are left for the whole. -/
def Operator.levelsAt (op : Operator) (place levels : Nat) : Nat :=
  match op with
  | .call | .ifThen => levels - 1
  | .ifThenElse => if place < 2 then levels - 1 else levels
  | .select => if place = 1 then levels - 1 else levels
  | _ => levels

/-- Whether the operator tests the type of its first operand. -/
def Operator.isTypeTest : Operator → Bool
  | is | isNot => true
  | _ => false

namespace Tree

mutual

/-- Pieces of a tree. -/
def pieces (forms : TextForms) : Tree → List Piece
  | literal d => [.word (d.text forms)]
  | named _ label => [.word label]
  | apply binding children => Node.applyPieces binding (piecesOf forms children)

/-- Pieces of several trees. -/
def piecesOf (forms : TextForms) : List Tree → List (List Piece)
  | [] => []
  | t :: rest => t.pieces forms :: piecesOf forms rest

end

mutual

/-- Whether there is a floating point number in any literal of a tree. -/
def hasFloat : Tree → Bool
  | literal d => d.hasFloat
  | named _ _ => false
  | apply _ children => anyFloat children

/-- Whether there is a floating point number in any literal of several trees. -/
def anyFloat : List Tree → Bool
  | [] => false
  | t :: rest => t.hasFloat || anyFloat rest

end

/-- Whether the tree is a literal. -/
def isLiteral : Tree → Bool
  | literal _ => true
  | _ => false

mutual

/-- Whether, with so many levels, one is left below each frame in which a type test has a literal
type. -/
def isRoomy (levels : Nat) : Tree → Bool
  | literal _ => true
  | named _ _ => true
  | apply binding children =>
    areRoomy binding.op levels 0 children &&
      (!binding.op.isTypeTest || !children.getLast?.any isLiteral || 1 < levels)

/-- Whether this is so in the operands of an operator from a place on. -/
def areRoomy (op : Operator) (levels place : Nat) : List Tree → Bool
  | [] => true
  | t :: rest => t.isRoomy (op.levelsAt place levels) && areRoomy op levels (place + 1) rest

end

end Tree

/-! ## Taking in lexemes -/

/-- The frame with one more parenthesis open. -/
def TreeFrame.opened (f : TreeFrame) : TreeFrame := { f with pending := .opening :: f.pending }

namespace Grammar

variable {Γ : Env} {levels : Nat} {ts : List String} {f : TreeFrame} {ls rest : List Lexeme}

/-- Only marks and words end a frame. -/
theorem endsAt_eq_false {l : Lexeme}
    (hkind : l.kind ∉ [.semicolon, .eof, .comma, .rparen, .symbol, .keyword]) :
    f.endsAt ts l = false := by
  simp only [List.mem_cons, List.not_mem_nil, or_false, not_or] at hkind
  obtain ⟨hsemicolon, heof, hcomma, hrparen, hsymbol, hkeyword⟩ := hkind
  have hstatement : l.kind.endsStatement = false := by
    cases hl : l.kind <;> first | rfl | contradiction
  simp [TreeFrame.endsAt, Lexeme.isWord, hstatement, hcomma, hrparen, hsymbol, hkeyword]

/-- An open parenthesis keeps a frame from ending within the statement. -/
theorem endsAt_of_hasOpen {l : Lexeme} (hopen : f.hasOpen = true) :
    f.endsAt ts l = l.kind.endsStatement := by
  rw [endsAt_eq, hopen]
  simp

theorem runs_lparen (hf : f.lastOperand = false) :
    runs Γ levels ts f (⟨.lparen, "("⟩ :: ls) = runs Γ levels ts f.opened ls := by
  have hend : f.endsAt ts (ahead (⟨.lparen, "("⟩ :: ls) 0) = false := endsAt_eq_false (by simp)
  have hstep :
    step Γ (frame Γ levels) ts f levels (⟨.lparen, "("⟩ :: ls) = some (f.opened, ls) := by
    simp [step, hf, TreeFrame.opened]
  rw [runs_of_not_endsAt hend, hstep, Option.bind_some]

theorem runs_rparen (hopen : f.hasOpen = true) (hf : f.lastOperand = true) :
    runs Γ levels ts f (⟨.rparen, ")"⟩ :: ls) =
      (Γ.closeGroup f.operands f.pending).bind fun r => runs Γ levels ts ⟨r.1, r.2, true⟩ ls := by
  have hend : f.endsAt ts (ahead (⟨.rparen, ")"⟩ :: ls) 0) = false := endsAt_of_hasOpen hopen
  rw [runs_of_not_endsAt hend, step]
  simp only [ahead_cons_zero, hf, if_true]
  cases Γ.closeGroup f.operands f.pending <;> rfl

/-- An operand is taken in where one is expected. -/
theorem runs_operand {t : Tree} (hf : f.lastOperand = false)
    (hkind : (ahead ls 0).kind ∉ [.semicolon, .eof, .comma, .rparen, .symbol, .keyword])
    (hparen : (ahead ls 0).kind ≠ .lparen)
    (h : operand Γ (frame Γ levels) levels ls = some (t, rest)) :
    runs Γ levels ts f ls = runs Γ levels ts (f.push t) rest := by
  have hstep : step Γ (frame Γ levels) ts f levels ls = some (f.push t, rest) := by
    rw [step]
    split
    · rename_i hrparen
      exact absurd (by simp [hrparen]) hkind
    · rename_i hlparen
      exact absurd hlparen hparen
    · rename_i hsymbol
      exact absurd (by simp [hsymbol]) hkind
    · rename_i hkeyword
      exact absurd (by simp [hkeyword]) hkind
    · rw [h, hf]
      rfl
  rw [runs_of_not_endsAt (endsAt_eq_false hkind), hstep, Option.bind_some]

/-- An operator of one token or the beginning of another one is taken in inside parentheses. -/
theorem runs_word {kind : TokenKind} (hkind : kind ∈ [.symbol, .keyword]) {o : String}
    (hopen : f.hasOpen = true) :
    runs Γ levels ts f (⟨kind, o⟩ :: ls) =
      (if f.lastOperand then infixed Γ (frame Γ levels) ts f (⟨kind, o⟩ :: ls)
        else prefixed Γ (frame Γ levels) ts f (⟨kind, o⟩ :: ls)).bind
          fun r => runs Γ levels ts r.1 r.2 := by
  have hend : f.endsAt ts (ahead (⟨kind, o⟩ :: ls) 0) = false := by
    rw [endsAt_of_hasOpen hopen]
    rcases List.mem_pair.mp hkind with rfl | rfl <;> rfl
  have hstep : step Γ (frame Γ levels) ts f levels (⟨kind, o⟩ :: ls) =
      if f.lastOperand then infixed Γ (frame Γ levels) ts f (⟨kind, o⟩ :: ls)
        else prefixed Γ (frame Γ levels) ts f (⟨kind, o⟩ :: ls) := by
    rcases List.mem_pair.mp hkind with rfl | rfl <;> rfl
  rw [runs_of_not_endsAt hend, hstep]

/-- A frame ends at no parenthesis that opens. -/
theorem Ends.ne_lparen {l : Lexeme} (h : Ends ts l) : l.kind ≠ .lparen := by
  intro hkind
  have hfalse : ({} : TreeFrame).endsAt ts l = false := endsAt_eq_false (by rw [hkind]; decide)
  rw [Ends, hfalse] at h
  cases h

end Grammar

/-! ## Written and read back -/

/-- Nobody takes the lexeme for the end of arguments or statements, or for a part of an operator. -/
structure Lexeme.Starts (l : Lexeme) : Prop where
  kind : l.kind ∉ [.rparen, .eof, .semicolon]
  word : l.isWord "not" = false

/-- The lexemes are what is written for a tree, and are read as the tree by a frame that has
`levels` levels below it. -/
structure Tree.Echoes (Γ : Env) (forms : TextForms) (levels : Nat) (t : Tree) (ls : List Lexeme) :
    Prop where
  writes : Writes (t.pieces forms) ls
  detached : Detached (t.pieces forms)
  starts : ∃ l others, ls = l :: others ∧ l.Starts
  unnamed : ∀ rest, (ahead rest 0).isWord "=" = false →
    name ["="] (ls ++ rest) = some (none, ls ++ rest)
  reads : ∀ {ts base rest}, (∀ w ∈ ts, w ∈ stops) → base.lastOperand = false →
    (ahead rest 0).kind ≠ .lparen →
    runs Γ levels ts base (ls ++ rest) = runs Γ levels ts (base.push t) rest

namespace Tree

variable {Γ : Env} {forms : TextForms} {levels : Nat} {t : Tree} {ls rest : List Lexeme}
  {ts : List String}

/-- A frame of its own reads the tree up to where it ends. -/
theorem Echoes.frame (h : Echoes Γ forms levels t ls) (hts : ∀ w ∈ ts, w ∈ stops)
    (hends : Ends ts (ahead rest 0)) :
    Grammar.frame Γ (levels + 1) ts (ls ++ rest) = some (t, rest) := by
  rw [frame_succ, h.reads hts rfl hends.ne_lparen, runs_push_of_ends hends]

end Tree

/-! ## Literals -/

namespace Grammar

variable {Γ : Env} {forms : TextForms} {levels : Nat} {ls rest : List Lexeme} {d : Datum}

/-- Where no identifier and no operator stands, an operand is a value. -/
theorem operand_eq_read {inner : List String → Scan Tree}
    (hkind : (ahead ls 0).kind ∉ [.ident, .symbol, .dynamicOpen, .dataOpen]) :
    operand Γ inner levels ls = (read levels ls).map fun d => (.literal d.1, d.2) := by
  rw [operand, read, value]
  dsimp only
  cases hl : (ahead ls 0).kind
  case plainOpen => rfl
  case typeOpen => rfl
  case ident => exact absurd (by simp [hl]) hkind
  case symbol => exact absurd (by simp [hl]) hkind
  case dynamicOpen => exact absurd (by simp [hl]) hkind
  case dataOpen => exact absurd (by simp [hl]) hkind
  all_goals simp [TokenKind.isLiteral, Function.comp_def]

/-- A value begins with a literal, an identifier, a sign or an opening. -/
theorem kind_of_read {r : Datum × List Lexeme} (h : read levels ls = some r) :
    (ahead ls 0).kind ∉ [.semicolon, .eof, .comma, .rparen, .keyword, .lparen] := by
  intro hkind
  rw [read, value] at h
  simp only [List.mem_cons, List.not_mem_nil, or_false] at hkind
  rcases hkind with hl | hl | hl | hl | hl | hl <;> simp [hl, TokenKind.isLiteral] at h

/-- A text that is read as a datum is read as a literal of an expression, unless it begins with an
identifier or a sign. -/
theorem echoes_literal (hclear : Clear (d.text forms))
    (hread : ∀ rest, read levels (lexemes (d.text forms).toList ++ rest) = some (d, rest))
    (hkind : (ahead (lexemes (d.text forms).toList) 0).kind ∉
      [.ident, .symbol, .dynamicOpen, .dataOpen]) :
    (Tree.literal d).Echoes Γ forms levels (lexemes (d.text forms).toList) := by
  have hpieces : (Tree.literal d).pieces forms = [.word (d.text forms)] := by rw [Tree.pieces]
  generalize hls : lexemes (d.text forms).toList = ls at *
  have hmarks := kind_of_read (List.append_nil ls ▸ hread [])
  cases ls with
  | nil => exact absurd (by simp [ahead, Lexeme.eof]) hmarks
  | cons l others =>
    simp only [ahead_cons_zero, List.mem_cons, List.not_mem_nil, or_false, not_or] at hmarks hkind
    refine ⟨?_, ⟨_, _, hpieces, .inr ⟨_, rfl⟩⟩, ⟨l, others, rfl, ?_, ?_⟩, fun rest _ => ?_, ?_⟩
    · rw [hpieces, ← hls]
      exact Writes.word hclear
    · simp [hmarks]
    · simp [Lexeme.isWord, hkind, hmarks]
    · simp [name, hkind]
    · intro ts base rest hts hbase hrest
      refine runs_operand hbase (by simp [hmarks, hkind]) (by simp [hmarks]) ?_
      rw [operand_eq_read (by simp [hkind]), hread rest]
      rfl

/-- A legible scalar other than a name or a negative number is a literal of an expression. -/
theorem echoes_scalar {type : String} {v : Value}
    (h : Legible levels (Datum.scalarText forms type v) (.scalar type v))
    (hsign : (Datum.scalar type v).isNegative = false) (hname : type ≠ "name") :
    ∃ ls, (Tree.literal (.scalar type v)).Echoes Γ forms levels ls := by
  have htext : (Datum.scalar type v).text forms = Datum.scalarText forms type v := by
    rw [Datum.text]
  refine ⟨_, echoes_literal (htext ▸ h.clear) (fun rest => ?_) fun hkind => ?_⟩
  · rw [htext]
    exact h.reads.value _ rest
  · rw [htext] at hkind
    obtain ⟨l, others, hls, -, -⟩ := h.reads.head
    have hvalue := h.reads.value (fun _ _ => none) []
    have hsymbol := h.reads.sign
    rw [hls] at hkind hvalue hsymbol
    simp only [ahead_cons_zero, List.mem_cons, List.not_mem_nil, or_false] at hkind
    rcases hkind with hl | hl | hl | hl
    · simp [value, hl, hname.symm] at hvalue
    · rw [hsymbol l rfl hl] at hsign
      cases hsign
    · simp [value, hl] at hvalue
    · simp [value, hl] at hvalue

/-- A plain tuple is a literal of an expression. -/
theorem echoes_tuple {entries : List Datum.Entry}
    (h : (Datum.tuple .plain entries).Readable levels)
    (hfloat : (Datum.tuple .plain entries).hasFloat = false) :
    ∃ ls, (Tree.literal (.tuple .plain entries)).Echoes Γ forms levels ls := by
  cases h with
  | @tuple levels _ _ hkind hadmits hnames hentries =>
    rw [Datum.hasFloat] at hfloat
    obtain ⟨ls, hwrites, hreads⟩ := Datum.exists_body hadmits hnames fun e he =>
      (hentries e he).echoes forms (Datum.Readable.hasFloat_of_mem hfloat e he) .plain
    have hspells : Spells ((Datum.tuple .plain entries).pieces forms none)
        (Datum.opening .plain :: ls) := by
      rw [Datum.pieces_tuple, if_neg (by simp)]
      exact Datum.spells_opening hkind hwrites.spells
    have hlexemes : lexemes ((Datum.tuple .plain entries).text forms).toList =
        Datum.opening .plain :: ls := by
      simpa [Datum.text] using hspells.lexemes_render front_nil
    refine ⟨_, echoes_literal ⟨fun rest hrest => ?_, ?_⟩ (fun rest => ?_) ?_⟩
    · rw [hlexemes, Datum.text, hspells.lexemes_render hrest]
    · rw [Datum.text, Layout.toList_render, Datum.pieces_tuple, if_neg (by simp),
        List.singleton_append, Layout.written_word]
      exact ⟨'P', _, rfl, by decide⟩
    · rw [hlexemes]
      exact hreads rest
    · rw [hlexemes]
      simp [Datum.opening]

end Grammar

/-- What is written for a literal is read back as the literal. -/
theorem Datum.Spoken.echoes {Γ : Env} {forms : TextForms} {levels : Nat}
    {d : Datum} (h : d.Spoken levels) (hfloat : d.hasFloat = false) :
    ∃ ls, (Tree.literal d).Echoes Γ forms levels ls := by
  cases h with
  | scalar hstands hsign hname => exact Grammar.echoes_scalar (hstands.legible levels) hsign hname
  | float x => simp [hasFloat] at hfloat
  | type ht hlevels => exact Grammar.echoes_scalar (ht.legible hlevels) rfl (by decide)
  | tuple hreadable => exact echoes_tuple hreadable hfloat

/-! ## Names and groups -/

namespace Tree

variable {Γ : Env} {forms : TextForms} {levels : Nat} {t x y c : Tree} {xs ys cs ks : List Lexeme}
  {op : Operator}

/-- A bare identifier is read as what it stands for. -/
theorem echoes_identifier {s : String} (hs : IsIdent s)
    (hpieces : (identifier Γ s).pieces forms = [.word s]) :
    (identifier Γ s).Echoes Γ forms levels [⟨.ident, s⟩] := by
  refine ⟨?_, ⟨_, _, hpieces, .inr ⟨_, rfl⟩⟩, ⟨_, _, rfl, by simp, rfl⟩, fun rest hrest => ?_, ?_⟩
  · rw [hpieces, ← hs.clear.2]
    exact Writes.word hs.clear.1
  · simp [Grammar.name, hrest]
  · intro ts base rest hts hbase hrest
    refine runs_operand hbase (by simp) (by simp) ?_
    simp [operand, hrest]

/-- What stands in parentheses is read as a tree if it is completed at the closing one. -/
theorem echoes_group {inner : List Piece} (hks : Writes inner ks)
    (hpieces : t.pieces forms = .punct "(" :: inner ++ [.punct ")"])
    (hreads : ∀ {ts} {base : TreeFrame} {rest}, (∀ w ∈ ts, w ∈ stops) → base.lastOperand = false →
      runs Γ levels ts base.opened (ks ++ ⟨.rparen, ")"⟩ :: rest) =
        runs Γ levels ts (base.push t) rest) :
    t.Echoes Γ forms levels (⟨.lparen, "("⟩ :: (ks ++ [⟨.rparen, ")"⟩])) := by
  refine ⟨?_, ⟨_, _, hpieces, .inl rfl⟩, ⟨_, _, rfl, by simp, rfl⟩, fun rest _ => ?_, ?_⟩
  · rw [hpieces]
    exact hks.group
  · simp [Grammar.name]
  · intro ts base rest hts hbase _
    rw [List.cons_append, runs_lparen hbase, List.append_assoc]
    exact hreads hts hbase

/-- Such a tree may begin with an operand in front of an operator. -/
theorem echoes_infix {o : String} {others : List Piece} (hx : x.Echoes Γ forms levels xs)
    (hks : Writes (.operator o :: others) ks)
    (hpieces : t.pieces forms =
    .punct "(" :: (x.pieces forms ++ .operator o :: others) ++ [.punct ")"])
    (hparen : ∀ rest, (ahead (ks ++ rest) 0).kind ≠ .lparen)
    (hreads : ∀ {ts} {base : TreeFrame} {rest}, (∀ w ∈ ts, w ∈ stops) → base.lastOperand = false →
      runs Γ levels ts (base.opened.push x) (ks ++ ⟨.rparen, ")"⟩ :: rest) =
        runs Γ levels ts (base.push t) rest) :
    t.Echoes Γ forms levels (⟨.lparen, "("⟩ :: (xs ++ ks ++ [⟨.rparen, ")"⟩])) := by
  refine echoes_group (hx.writes.append_operator hks) hpieces ?_
  intro ts base rest hts hbase
  rw [List.append_assoc, hx.reads hts (show base.opened.lastOperand = false from hbase) (hparen _)]
  exact hreads hts hbase

/-- The closing parenthesis completes the operator that waits. -/
theorem runs_complete {ts : List String} {base : TreeFrame} {w : TreeWaiting} {operands : List Tree}
    {rest : List Lexeme} (hreduce : Γ.reduce operands w = some (t :: base.operands)) :
    runs Γ levels ts ⟨operands, .waiting w :: .opening :: base.pending, true⟩
        (⟨.rparen, ")"⟩ :: rest) = runs Γ levels ts (base.push t) rest := by
  rw [runs_rparen rfl rfl]
  simp only [Env.closeGroup, hreduce, Option.bind_some]
  rfl

/-! ## Operators of one token -/

/-- Operators other than `is not` and calls are spelled as one lexeme. -/
theorem exists_spaced (hnot : op ≠ .isNot) (hcall : op ≠ .call) :
    ∃ kind ∈ [TokenKind.symbol, .keyword], Spaced op.spelling [⟨kind, op.spelling⟩] := by
  have hspelled : op.spelling ∈ symbols ∨ op.spelling ∈ keywords := by
    cases op <;> first | decide | contradiction
  rcases hspelled with h | h
  · exact ⟨.symbol, by decide, spaced_symbol h⟩
  · exact ⟨.keyword, by decide, spaced_keyword h⟩

theorem echoes_unary (hop : op.isUnary = true) (hx : x.Echoes Γ forms levels xs)
    (hbind : Γ.bind op op.actionName [x] [] = some t)
    (hpieces : t.pieces forms =
      .punct "(" :: (.operator op.spelling :: x.pieces forms) ++ [.punct ")"]) :
    ∃ ls, t.Echoes Γ forms levels ls := by
  have hall : ∀ op : Operator, op.isUnary = true → op.spelling ≠ "if" ∧
      Operator.ofSpelling? op.spelling true = some op ∧ op.arity = 1 := by
    intro op
    cases op <;> decide
  obtain ⟨hif, hspelling, harity⟩ := hall op hop
  obtain ⟨kind, hkind, hspaced⟩ := @exists_spaced op
    (by rintro rfl; cases hop) (by rintro rfl; cases hop)
  refine ⟨_, echoes_group (hx.writes.operator hspaced hx.detached) hpieces ?_⟩
  intro ts base rest hts hbase
  have htakes : prefixed Γ (Grammar.frame Γ levels) ts base.opened
      (⟨kind, op.spelling⟩ :: (xs ++ ⟨.rparen, ")"⟩ :: rest)) =
        some (base.opened.await (.single op), xs ++ ⟨.rparen, ")"⟩ :: rest) := by
    simp [prefixed, hif, hspelling, harity]
  have hlast : base.opened.lastOperand = false := hbase
  rw [List.singleton_append, List.cons_append, runs_word hkind rfl, hlast,
    if_neg (by decide), htakes, Option.bind_some, hx.reads hts rfl (by simp)]
  refine runs_complete ?_
  simp [Env.reduce, TreeFrame.await, TreeFrame.opened, harity, hbind]

theorem echoes_binary (hflat : op.isFlat = true) (htest : op.isTypeTest = false)
    (harity : op.arity = 2)
    (hx : x.Echoes Γ forms levels xs) (hy : y.Echoes Γ forms levels ys)
    (hbind : Γ.bind op op.actionName [x, y] [] = some t)
    (hpieces : t.pieces forms = .punct "(" :: (x.pieces forms ++ .operator op.spelling ::
      y.pieces forms) ++ [.punct ")"]) : ∃ ls, t.Echoes Γ forms levels ls := by
  have hall : ∀ op : Operator, op.isFlat = true → op.isTypeTest = false → op.arity = 2 →
      op.spelling ≠ "?" ∧ op.spelling ≠ "is" ∧
        Operator.ofSpelling? op.spelling false = some op := by
    intro op
    cases op <;> decide
  obtain ⟨hselect, his, hspelling⟩ := hall op hflat htest harity
  obtain ⟨kind, hkind, hspaced⟩ := @exists_spaced op
    (by rintro rfl; cases htest) (by rintro rfl; cases hflat)
  refine ⟨_, echoes_infix hx (hy.writes.operator hspaced hy.detached) hpieces (fun rest => ?_) ?_⟩
  · rcases List.mem_pair.mp hkind with rfl | rfl <;> simp
  · intro ts base rest hts hbase
    -- the parenthesis in front keeps the operators outside from being completed
    have htakes : infixed Γ (Grammar.frame Γ levels) ts (base.opened.push x)
        (⟨kind, op.spelling⟩ :: (ys ++ ⟨.rparen, ")"⟩ :: rest)) =
          some ((base.opened.push x).await (.single op), ys ++ ⟨.rparen, ")"⟩ :: rest) := by
      simp [infixed, hselect, his, hspelling, Env.reduceWhile, TreeFrame.push, TreeFrame.opened,
        TreeFrame.await]
    have hlast : (base.opened.push x).lastOperand = true := rfl
    rw [List.singleton_append, List.cons_append, runs_word hkind rfl, hlast, if_pos rfl, htakes,
      Option.bind_some, hy.reads hts rfl (by simp)]
    refine runs_complete ?_
    simp [Env.reduce, TreeFrame.push, TreeFrame.await, TreeFrame.opened, harity, hbind]

/-- An operator without operands is read as itself. -/
theorem echoes_signal (hflat : op.isFlat = true) (harity : op.arity = 0)
    (hbind : Γ.bind op op.actionName [] [] = some t)
    (hpieces : t.pieces forms = [.word op.spelling]) :
    ∃ ls, t.Echoes Γ forms levels ls := by
  have hall : ∀ op : Operator, op.isFlat = true → op.arity = 0 → op.spelling ∈ keywords ∧
      op.spelling ∉ "not" :: "if" :: stops ∧ Operator.ofSpelling? op.spelling true = some op := by
    intro op
    cases op <;> decide
  obtain ⟨hkeyword, hwords, hspelling⟩ := hall op hflat harity
  rw [List.mem_cons, List.mem_cons, not_or, not_or] at hwords
  obtain ⟨hnot, hif, hstops⟩ := hwords
  obtain ⟨hclear, hlexemes⟩ := clear_keyword hkeyword
  refine ⟨[⟨.keyword, op.spelling⟩], ?_, ⟨_, _, hpieces, .inr ⟨_, rfl⟩⟩, ⟨_, _, rfl, by simp, ?_⟩,
    fun rest _ => ?_, ?_⟩
  · rw [hpieces, ← hlexemes]
    exact Writes.word hclear
  · simp [Lexeme.isWord, hnot]
  · simp [Grammar.name]
  · intro ts base rest hts hbase _
    have hend : base.endsAt ts (ahead (⟨.keyword, op.spelling⟩ :: rest) 0) = false := by
      have hother : ∀ w ∈ ts, ¬op.spelling = w := by
        rintro w hw rfl
        exact hstops (hts _ hw)
      simpa [TreeFrame.endsAt, TokenKind.endsStatement, Lexeme.isWord] using fun _ => hother
    have hstep : step Γ (Grammar.frame Γ levels) ts base levels (⟨.keyword, op.spelling⟩ :: rest) =
        some (base.push t, rest) := by
      simp [step, hbase, prefixed, hif, hspelling, harity, hbind]
    rw [List.singleton_append, runs_of_not_endsAt hend, hstep, Option.bind_some]

/-! ## Operators of several tokens -/

theorem echoes_typeTest (htest : op.isTypeTest = true) (hx : x.Echoes Γ forms levels xs)
    (hy : y.Echoes Γ forms levels ys) (hbind : Γ.bind op op.actionName [x, y] [] = some t)
    (hpieces : t.pieces forms = .punct "(" :: (x.pieces forms ++ .operator op.spelling ::
      y.pieces forms) ++ [.punct ")"]) : ∃ ls, t.Echoes Γ forms levels ls := by
  -- either way the left operand goes with the operator
  have htakes : ∃ others, Spaced op.spelling (⟨.keyword, "is"⟩ :: others) ∧
      ∀ rest, typeTest x (others ++ (ys ++ rest)) = some ((op, [x]), ys ++ rest) := by
    obtain ⟨l, more, rfl, hstarts⟩ := hy.starts
    obtain rfl | rfl : op = .is ∨ op = .isNot := by cases op <;> simp_all [Operator.isTypeTest]
    · refine ⟨[], spaced_keyword (by decide), fun rest => ?_⟩
      simp [typeTest, hstarts.word]
    · refine ⟨[⟨.keyword, "not"⟩], spaced_isNot, fun rest => ?_⟩
      simp [typeTest, Lexeme.isWord]
  obtain ⟨others, hspaced, htakes⟩ := htakes
  refine ⟨_,
    echoes_infix hx (hy.writes.operator hspaced hy.detached) hpieces (fun rest => by simp) ?_⟩
  intro ts base rest hts hbase
  have hresolve : infixed Γ (Grammar.frame Γ levels) ts (base.opened.push x)
      (⟨.keyword, "is"⟩ :: (others ++ (ys ++ ⟨.rparen, ")"⟩ :: rest))) =
        some (base.opened.await (.tail op [x]), ys ++ ⟨.rparen, ")"⟩ :: rest) := by
    simp [infixed, resolveAfter, Env.reduceWhile, TreeFrame.push, TreeFrame.opened, TreeFrame.await,
      htakes]
  have hlast : (base.opened.push x).lastOperand = true := rfl
  rw [List.cons_append, List.cons_append, List.append_assoc, runs_word (by decide) rfl, hlast,
    if_pos rfl, hresolve, Option.bind_some, hy.reads hts rfl (by simp)]
  refine runs_complete ?_
  simp [Env.reduce, TreeFrame.await, TreeFrame.opened, hbind]

/-- An inner operand is read up to the word that ends it. -/
theorem Echoes.frame_word (hx : x.Echoes Γ forms levels xs) {ts : List String}
    (hts : ∀ w ∈ ts, w ∈ stops) (kind : TokenKind) (hkind : kind ∈ [.symbol, .keyword]) {w : String}
    (hw : w ∈ ts) (rest : List Lexeme) :
    Grammar.frame Γ (levels + 1) ts (xs ++ ⟨kind, w⟩ :: rest) = some (x, ⟨kind, w⟩ :: rest) := by
  refine hx.frame hts (ends_iff.mpr (.inr (.inr (.inr ⟨w, hw, ?_⟩))))
  rcases List.mem_pair.mp hkind with rfl | rfl <;> simp [Lexeme.isWord]

theorem echoes_ifThen (hc : c.Echoes Γ forms levels cs) (hx : x.Echoes Γ forms levels xs)
    (hbind : Γ.bind .ifThen Operator.ifThen.actionName [c, x] [] = some t)
    (hpieces : t.pieces forms = .punct "(" :: (.operator "if" :: (c.pieces forms ++
      .operator "then" :: x.pieces forms)) ++ [.punct ")"]) :
    ∃ ls, t.Echoes Γ forms (levels + 1) ls := by
  have hthen := hx.writes.operator (@spaced_keyword "then" (by decide)) hx.detached
  have hif := (hc.writes.append_operator hthen).operator (@spaced_keyword "if" (by decide))
    (hc.detached.append _)
  refine ⟨_, echoes_group hif hpieces ?_⟩
  intro ts base rest hts hbase
  have hthens : ∀ w ∈ "then" :: "then" :: ts, w ∈ stops :=
    List.forall_mem_cons.mpr ⟨by decide, List.forall_mem_cons.mpr ⟨by decide, hts⟩⟩
  have helses : ∀ w ∈ "else" :: ts, w ∈ stops := List.forall_mem_cons.mpr ⟨by decide, hts⟩
  have hcondition := hc.frame_word hthens .keyword (by decide) List.mem_cons_self
    (xs ++ ⟨.rparen, ")"⟩ :: rest)
  have hvain : Grammar.frame Γ (levels + 1) ("else" :: ts) (xs ++ ⟨.rparen, ")"⟩ :: rest) =
      some (x, ⟨.rparen, ")"⟩ :: rest) := hx.frame helses (ends_iff.mpr (by simp))
  have htakes : prefixed Γ (Grammar.frame Γ (levels + 1)) ts base.opened (⟨.keyword, "if"⟩ ::
      (cs ++ ⟨.keyword, "then"⟩ :: (xs ++ ⟨.rparen, ")"⟩ :: rest))) =
        some (base.opened.await (.tail .ifThen [c]), xs ++ ⟨.rparen, ")"⟩ :: rest) := by
    simp [prefixed, conditional, hcondition, hvain, Lexeme.isWord]
  have hlast : base.opened.lastOperand = false := hbase
  have hopen : (base.opened.push t).hasOpen = true := rfl
  simp only [List.cons_append, List.nil_append, List.append_assoc]
  rw [runs_word (by decide) rfl, hlast, if_neg (by decide), htakes, Option.bind_some,
    runs_ifThen hts hvain rfl, hbind, Option.bind_some, runs_rparen hopen rfl]
  rfl

theorem echoes_ifThenElse (hc : c.Echoes Γ forms levels cs) (hx : x.Echoes Γ forms levels xs)
    (hy : y.Echoes Γ forms (levels + 1) ys)
    (hbind : Γ.bind .ifThenElse Operator.ifThenElse.actionName [c, x, y] [] = some t)
    (hpieces : t.pieces forms = .punct "(" :: (.operator "if" :: (c.pieces forms ++
      .operator "then" :: (x.pieces forms ++ .operator "else" :: y.pieces forms))) ++
        [.punct ")"]) :
    ∃ ls, t.Echoes Γ forms (levels + 1) ls := by
  have helse := hy.writes.operator (@spaced_keyword "else" (by decide)) hy.detached
  have hthen := (hx.writes.append_operator helse).operator (@spaced_keyword "then" (by decide))
    (hx.detached.append _)
  have hif := (hc.writes.append_operator hthen).operator (@spaced_keyword "if" (by decide))
    (hc.detached.append _)
  refine ⟨_, echoes_group hif hpieces ?_⟩
  intro ts base rest hts hbase
  have hthens : ∀ w ∈ "then" :: "then" :: ts, w ∈ stops :=
    List.forall_mem_cons.mpr ⟨by decide, List.forall_mem_cons.mpr ⟨by decide, hts⟩⟩
  have helses : ∀ w ∈ "else" :: ts, w ∈ stops := List.forall_mem_cons.mpr ⟨by decide, hts⟩
  have hcondition := hc.frame_word hthens .keyword (by decide) List.mem_cons_self
    (xs ++ ⟨.keyword, "else"⟩ :: (ys ++ ⟨.rparen, ")"⟩ :: rest))
  have hbranch := hx.frame_word helses .keyword (by decide) List.mem_cons_self
    (ys ++ ⟨.rparen, ")"⟩ :: rest)
  have htakes : prefixed Γ (Grammar.frame Γ (levels + 1)) ts base.opened (⟨.keyword, "if"⟩ ::
      (cs ++ ⟨.keyword, "then"⟩ :: (xs ++ ⟨.keyword, "else"⟩ :: (ys ++ ⟨.rparen, ")"⟩ :: rest)))) =
        some (base.opened.await (.tail .ifThenElse [c, x]), ys ++ ⟨.rparen, ")"⟩ :: rest) := by
    simp [prefixed, conditional, hcondition, hbranch, Lexeme.isWord]
  have hlast : base.opened.lastOperand = false := hbase
  simp only [List.cons_append, List.nil_append, List.append_assoc]
  rw [runs_word (by decide) rfl, hlast, if_neg (by decide), htakes, Option.bind_some,
    hy.reads hts rfl (by simp)]
  refine runs_complete ?_
  simp [Env.reduce, TreeFrame.await, TreeFrame.opened, hbind]

theorem echoes_select (hc : c.Echoes Γ forms (levels + 1) cs) (hx : x.Echoes Γ forms levels xs)
    (hy : y.Echoes Γ forms (levels + 1) ys)
    (hbind : Γ.bind .select Operator.select.actionName [c, x, y] [] = some t)
    (hpieces : t.pieces forms = .punct "(" :: (c.pieces forms ++ .operator "?" ::
      (x.pieces forms ++ .operator ":" :: y.pieces forms)) ++ [.punct ")"]) :
    ∃ ls, t.Echoes Γ forms (levels + 1) ls := by
  have hcolon := hy.writes.operator (@spaced_symbol ":" (by decide)) hy.detached
  have hmark := (hx.writes.append_operator hcolon).operator (@spaced_symbol "?" (by decide))
    (hx.detached.append _)
  refine ⟨_, echoes_infix hc hmark hpieces (fun rest => by simp) ?_⟩
  intro ts base rest hts hbase
  have hcolons : ∀ w ∈ ":" :: ts, w ∈ stops := List.forall_mem_cons.mpr ⟨by decide, hts⟩
  have hbranch := hx.frame_word hcolons .symbol (by decide) List.mem_cons_self
    (ys ++ ⟨.rparen, ")"⟩ :: rest)
  have htakes : infixed Γ (Grammar.frame Γ (levels + 1)) ts (base.opened.push c) (⟨.symbol, "?"⟩ ::
      (xs ++ ⟨.symbol, ":"⟩ :: (ys ++ ⟨.rparen, ")"⟩ :: rest))) =
        some (base.opened.await (.tail .select [c, x]), ys ++ ⟨.rparen, ")"⟩ :: rest) := by
    simp [infixed, resolveAfter, selection, Env.reduceWhile, TreeFrame.push, TreeFrame.opened,
      TreeFrame.await, hbranch, Lexeme.isWord]
  have hlast : (base.opened.push c).lastOperand = true := rfl
  simp only [List.cons_append, List.nil_append, List.append_assoc]
  rw [runs_word (by decide) rfl, hlast, if_pos rfl, htakes, Option.bind_some,
    hy.reads hts rfl (by simp)]
  refine runs_complete ?_
  simp [Env.reduce, TreeFrame.await, TreeFrame.opened, hbind]

/-! ## Calls -/

@[simp] theorem piecesOf_eq_map (trees : List Tree) :
    piecesOf forms trees = trees.map (pieces forms) := by
  induction trees with
  | nil => rfl
  | cons t rest ih => rw [piecesOf, ih, List.map_cons]

theorem exists_forall₂ {trees : List Tree} (h : ∀ x ∈ trees, ∃ xs, x.Echoes Γ forms levels xs) :
    ∃ lss, List.Forall₂ (Echoes Γ forms levels) trees lss := by
  induction trees with
  | nil => exact ⟨[], .nil⟩
  | cons x rest ih =>
    obtain ⟨⟨xs, hx⟩, hrest⟩ := List.forall_mem_cons.mp h
    obtain ⟨lss, hlss⟩ := ih hrest
    exact ⟨xs :: lss, .cons hx hlss⟩

/-- Several trees are written with a mark between any two of them. -/
theorem writes_intersperse {p : String} {kind : TokenKind}
    (hp : (p, kind) ∈ [(",", .comma), (";", .semicolon)]) {trees : List Tree}
    {lss : List (List Lexeme)}
    (h : List.Forall₂ (Echoes Γ forms levels) trees lss) :
    Writes ((piecesOf forms trees).intersperse [.punct p]).flatten
      (lss.intersperse [⟨kind, p⟩]).flatten := by
  induction h with
  | nil => exact Writes.nil
  | cons hx hrest ih =>
    cases hrest with
    | nil => simpa using hx.writes
    | cons => simpa using hx.writes.append_punct hp ih

/-- Arguments without names are written with commas between them. -/
theorem pieces_call {s : String} {action : Action} {type : TypeDesc} {n : Nat} {args : List Tree} :
    pieces forms (.apply ⟨.call, s, action, type, List.replicate n none⟩ args) =
      .word s :: (.punct "(" :: ((piecesOf forms args).intersperse [.punct ","]).flatten ++
        [.punct ")"]) := by
  have hname : ∀ i : Nat, ((List.replicate n (none : Option String))[i]?).getD none = none := by
    intro i
    rw [List.getElem?_replicate]
    split <;> rfl
  have hbehind : ∀ (x : List Piece) (rest : List (List Piece)),
      ((x :: rest).intersperse [.punct ","]).flatten =
        x ++ (rest.mapIdx fun _ ps => .punct "," :: ps).flatten := by
    intro x rest
    induction rest generalizing x with
    | nil => simp
    | cons y rest ih => simp [ih, List.mapIdx_cons]
  rw [pieces, Node.applyPieces]
  cases piecesOf forms args with
  | nil => rfl
  | cons x rest => simp [hbehind, hname, Node.argNamePieces, List.mapIdx_cons]

theorem callArgs_echoes {args : List Tree} {lss : List (List Lexeme)} (hne : args ≠ [])
    (h : List.Forall₂ (Echoes Γ forms levels) args lss) {rounds : Nat}
    (hrounds : (lss.intersperse [⟨.comma, ","⟩]).flatten.length < rounds) (done : List Tree)
    (names : List (Option String)) (rest : List Lexeme) :
    callArgs (Grammar.frame Γ (levels + 1)) rounds done names
        ((lss.intersperse [⟨.comma, ","⟩]).flatten ++ ⟨.rparen, ")"⟩ :: rest) =
      some ((done ++ args, names ++ List.replicate args.length none), rest) := by
  induction h generalizing rounds done names with
  | nil => exact absurd rfl hne
  | @cons x xs args lss hx hrest ih =>
    obtain ⟨rounds, rfl⟩ := Nat.exists_eq_add_one.mpr (Nat.zero_lt_of_lt hrounds)
    cases hrest with
    | nil =>
      have hframe : Grammar.frame Γ (levels + 1) [] (xs ++ ⟨.rparen, ")"⟩ :: rest) =
          some (x, ⟨.rparen, ")"⟩ :: rest) := hx.frame (by simp) (ends_iff.mpr (by simp))
      have hunnamed := hx.unnamed (⟨.rparen, ")"⟩ :: rest) rfl
      simp [callArgs, hunnamed, hframe]
    | @cons y ys args lss hy hrest =>
      have hsplit : ((xs :: ys :: lss).intersperse [⟨.comma, ","⟩]).flatten =
          xs ++ ⟨.comma, ","⟩ :: ((ys :: lss).intersperse [⟨.comma, ","⟩]).flatten := by simp
      rw [hsplit, List.length_append, List.length_cons] at hrounds
      have hmore := ih (by simp) (show _ < rounds by omega) (done ++ [x]) (names ++ [none])
      generalize ((ys :: lss).intersperse [⟨.comma, ","⟩]).flatten = behind at hsplit hmore
      have hframe : Grammar.frame Γ (levels + 1) []
          (xs ++ ⟨.comma, ","⟩ :: (behind ++ ⟨.rparen, ")"⟩ :: rest)) =
            some (x, ⟨.comma, ","⟩ :: (behind ++ ⟨.rparen, ")"⟩ :: rest)) :=
        hx.frame (by simp) (ends_iff.mpr (by simp))
      have hunnamed := hx.unnamed (⟨.comma, ","⟩ :: (behind ++ ⟨.rparen, ")"⟩ :: rest)) rfl
      rw [hsplit, List.append_assoc, List.cons_append, callArgs, hunnamed, Option.bind_some, hframe,
        Option.bind_some]
      simpa [List.replicate_succ] using hmore

/-- A call is read as a tree if its arguments are completed at the closing parenthesis. -/
theorem echoes_call {s : String} (hs : IsIdent s) (hletter : s ∉ ["P", "D", "E", "T"])
    {inner : List Piece} (hks : Writes inner ks)
    (hpieces : t.pieces forms = .word s :: (.punct "(" :: inner ++ [.punct ")"]))
    (hreads : ∀ rest, call Γ (Grammar.frame Γ levels)
      (⟨.ident, s⟩ :: ⟨.lparen, "("⟩ :: (ks ++ ⟨.rparen, ")"⟩ :: rest)) = some (t, rest)) :
    t.Echoes Γ forms levels (⟨.ident, s⟩ :: ⟨.lparen, "("⟩ :: (ks ++ [⟨.rparen, ")"⟩])) := by
  refine ⟨?_, ⟨_, _, hpieces, .inr ⟨_, rfl⟩⟩, ⟨_, _, rfl, by simp, rfl⟩, fun rest _ => ?_, ?_⟩
  · rw [hpieces]
    exact hks.call hs hletter
  · simp [Grammar.name, Lexeme.isWord]
  · intro ts base rest hts hbase _
    refine runs_operand hbase (by simp) (by simp) ?_
    simp only [List.cons_append, List.append_assoc, List.nil_append]
    simpa [operand] using hreads rest

theorem call_nil {s : String} (hbind : Γ.bind .call s [] [] = some t) (rest : List Lexeme) :
    call Γ (Grammar.frame Γ levels) (⟨.ident, s⟩ :: ⟨.lparen, "("⟩ :: ⟨.rparen, ")"⟩ :: rest) =
      some (t, rest) := by
  simp [call, hbind]

theorem call_args {s : String} {args : List Tree} {lss : List (List Lexeme)} (hne : args ≠ [])
    (h : List.Forall₂ (Echoes Γ forms levels) args lss)
    (hbind : Γ.bind .call s args (List.replicate args.length none) = some t) (rest : List Lexeme) :
    call Γ (Grammar.frame Γ (levels + 1)) (⟨.ident, s⟩ :: ⟨.lparen, "("⟩ ::
      ((lss.intersperse [⟨.comma, ","⟩]).flatten ++ ⟨.rparen, ")"⟩ :: rest)) = some (t, rest) := by
  have hfirst : ∀ more : List Lexeme,
      (ahead ((lss.intersperse [⟨.comma, ","⟩]).flatten ++ more) 0).kind ≠ .rparen := by
    intro more
    cases h with
    | nil => exact absurd rfl hne
    | cons hx hrest =>
      obtain ⟨l, others, rfl, hl⟩ := hx.starts
      have hkind : l.kind ≠ .rparen := fun hkind => hl.kind (by simp [hkind])
      cases hrest with
      | nil => simpa using hkind
      | cons => simpa using hkind
  have hargs := fun rounds hrounds => @callArgs_echoes Γ forms levels args lss hne h rounds hrounds
    [] [] rest
  rw [call]
  simp only [List.drop_succ_cons, List.drop_zero, hfirst, if_false]
  rw [hargs _ (by rw [List.length_append]; omega)]
  simp [hbind]

end Tree

/-! ## Bound operators -/

namespace Env

variable {Γ : Env} {op : Operator} {name : String} {children : List Tree}
  {names : List (Option String)} {t : Tree}

/-- The tree is the operator applied to just these operands, to which it is bound. -/
structure Applies (Γ : Env) (op : Operator) (name : String) (children : List Tree)
    (names : List (Option String)) (t : Tree) : Prop where
  bind : Γ.bind op name children names = some t
  shape : ∃ action type, t = .apply { op, name, action, type, argNames := names } children

theorem coerce_of_not_isTypeTest (h : op.isTypeTest = false) : Γ.coerce op children = children := by
  rw [coerce, if_neg]
  rintro (rfl | rfl) <;> cases h

/-- Operands become others only where the last one of a type test is the name of a type. -/
theorem coerce_cases (Γ : Env) (op : Operator) (children : List Tree) :
    Γ.coerce op children = children ∨
      op.isTypeTest = true ∧ ∃ name type, Γ.type? name = some type ∧ children ≠ [] ∧
        Γ.coerce op children = children.dropLast ++ [.literal (.scalar "type" (.type type))] := by
  rw [coerce]
  split
  · rename_i htest
    cases htype : Γ.typeOperand? children with
    | none => exact .inl rfl
    | some type =>
      rw [typeOperand?] at htype
      split at htype
      · rename_i logical name hlast
        split at htype
        · refine .inr ⟨?_, name, type, htype, ?_, rfl⟩
          · rcases htest with rfl | rfl <;> rfl
          · rintro rfl
            cases hlast
        · cases htype
      · cases htype
  · exact .inl rfl

theorem length_coerce : (Γ.coerce op children).length = children.length := by
  rcases coerce_cases Γ op children with h | ⟨-, _, _, -, hne, h⟩
  · rw [h]
  · have hpos := List.length_pos_of_ne_nil hne
    rw [h, List.length_append, List.length_dropLast, List.length_singleton]
    omega

theorem coerce_coerce : Γ.coerce op (Γ.coerce op children) = Γ.coerce op children := by
  rcases coerce_cases Γ op children with h | ⟨-, name, type, -, -, h⟩
  · rw [h, h]
  · rw [h, coerce, typeOperand?, List.getLast?_concat]
    exact ite_self _

/-- Operands that are bound are bound again as they are. -/
theorem bind_coerce : Γ.bind op name (Γ.coerce op children) names =
    Γ.bind op name children names := by
  rw [bind, bind, coerce_coerce]

/-- Without names, what is bound keeps the order of its operands. -/
theorem bound_of_unnamed (hnames : names.any Option.isSome = false) (action : Action)
    (owner args : TypeDesc) : bound op name children names action owner args =
      .apply
        { op, name, action, type := action.signature.resolveReturn owner args, argNames := names }
        children := by
  rw [bound, if_neg (by simp [hnames])]

/-- An operator is applied to its operands if one action is the most specific for them. -/
theorem applies_of_one {owner args : TypeDesc} {action : Action} (htest : op.isTypeTest = false)
    (htypes : operandTypes op children [] = (owner, args))
    (h : Choice.mostSpecific (Γ.candidates op name owner args) = .one action) :
    Γ.Applies op name children [] (.apply
      { op, name, action, type := action.signature.resolveReturn owner args } children) := by
  refine ⟨?_, action, _, rfl⟩
  rw [bind, coerce_of_not_isTypeTest htest, htypes]
  dsimp only
  rw [h]
  exact congrArg some (bound_of_unnamed rfl action owner args)

/-- An operator is applied to its operands, or else a relation is applied to their comparison. -/
theorem bind_cases (hnames : names.any Option.isSome = false)
    (h : Γ.bind op name children names = some t) :
    Γ.Applies op name (Γ.coerce op children) names t ∨
      op.isRelational = true ∧ ∃ inner,
        Γ.Applies .cmp Operator.cmp.actionName children [] inner ∧
        Γ.Applies op op.actionName [inner, .literal (.scalar "int" (.int 0))] [] t := by
  have hagain := bind_coerce.trans h
  rw [bind] at h
  dsimp only at h
  split at h
  · rename_i action haction
    rw [bound_of_unnamed hnames] at h
    exact .inl ⟨hagain, action, _, (Option.some.inj h).symm⟩
  · cases h
  · split at h
    · rename_i hrelational
      have htest : op.isTypeTest = false := by cases op <;> first | rfl | cases hrelational
      have hcall : op ≠ .call := by rintro rfl; cases hrelational
      have htypes : ∀ xs names, operandTypes op xs names = operandTypes .cmp xs [] := by
        intro xs names
        unfold operandTypes
        rw [if_neg hcall, if_neg (by decide)]
      rw [coerce_of_not_isTypeTest htest, htypes] at h
      obtain ⟨⟨compare, ordering, relation, returns⟩, hcomparison, rfl⟩ :=
        Option.map_eq_some_iff.mp h
      rw [comparison?] at hcomparison
      split at hcomparison
      · rename_i hcompare
        dsimp only at hcomparison
        split at hcomparison
        · rename_i hrelation
          cases hcomparison
          refine .inr ⟨hrelational, _, applies_of_one rfl rfl hcompare, ?_⟩
          exact applies_of_one htest (htypes _ _) hrelation
        · cases hcomparison
      · cases hcomparison
    · cases h

/-- An operator other than type tests and relations is applied to the operands that it has. -/
theorem applies_of_bind (htest : op.isTypeTest = false) (hrelational : op.isRelational = false)
    (hnames : names.any Option.isSome = false) (h : Γ.bind op name children names = some t) :
    Γ.Applies op name children names t := by
  rcases bind_cases hnames h with happlies | ⟨htrue, -⟩
  · rwa [coerce_of_not_isTypeTest htest] at happlies
  · rw [hrelational] at htrue
    cases htrue

end Env

/-! ## Trees as they are read -/

/-- What a scope of the plain language has in common with all others: names mean types of that name,
no function is called like the letters of tuples and types, and none has arguments with names. -/
structure Env.Plain (Γ : Env) : Prop where
  type : ∀ {name type}, Γ.type? name = some type → ∃ leaf, type = .leaf leaf ∧
    TypeDesc.IsLeafName leaf
  letter : ∀ {name owner args}, name ∈ ["P", "D", "E", "T"] →
    Γ.candidates .call name owner args = []
  nameless : ∀ {name fields}, (fields.any fun f => f.1.isSome) = true →
    Γ.candidates .call name .void (.tree fields) = []

/-- A call that is bound in the plain language has no names of arguments. -/
theorem Env.Plain.names_eq {Γ : Env} (hΓ : Γ.Plain) {name : String} {args : List Tree}
    {names : List (Option String)} {t : Tree} (hlength : names.length = args.length)
    (h : Γ.bind .call name args names = some t) : names = List.replicate args.length none := by
  rw [← hlength]
  refine List.eq_replicate_of_mem fun x hx => ?_
  by_contra hsome
  -- the type of the arguments would have the name, so that nothing accepts them
  obtain ⟨i, hi, rfl⟩ := List.getElem_of_mem hx
  have hnamed : ((args.mapIdx fun i child => ((names[i]?).getD none, child.type)).any
      fun f => f.1.isSome) = true :=
    List.any_eq_true.mpr ⟨_, List.getElem_mem (n := i) (by simpa [← hlength] using hi),
      by simpa [hi] using Option.isSome_iff_ne_none.mpr hsome⟩
  have hnone := @hΓ.nameless name _ hnamed
  rw [Env.bind, Env.coerce_of_not_isTypeTest rfl, Env.operandTypes.eq_def, if_pos rfl] at h
  simp [hnone, Choice.mostSpecific, Operator.isRelational] at h

namespace Tree

variable {Γ : Env} {forms : TextForms} {levels : Nat} {t : Tree} {op : Operator}

theorem anyFloat_eq_false {trees : List Tree} (h : anyFloat trees = false) :
    ∀ x ∈ trees, x.hasFloat = false := by
  induction trees with
  | nil => exact fun x hx => absurd hx List.not_mem_nil
  | cons y rest ih =>
    rw [anyFloat, Bool.or_eq_false_iff] at h
    exact List.forall_mem_cons.mpr ⟨h.1, ih h.2⟩

/-- Where all operands have the same number of levels, all are roomy with this number. -/
theorem isRoomy_of_areRoomy {place k : Nat} (hlevels : ∀ place, op.levelsAt place levels = k)
    {trees : List Tree} (h : areRoomy op levels place trees = true) :
    ∀ x ∈ trees, x.isRoomy k = true := by
  induction trees generalizing place with
  | nil => exact fun x hx => absurd hx List.not_mem_nil
  | cons y rest ih =>
    rw [areRoomy, Bool.and_eq_true, hlevels] at h
    exact List.forall_mem_cons.mpr ⟨h.1, ih h.2⟩

/-- Operators whose operands stand on their level have two operands at most. -/
theorem arity_cases (hflat : op.isFlat = true) :
    op.arity = 0 ∨ op.arity = 1 ∧ op.isUnary = true ∨ op.arity = 2 := by
  revert hflat
  cases op <;> decide

theorem applyPieces_signal {b : Binding} (hflat : b.op.isFlat = true) (harity : b.op.arity = 0) :
    Node.applyPieces b [] = [.word b.op.spelling] := by
  obtain ⟨op⟩ := b
  cases op <;> first | rfl | (cases hflat; done) | cases harity

theorem applyPieces_unary {b : Binding} (hop : b.op.isUnary = true) (xs : List Piece) :
    Node.applyPieces b [xs] = .punct "(" :: (.operator b.op.spelling :: xs) ++ [.punct ")"] := by
  obtain ⟨op⟩ := b
  cases op <;> first | rfl | cases hop

theorem applyPieces_binary {b : Binding} (hflat : b.op.isFlat = true) (harity : b.op.arity = 2)
    (xs ys : List Piece) : Node.applyPieces b [xs, ys] =
      .punct "(" :: (xs ++ .operator b.op.spelling :: ys) ++ [.punct ")"] := by
  obtain ⟨op⟩ := b
  cases op <;> first | rfl | (cases hflat; done) | cases harity

/-- An operator whose operands stand on its level echoes if they do. -/
theorem echoes_flat {children : List Tree} (hflat : op.isFlat = true)
    (harity : children.length = op.arity)
    (hchildren : ∀ x ∈ children, ∃ xs, x.Echoes Γ forms levels xs)
    (h : Γ.Applies op op.actionName children [] t) : ∃ ls, t.Echoes Γ forms levels ls := by
  obtain ⟨hbind, action, type, rfl⟩ := h
  rcases arity_cases hflat with hop | ⟨hop, hunary⟩ | hop
  · rw [hop, List.length_eq_zero_iff] at harity
    subst harity
    exact echoes_signal hflat hop hbind (applyPieces_signal hflat hop)
  · rw [hop, List.length_eq_one_iff] at harity
    obtain ⟨x, rfl⟩ := harity
    obtain ⟨xs, hx⟩ := hchildren x (by simp)
    exact echoes_unary hunary hx hbind (applyPieces_unary hunary _)
  · rw [hop, List.length_eq_two] at harity
    obtain ⟨x, y, rfl⟩ := harity
    obtain ⟨xs, hx⟩ := hchildren x (by simp)
    obtain ⟨ys, hy⟩ := hchildren y (by simp)
    cases htest : op.isTypeTest with
    | true => exact echoes_typeTest htest hx hy hbind (applyPieces_binary hflat hop _ _)
    | false => exact echoes_binary hflat htest hop hx hy hbind (applyPieces_binary hflat hop _ _)

end Tree

/-- A tree of operators with all their operands on its level echoes if the operands do and there is
room for the type in the place of a name. -/
theorem Env.Plain.echoes_bind {Γ : Env} (hΓ : Γ.Plain) {forms : TextForms}
    {op : Operator} {operands : List Tree} {levels : Nat} {t : Tree} (hflat : op.isFlat = true)
    (harity : operands.length = op.arity) (h : Γ.bind op op.actionName operands [] = some t)
    (hoperands : ∀ x ∈ operands, x.hasFloat = false → x.isRoomy (levels + 1) = true →
      ∃ xs, x.Echoes Γ forms levels xs)
    (hfloat : t.hasFloat = false) (hroomy : t.isRoomy (levels + 1) = true) :
    ∃ ls, t.Echoes Γ forms levels ls := by
  have hlevels : ∀ {op : Operator}, op.isFlat = true →
      ∀ place, op.levelsAt place (levels + 1) = levels + 1 := by
    intro op hflat place
    cases op <;> first | rfl | cases hflat
  rcases Env.bind_cases rfl h with happlies | ⟨hrelational, inner, hinner, happlies⟩
  · obtain ⟨action, type, rfl⟩ := happlies.shape
    rw [Tree.hasFloat] at hfloat
    rw [Tree.isRoomy, Bool.and_eq_true] at hroomy
    refine Tree.echoes_flat hflat (Env.length_coerce.trans harity) (fun x hx => ?_) happlies
    have hxfloat := Tree.anyFloat_eq_false hfloat x hx
    have hxroomy := Tree.isRoomy_of_areRoomy (hlevels hflat) hroomy.1 x hx
    rcases Env.coerce_cases Γ op operands with heq | ⟨htest, name, type, htype, hne, heq⟩
    · rw [heq] at hx
      exact hoperands x hx hxfloat hxroomy
    · rw [heq] at hx hroomy
      rcases List.mem_append.mp hx with hx | hx
      · exact hoperands x (List.mem_of_mem_dropLast hx) hxfloat hxroomy
      · obtain rfl := List.mem_singleton.mp hx
        obtain ⟨leaf, rfl, hleaf⟩ := hΓ.type htype
        have hroom : 0 < levels := by simpa [htest, Tree.isLiteral] using hroomy.2
        exact (Datum.Spoken.type (.leaf hleaf) hroom).echoes rfl
  · -- the comparison is written out, and is bound as the operand that it is
    obtain ⟨action, type, rfl⟩ := happlies.shape
    obtain ⟨action', type', rfl⟩ := hinner.shape
    have hzero : ∃ xs, (Tree.literal (.scalar "int" (.int 0))).Echoes Γ forms levels xs :=
      (Datum.Spoken.scalar (.int 0) (by decide) (by decide)).echoes rfl
    have htwo : op.arity = 2 := by cases op <;> first | rfl | cases hrelational
    simp only [Tree.hasFloat, Tree.anyFloat, Bool.or_eq_false_iff] at hfloat
    simp only [Tree.isRoomy, Tree.areRoomy, Bool.and_eq_true, hlevels hflat] at hroomy
    have hcompares := Tree.echoes_flat (show Operator.cmp.isFlat = true from rfl)
      (harity.trans htwo) (fun x hx => hoperands x hx (Tree.anyFloat_eq_false hfloat.1 x hx)
        (Tree.isRoomy_of_areRoomy (hlevels rfl) hroomy.1.1.1 x hx)) hinner
    refine Tree.echoes_flat hflat ?_ (fun x hx => ?_) happlies
    · exact htwo.symm
    · rcases List.mem_pair.mp hx with rfl | rfl
      · exact hcompares
      · exact hzero

/-- A call echoes if its arguments do, one level deeper. -/
theorem Env.Plain.echoes_call {Γ : Env} (hΓ : Γ.Plain) {forms : TextForms}
    {levels : Nat} {s : String}
    {args : List Tree} {t : Tree} (hs : IsIdent s)
    (hargs : ∀ x ∈ args, ∃ k, levels = k + 1 ∧ ∃ xs, x.Echoes Γ forms k xs)
    (h : Γ.Applies .call s args (List.replicate args.length none) t) :
    ∃ ls, t.Echoes Γ forms levels ls := by
  obtain ⟨hbind, action, type, rfl⟩ := h
  have hletter : s ∉ ["P", "D", "E", "T"] := by
    intro hmem
    simp [Env.bind, hΓ.letter hmem, Choice.mostSpecific, Operator.isRelational] at hbind
  cases args with
  | nil => exact ⟨_, Tree.echoes_call hs hletter Writes.nil rfl (Tree.call_nil hbind)⟩
  | cons x args =>
    obtain ⟨k, rfl, -⟩ := hargs x List.mem_cons_self
    have hechoes : ∀ y ∈ x :: args, ∃ ys, y.Echoes Γ forms k ys := by
      intro y hy
      obtain ⟨k', hk, hys⟩ := hargs y hy
      rwa [← Nat.succ.inj hk] at hys
    obtain ⟨lss, hlss⟩ := Tree.exists_forall₂ hechoes
    have hwrites := Tree.writes_intersperse (show (",", TokenKind.comma) ∈ _ by decide) hlss
    exact ⟨_, Tree.echoes_call hs hletter hwrites Tree.pieces_call
      (Tree.call_args (by simp) hlss hbind)⟩

/-- What is written for a tree that was read is read back as the tree, with as many levels. -/
theorem Built.echoes {Γ : Env} (hΓ : Γ.Plain) {forms : TextForms} {n : Nat}
    {t : Tree} (h : Built Γ n t) (hfloat : t.hasFloat = false) (hroomy : t.isRoomy n = true) :
    ∃ levels, n = levels + 1 ∧ ∃ ls, t.Echoes Γ forms levels ls := by
  induction h with
  | @literal levels d hd => exact ⟨levels, rfl, hd.echoes hfloat⟩
  | @name levels s hs hcell =>
    have hidentifier : Grammar.identifier Γ s = .literal (.scalar "name" (.name s)) := by
      rw [Grammar.identifier, hcell]
    refine ⟨levels, rfl, _, hidentifier ▸ Tree.echoes_identifier hs ?_⟩
    rw [hidentifier, Tree.pieces, Datum.text, Datum.scalarText_eq rfl]
    simp [Value.plainText]
  | @named levels s cell hs hcell =>
    have hidentifier : Grammar.identifier Γ s = .named cell s := by rw [Grammar.identifier, hcell]
    refine ⟨levels, rfl, _, hidentifier ▸ Tree.echoes_identifier hs ?_⟩
    rw [hidentifier, Tree.pieces]
  | @call levels s args names t hs hargs hlength hbind ih =>
    -- in a plain environment no call is bound that names its arguments
    obtain rfl := hΓ.names_eq hlength hbind
    have happlies := Env.applies_of_bind rfl rfl (by simp) hbind
    obtain ⟨action, type, rfl⟩ := happlies.shape
    rw [Tree.hasFloat] at hfloat
    rw [Tree.isRoomy, Bool.and_eq_true] at hroomy
    have hroomies := Tree.isRoomy_of_areRoomy (fun _ => rfl) hroomy.1
    exact ⟨levels, rfl, hΓ.echoes_call hs
      (fun x hx => ih x hx (Tree.anyFloat_eq_false hfloat x hx) (hroomies x hx)) happlies⟩
  | @flat levels op operands t hflat harity hoperands hbind ih =>
    refine ⟨levels, rfl, hΓ.echoes_bind hflat harity hbind (fun x hx hxfloat hxroomy => ?_)
      hfloat hroomy⟩
    obtain ⟨k, hk, hechoes⟩ := ih x hx hxfloat hxroomy
    rwa [← Nat.succ.inj hk] at hechoes
  | @ifThen levels c x t hc hx hbind ihc ihx =>
    obtain ⟨-, action, type, rfl⟩ := Env.applies_of_bind rfl rfl rfl hbind
    simp only [Tree.hasFloat, Tree.anyFloat, Bool.or_eq_false_iff] at hfloat
    simp only [Tree.isRoomy, Tree.areRoomy, Operator.levelsAt, Bool.and_eq_true] at hroomy
    obtain ⟨k, rfl, cs, hcs⟩ := ihc hfloat.1 hroomy.1.1
    obtain ⟨k', hk, xs, hxs⟩ := ihx hfloat.2.1 hroomy.1.2.1
    obtain rfl := Nat.succ.inj hk
    exact ⟨_, rfl, Tree.echoes_ifThen hcs hxs hbind rfl⟩
  | @ifThenElse levels c x y t hc hx hy hbind ihc ihx ihy =>
    obtain ⟨-, action, type, rfl⟩ := Env.applies_of_bind rfl rfl rfl hbind
    simp only [Tree.hasFloat, Tree.anyFloat, Bool.or_eq_false_iff] at hfloat
    simp only [Tree.isRoomy, Tree.areRoomy, Operator.levelsAt, Bool.and_eq_true] at hroomy
    obtain ⟨k, rfl, cs, hcs⟩ := ihc hfloat.1 hroomy.1.1
    obtain ⟨k', hk, xs, hxs⟩ := ihx hfloat.2.1 hroomy.1.2.1
    obtain ⟨k'', hk', ys, hys⟩ := ihy hfloat.2.2.1 hroomy.1.2.2.1
    obtain rfl := Nat.succ.inj hk
    obtain rfl := Nat.succ.inj hk'
    exact ⟨_, rfl,
      Tree.echoes_ifThenElse hcs hxs hys hbind (by simp [Tree.pieces, Node.applyPieces])⟩
  | @select levels c x y t hc hx hy hbind ihc ihx ihy =>
    obtain ⟨-, action, type, rfl⟩ := Env.applies_of_bind rfl rfl rfl hbind
    simp only [Tree.hasFloat, Tree.anyFloat, Bool.or_eq_false_iff] at hfloat
    simp only [Tree.isRoomy, Tree.areRoomy, Operator.levelsAt, Bool.and_eq_true] at hroomy
    obtain ⟨k, hk, cs, hcs⟩ := ihc hfloat.1 hroomy.1.1
    obtain ⟨k', rfl, xs, hxs⟩ := ihx hfloat.2.1 hroomy.1.2.1
    obtain ⟨k'', hk', ys, hys⟩ := ihy hfloat.2.2.1 hroomy.1.2.2.1
    obtain rfl := Nat.succ.inj hk
    obtain rfl := Nat.succ.inj hk'
    exact ⟨_, rfl, Tree.echoes_select hcs hxs hys hbind (by simp [Tree.pieces, Node.applyPieces])⟩

/-! ## Statements -/

namespace Tree

variable {Γ : Env} {forms : TextForms} {levels : Nat} {trees : List Tree}

theorem statements_echoes {lss : List (List Lexeme)}
    (h : List.Forall₂ (Echoes Γ forms levels) trees lss) {rounds : Nat}
    (hrounds : (lss.intersperse [⟨.semicolon, ";"⟩]).flatten.length < rounds) :
    statements Γ (levels + 1) rounds
    (lss.intersperse [⟨.semicolon, ";"⟩]).flatten = some trees := by
  induction h generalizing rounds with
  | nil =>
    obtain ⟨rounds, rfl⟩ := Nat.exists_eq_add_one.mpr hrounds
    rfl
  | @cons x xs trees lss hx hrest ih =>
    obtain ⟨rounds, rfl⟩ := Nat.exists_eq_add_one.mpr (Nat.zero_lt_of_lt hrounds)
    obtain ⟨l, others, hxs, hl⟩ := hx.starts
    have heof : l.kind ≠ .eof := fun hkind => hl.kind (by simp [hkind])
    have hsemicolon : l.kind ≠ .semicolon := fun hkind => hl.kind (by simp [hkind])
    -- the statement is read up to its end, and what follows is left
    have hstatement : ∀ rest, (ahead rest 0).kind.endsStatement = true →
        statements Γ (levels + 1) (rounds + 1) (xs ++ rest) =
          (statements Γ (levels + 1) rounds rest).map (x :: ·) := by
      intro rest hends
      have hframe : Grammar.frame Γ (levels + 1) [] (xs ++ rest) = some (x, rest) :=
        hx.frame (by simp) (ends_iff.mpr (.inl hends))
      rw [hxs, List.cons_append] at hframe ⊢
      simp [statements, heof, hsemicolon, hframe, hends]
    have hpos : 0 < xs.length := by simp [hxs]
    cases hrest with
    | nil =>
      have hsingle : ([xs].intersperse [(⟨.semicolon, ";"⟩ : Lexeme)]).flatten = xs ++ [] := by simp
      rw [hsingle, List.append_nil] at hrounds
      obtain ⟨rounds, rfl⟩ := Nat.exists_eq_add_one.mpr (show 0 < rounds by omega)
      rw [hsingle, hstatement [] rfl]
      rfl
    | @cons y ys trees lss hy hrest =>
      have hsplit : ((xs :: ys :: lss).intersperse [(⟨.semicolon, ";"⟩ : Lexeme)]).flatten =
          xs ++ ⟨.semicolon, ";"⟩ ::
            ((ys :: lss).intersperse [⟨.semicolon, ";"⟩]).flatten := by simp
      rw [hsplit, List.length_append, List.length_cons] at hrounds
      obtain ⟨rounds, rfl⟩ := Nat.exists_eq_add_one.mpr (show 0 < rounds by omega)
      have hmore := ih (show _ < rounds by omega)
      rw [hsplit, hstatement _ rfl, statements]
      simp [hmore]

/-- What is written for trees that were read as statements is read back as these statements. -/
theorem statements_text (hΓ : Γ.Plain) {n : Nat}
    (hbuilt : ∀ t ∈ trees, Built Γ n t) (hfloat : anyFloat trees = false)
    (hroomy : ∀ t ∈ trees, t.isRoomy n = true) {rounds : Nat} {text : String}
    (htext : text = Layout.render ((piecesOf forms trees).intersperse [.punct ";"]).flatten)
    (hrounds : (lexemes text.toList).length < rounds) :
    statements Γ n rounds (lexemes text.toList) = some trees := by
  have hechoes : ∀ t ∈ trees, ∃ levels, n = levels + 1 ∧ ∃ ls, t.Echoes Γ forms levels ls :=
    fun t ht => (hbuilt t ht).echoes hΓ (anyFloat_eq_false hfloat t ht) (hroomy t ht)
  cases trees with
  | nil =>
    obtain ⟨rounds, rfl⟩ := Nat.exists_eq_add_one.mpr (Nat.zero_lt_of_lt hrounds)
    subst htext
    rfl
  | cons t rest =>
    obtain ⟨levels, rfl, -⟩ := hechoes t List.mem_cons_self
    have hsame : ∀ x ∈ t :: rest, ∃ xs, x.Echoes Γ forms levels xs := by
      intro x hx
      obtain ⟨k, hk, hxs⟩ := hechoes x hx
      rwa [← Nat.succ.inj hk] at hxs
    obtain ⟨lss, hlss⟩ := exists_forall₂ hsame
    have hwrites := writes_intersperse (show (";", TokenKind.semicolon) ∈ _ by decide) hlss
    have hlexemes : lexemes text.toList = (lss.intersperse [⟨.semicolon, ";"⟩]).flatten := by
      simpa [htext] using hwrites.spells.lexemes_render front_nil
    rw [hlexemes] at hrounds ⊢
    exact statements_echoes hlss hrounds

end Tree

end TupleLang
