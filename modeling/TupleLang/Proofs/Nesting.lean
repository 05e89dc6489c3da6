import TupleLang.Proofs.Progress

/-!
# Frames inside frames

What a frame of its own reads is read in the same way inside another frame, as long as the other
frame completes none of its operators meanwhile and may go as deep (`frame_joins`). So the operand
behind `then` that is read in vain, and read again where it stands, is the same tree, although the
second time there is one more level of nesting (`runs_ifThen`).
-/

namespace TupleLang

/-! ## One frame on top of another -/

namespace TreeFrame

/-- The frame on top of another one. -/
def on (f base : TreeFrame) : TreeFrame where
  operands := f.operands ++ base.operands
  pending := f.pending ++ base.pending
  lastOperand := f.lastOperand

/-- No operator completes what is open in the frame. -/
def Firm (f : TreeFrame) : Prop :=
  ∀ w rest, f.pending = .waiting w :: rest → w.op.stackPrecedence < 10

variable (f base : TreeFrame)

@[simp] theorem on_push (t : Tree) : (f.push t).on base = (f.on base).push t := rfl

@[simp] theorem on_await (w : TreeWaiting) : (f.await w).on base = (f.on base).await w := rfl

@[simp] theorem hasOpen_on : (f.on base).hasOpen = (f.hasOpen || base.hasOpen) := List.any_append

@[simp] theorem hasOpen_push (t : Tree) : (f.push t).hasOpen = f.hasOpen := rfl

@[simp] theorem hasOpen_await (w : TreeWaiting) : (f.await w).hasOpen = f.hasOpen := rfl

/-- A frame on top of nothing. -/
theorem empty_on (h : base.lastOperand = false) : ({} : TreeFrame).on base = base := by
  cases base
  simp_all [on]

/-- A frame that waits for an operator that binds loosely is firm. -/
theorem firm_await {w : TreeWaiting} (h : w.op.stackPrecedence < 10) : (f.await w).Firm := by
  intro w' rest hpending
  obtain ⟨hw, -⟩ := List.cons.inj hpending
  rwa [← TreePending.waiting.inj hw]

end TreeFrame

/-- Every operator between operands binds more tightly than an assignment waits. -/
theorem Operator.ten_le_inputPrecedence (op : Operator) : 10 ≤ op.inputPrecedence := by
  cases op <;> decide

namespace Env

variable {Γ : Env} {operands operands' others : List Tree}
  {pending pending' rest : List TreePending}

/-- An operator that has its operands takes no others. -/
theorem reduce_append {w : TreeWaiting} (h : Γ.reduce operands w = some operands') :
    Γ.reduce (operands ++ others) w = some (operands' ++ others) := by
  cases w with
  | single op =>
    rw [reduce] at h ⊢
    split at h
    · cases h
    · rename_i hlen
      obtain ⟨t, ht, rfl⟩ := Option.map_eq_some_iff.mp h
      have hle : op.arity ≤ operands.length := by omega
      rw [if_neg (by rw [List.length_append]; omega), List.take_append_of_le_length hle,
        List.drop_append_of_le_length hle, ht]
      rfl
  | tail op inner =>
    cases operands with
    | nil => cases h
    | cons trailing operands =>
      obtain ⟨t, ht, rfl⟩ := Option.map_eq_some_iff.mp h
      rw [List.cons_append, reduce, ht]
      rfl

/-- Reducing operators does not touch what is below. -/
theorem reduceWhile_append {precedence : Nat}
    (hrest : ∀ w rest', rest = .waiting w :: rest' → w.op.stackPrecedence < precedence)
    (h : Γ.reduceWhile precedence operands pending = some (operands', pending')) :
    Γ.reduceWhile precedence (operands ++ others) (pending ++ rest) =
      some (operands' ++ others, pending' ++ rest) := by
  induction pending generalizing operands with
  | nil =>
    rw [reduceWhile] at h
    · obtain ⟨rfl, rfl⟩ := Prod.mk.inj (Option.some.inj h)
      rw [List.nil_append]
      cases rest with
      | nil => rfl
      | cons p rest =>
        cases p with
        | opening => rfl
        | waiting w => rw [reduceWhile, if_neg (Nat.not_le.mpr (hrest w rest rfl))]
    · exact fun _ _ hp => by cases hp
  | cons p pending ih =>
    cases p with
    | opening =>
      obtain ⟨rfl, rfl⟩ := Prod.mk.inj (Option.some.inj h)
      rfl
    | waiting w =>
      rw [List.cons_append]
      rw [reduceWhile] at h ⊢
      split at h
      · rename_i hle
        obtain ⟨reduced, hreduce, h⟩ := Option.bind_eq_some_iff.mp h
        rw [if_pos hle, reduce_append hreduce, Option.bind_some]
        exact ih h
      · rename_i hlt
        obtain ⟨rfl, rfl⟩ := Prod.mk.inj (Option.some.inj h)
        rw [if_neg hlt]
        rfl

/-- Closing a group does not touch what is below. -/
theorem closeGroup_append (h : Γ.closeGroup operands pending = some (operands', pending')) :
    Γ.closeGroup (operands ++ others) (pending ++ rest) =
      some (operands' ++ others, pending' ++ rest) := by
  induction pending generalizing operands with
  | nil => cases h
  | cons p pending ih =>
    cases p with
    | opening =>
      obtain ⟨rfl, rfl⟩ := Prod.mk.inj (Option.some.inj h)
      rfl
    | waiting w =>
      obtain ⟨reduced, hreduce, h⟩ := Option.bind_eq_some_iff.mp h
      rw [List.cons_append, closeGroup, reduce_append hreduce, Option.bind_some]
      exact ih h

/-- Where all operators in front can be completed, what follows has their result to go on with. -/
theorem closeAll_append (h : Γ.closeAll operands pending = some operands') :
    Γ.closeAll (operands ++ others) (pending ++ rest) = Γ.closeAll (operands' ++ others) rest ∧
      Γ.closeGroup (operands ++ others) (pending ++ rest) =
        Γ.closeGroup (operands' ++ others) rest := by
  induction pending generalizing operands with
  | nil =>
    rw [Option.some.inj h]
    exact ⟨rfl, rfl⟩
  | cons p pending ih =>
    cases p with
    | opening => cases h
    | waiting w =>
      obtain ⟨reduced, hreduce, h⟩ := Option.bind_eq_some_iff.mp h
      rw [List.cons_append, closeAll, closeGroup, reduce_append hreduce]
      exact ih h

/-- Where all operators can be completed, no parenthesis is open. -/
theorem hasOpen_of_closeAll {f : TreeFrame} (h : Γ.closeAll f.operands f.pending = some operands') :
    f.hasOpen = false := by
  obtain ⟨operands, pending, last⟩ := f
  dsimp only at h
  rw [TreeFrame.hasOpen]
  dsimp only
  induction pending generalizing operands with
  | nil => rfl
  | cons p pending ih =>
    cases p with
    | opening => cases h
    | waiting w =>
      obtain ⟨reduced, -, h⟩ := Option.bind_eq_some_iff.mp h
      exact ih reduced h

/-- A frame gives the only operand that is left when all operators are completed. -/
theorem finish_eq_some {f : TreeFrame} {t : Tree} (h : Γ.finish f = some t) :
    f.lastOperand = true ∧ Γ.closeAll f.operands f.pending = some [t] := by
  rw [finish] at h
  split at h
  · rename_i hlast
    obtain ⟨operands, hclose, h⟩ := Option.bind_eq_some_iff.mp h
    split at h
    · rw [← Option.some.inj h]
      exact ⟨hlast, hclose⟩
    · cases h
  · cases h

end Env

/-! ## The end of a frame -/

namespace Grammar

/-- Words that end an inner operand. -/
def stops : List String := ["then", "else", ":"]

/-- A frame without an open parenthesis ends in front of the lexeme. -/
def Ends (ts : List String) (l : Lexeme) : Prop := ({} : TreeFrame).endsAt ts l = true

section Ends

variable {ts ts' : List String} {f g : TreeFrame} {l : Lexeme}

/-- What ends a frame. -/
theorem ends_iff :
    Ends ts l ↔ l.kind.endsStatement = true ∨ l.kind = .comma ∨ l.kind = .rparen ∨
      ∃ w ∈ ts, l.isWord w = true := by
  simp [Ends, TreeFrame.endsAt, TreeFrame.hasOpen, or_assoc]

/-- A frame ends in front of what a frame without an open parenthesis ends at, unless one is
open. -/
theorem endsAt_eq : f.endsAt ts l =
    (l.kind.endsStatement || (!f.hasOpen && ({} : TreeFrame).endsAt ts l)) := by
  have hempty : ({} : TreeFrame).hasOpen = false := rfl
  rw [TreeFrame.endsAt, TreeFrame.endsAt, hempty]
  cases l.kind.endsStatement <;> cases f.hasOpen <;> simp

/-- Where a frame ends there is something that ends it. -/
theorem ends_of_endsAt (h : f.endsAt ts l = true) : Ends ts l := by
  rw [endsAt_eq, Bool.or_eq_true, Bool.and_eq_true] at h
  rcases h with h | ⟨-, h⟩
  · exact ends_iff.mpr (.inl h)
  · exact h

/-- Fewer words end fewer frames. -/
theorem Ends.mono (hsub : ∀ w ∈ ts, w ∈ ts') (h : Ends ts l) : Ends ts' l := by
  rw [ends_iff] at h ⊢
  refine h.imp_right (Or.imp_right (Or.imp_right ?_))
  rintro ⟨w, hw, hword⟩
  exact ⟨w, hsub w hw, hword⟩

/-- A lexeme is one word only. -/
theorem eq_of_isWord {w w' : String} (h : l.isWord w = true)
    (h' : l.isWord w' = true) : w = w' := by
  simp only [Lexeme.isWord, Bool.and_eq_true, beq_iff_eq] at h h'
  exact h.2.symm.trans h'.2

/-- A word that ends operands is no operator between operands. -/
theorem infixed_of_stop {Γ : Env} {inner : List String → Scan Tree} {ls : List Lexeme} {w : String}
    (hw : w ∈ stops) (hword : (ahead ls 0).isWord w = true) : infixed Γ inner ts f ls = none := by
  simp only [Lexeme.isWord, Bool.and_eq_true, beq_iff_eq] at hword
  have hall : ∀ w ∈ stops, w ≠ "?" ∧ w ≠ "is" ∧ Operator.ofSpelling? w false = none := by decide
  obtain ⟨hselect, his, hnone⟩ := hall w hw
  rw [infixed, hword.2, if_neg hselect, if_neg his, hnone]
  rfl

/-- What a frame takes in where others end: a parenthesis that is open in it is closed, and nothing
else goes on. -/
theorem step_of_ends {Γ : Env} {inner : List String → Scan Tree} {levels : Nat} {ls : List Lexeme}
    (hts : ∀ w ∈ ts, w ∈ stops) (hends : Ends ts (ahead ls 0))
    (hstatement : (ahead ls 0).kind.endsStatement = false) (hlast : f.lastOperand = true) :
    step Γ inner ts f levels ls =
      if (ahead ls 0).kind = .rparen then
        (Γ.closeGroup f.operands f.pending).map fun r => (⟨r.1, r.2, true⟩, ls.drop 1)
      else none := by
  rcases ends_iff.mp hends with h | h | h | ⟨w, hw, hword⟩
  · rw [h] at hstatement
    cases hstatement
  · simp [step, h, hlast]
  · simp [step, h, hlast]
  · have hnone : infixed Γ inner ts f ls = none := infixed_of_stop (hts w hw) hword
    simp only [Lexeme.isWord, Bool.and_eq_true, Bool.or_eq_true, beq_iff_eq] at hword
    rcases hword.1 with h | h
    · simp [step, h, hlast, hnone]
    · simp [step, h, hlast, hnone]

/-- At the end of an operand only what the operators that wait come to matters. -/
theorem runs_congr_of_ends {Γ : Env} {levels : Nat} {ls : List Lexeme}
    (hts : ∀ w ∈ ts, w ∈ stops) (hends : Ends ts (ahead ls 0)) (hf : f.lastOperand = true)
    (hg : g.lastOperand = true) (hopen : f.hasOpen = g.hasOpen)
    (hall : Γ.closeAll f.operands f.pending = Γ.closeAll g.operands g.pending)
    (hgroup : Γ.closeGroup f.operands f.pending = Γ.closeGroup g.operands g.pending) :
    runs Γ levels ts f ls = runs Γ levels ts g ls := by
  have hsame : f.endsAt ts (ahead ls 0) = g.endsAt ts (ahead ls 0) := by
    rw [TreeFrame.endsAt, TreeFrame.endsAt, hopen]
  cases hend : g.endsAt ts (ahead ls 0) with
  | true =>
    rw [runs_of_endsAt (hsame.trans hend), runs_of_endsAt hend, Env.finish,
      Env.finish, hf, hg, hall]
  | false =>
    have hstatement : (ahead ls 0).kind.endsStatement = false := by
      rw [endsAt_eq, Bool.or_eq_false_iff] at hend
      exact hend.1
    rw [runs_of_not_endsAt (hsame.trans hend), runs_of_not_endsAt hend,
      step_of_ends hts hends hstatement hf, step_of_ends hts hends hstatement hg, hgroup]

end Ends

/-- Behind a frame there is something that ends it. -/
theorem ends_of_run {Γ : Env} {levels : Nat} {inner : List String → Scan Tree} {ts : List String}
    {rounds : Nat} {f : TreeFrame} {ls rest : List Lexeme} {t : Tree}
    (h : run Γ levels inner ts rounds f ls = some (t, rest)) : Ends ts (ahead rest 0) := by
  induction rounds generalizing f ls with
  | zero => cases h
  | succ rounds ih =>
    rw [run] at h
    split at h
    · rename_i hends
      obtain ⟨t', -, hx⟩ := Option.map_eq_some_iff.mp h
      rw [← (Prod.mk.inj hx).2]
      exact ends_of_endsAt hends
    · obtain ⟨r, -, h⟩ := Option.bind_eq_some_iff.mp h
      exact ih h

/-- What a frame leaves begins with something that ends it. -/
theorem ends_of_frame {Γ : Env} {levels : Nat} {ts : List String} {ls rest : List Lexeme} {t : Tree}
    (h : frame Γ levels ts ls = some (t, rest)) : Ends ts (ahead rest 0) := by
  cases levels with
  | zero => cases h
  | succ levels => exact ends_of_run h

/-! ## Reading an operand inside another frame -/

/-- The lexeme is none of the words `ts'` that are not among `ts`. -/
def Apart (ts' ts : List String) (l : Lexeme) : Prop := ∀ w ∈ ts', l.isWord w = true → w ∈ ts

/-- What ends a frame with more terminators ends one with fewer if it is none of the others. -/
theorem Ends.narrow {ts' ts : List String} {l : Lexeme} (h : Ends ts' l) (hl : Apart ts' ts l) :
    Ends ts l := by
  rw [ends_iff] at h ⊢
  refine h.imp_right (Or.imp_right (Or.imp_right ?_))
  rintro ⟨w, hw, hword⟩
  exact ⟨w, hl w hw hword, hword⟩

/-- A word that is there anyway keeps a lexeme apart from all others. -/
theorem Apart.of_isWord {ts' ts : List String} {l : Lexeme} {w : String} (h : l.isWord w = true)
    (hw : w ∈ ts) : Apart ts' ts l :=
  fun _ _ hword => eq_of_isWord h hword ▸ hw

/-- What is not the word is apart from it. -/
theorem Apart.of_not_isWord {ts : List String} {l : Lexeme} {w : String} (h : l.isWord w = false) :
    Apart (w :: ts) ts l := by
  intro v hv hword
  rcases List.mem_cons.mp hv with rfl | hv
  · rw [h] at hword
    cases hword
  · exact hv

section Joins

variable {Γ : Env} {a b : Nat} {ts' ts : List String} {f f' base : TreeFrame}
  {ls ls' rest : List Lexeme} {t : Tree}

/-- A finished frame on top of another one hands on its tree. -/
theorem runs_on_of_finish (hts : ∀ w ∈ ts, w ∈ stops) (hends : Ends ts (ahead ls 0))
    (hfinish : Γ.finish f = some t) :
    runs Γ b ts (f.on base) ls = runs Γ b ts (base.push t) ls := by
  obtain ⟨hlast, hclose⟩ := Env.finish_eq_some hfinish
  refine runs_congr_of_ends hts hends hlast rfl ?_ (Env.closeAll_append hclose).1
    (Env.closeAll_append hclose).2
  rw [TreeFrame.hasOpen_on, Env.hasOpen_of_closeAll hclose]
  rfl

/-- A frame that has read a single operand gives it. -/
theorem runs_push_of_ends (hends : Ends ts (ahead rest 0)) :
    runs Γ b ts (({} : TreeFrame).push t) rest = some (t, rest) := by
  have hpush : (({} : TreeFrame).push t).endsAt ts (ahead rest 0) = true := hends
  rw [runs_of_endsAt hpush]
  rfl

/-- Operands that frames of `a` levels have read are read in the same way inside other frames. -/
def FramesJoin (Γ : Env) (a : Nat) : Prop :=
  ∀ (b : Nat) (ts' ts : List String) (base : TreeFrame) (ls rest : List Lexeme) (t : Tree),
    a ≤ b + 1 → (∀ w ∈ ts', w ∈ stops) → (∀ w ∈ ts, w ∈ ts') → base.lastOperand = false →
    base.Firm → frame Γ a ts' ls = some (t, rest) → Apart ts' ts (ahead rest 0) →
    runs Γ b ts base ls = runs Γ b ts (base.push t) rest

/-- Such operands are read in the same way by frames with more levels and fewer words at the end. -/
theorem FramesJoin.frame_mono (hjoin : FramesJoin Γ a) (hab : a ≤ b) (hts' : ∀ w ∈ ts', w ∈ stops)
    (hsub : ∀ w ∈ ts, w ∈ ts') (h : frame Γ a ts' ls = some (t, rest))
    (hrest : Apart ts' ts (ahead rest 0)) : frame Γ b ts ls = some (t, rest) := by
  cases b with
  | zero =>
    rw [Nat.le_zero.mp hab] at h
    cases h
  | succ b =>
    have hfirm : ({} : TreeFrame).Firm := fun w rest h => by cases h
    have hruns := hjoin b ts' ts {} ls rest t hab hts' hsub rfl hfirm h hrest
    have hends : Ends ts (ahead rest 0) := (ends_of_frame h).narrow hrest
    rw [frame_succ, hruns, runs_push_of_ends hends]

section Steps

variable (hjoin : FramesJoin Γ a) (hab : a ≤ b) (hts' : ∀ w ∈ ts', w ∈ stops)
  (hsub : ∀ w ∈ ts, w ∈ ts')

include hjoin hab

/-- Arguments that are read are read with more levels as well. -/
theorem callArgs_mono (rounds : Nat) (args : List Tree) (names : List (Option String)) :
    Below (callArgs (frame Γ a) rounds args names) (callArgs (frame Γ b) rounds args names) := by
  induction rounds generalizing args names with
  | zero =>
    intro ls r h
    cases h
  | succ rounds ih =>
    intro ls r h
    rw [callArgs] at h ⊢
    obtain ⟨name, hname, h⟩ := Option.bind_eq_some_iff.mp h
    obtain ⟨⟨arg, ls₁⟩, harg, h⟩ := Option.bind_eq_some_iff.mp h
    have hmono : frame Γ b [] name.2 = some (arg, ls₁) :=
      hjoin.frame_mono hab (by simp) (by simp) harg fun w hw => absurd hw List.not_mem_nil
    rw [hname, Option.bind_some, hmono, Option.bind_some]
    dsimp only at h ⊢
    split at h
    · exact ih _ _ _ _ h
    · exact h
    · cases h

/-- An operand that is read is read with more levels as well. -/
theorem operand_mono : Below (operand Γ (frame Γ a) a) (operand Γ (frame Γ b) b) := by
  intro ls r h
  rw [operand] at h ⊢
  split at h
  · split at h
    · rename_i hcall
      rw [if_pos hcall]
      rw [call] at h ⊢
      obtain ⟨args, hargs, h⟩ := Option.bind_eq_some_iff.mp h
      split at hargs
      · rename_i hclose
        rwa [if_pos hclose, hargs]
      · rename_i hclose
        rwa [if_neg hclose, callArgs_mono hjoin hab _ _ _ _ _ hargs]
    · rename_i hcall
      rwa [if_neg hcall]
  · obtain ⟨d, hd, rfl⟩ := Option.map_eq_some_iff.mp h
    rw [read_mono hab _ _ hd]
    rfl
  · obtain ⟨d, hd, rfl⟩ := Option.map_eq_some_iff.mp h
    rw [read_mono hab _ _ hd]
    rfl
  · exact h

include hts' hsub

/-- A selection that is read is read with more levels as well. -/
theorem selection_mono (left : Tree) :
    Below (selection (frame Γ a) ts' left) (selection (frame Γ b) ts left) := by
  intro ls r h
  rw [selection] at h ⊢
  obtain ⟨⟨branch, ls₁⟩, hbranch, h⟩ := Option.bind_eq_some_iff.mp h
  dsimp only at h
  split at h
  · rename_i hcolon
    have hmono : frame Γ b (":" :: ts) ls = some (branch, ls₁) := by
      refine hjoin.frame_mono hab ?_ ?_ hbranch (.of_isWord hcolon List.mem_cons_self)
      · exact List.forall_mem_cons.mpr ⟨by decide, hts'⟩
      · exact List.forall_mem_cons.mpr
          ⟨List.mem_cons_self, fun w hw => List.mem_cons_of_mem _ (hsub w hw)⟩
    rw [hmono, Option.bind_some, if_pos hcolon]
    exact h
  · cases h

/-- A conditional is resolved in the same way. What stands behind `then` without an `else` has to
end where the frame around the conditional ends, too. -/
theorem conditional_mono {r : (Operator × List Tree) × List Lexeme}
    (h : conditional (frame Γ a) ts' ls = some r)
    (hopen : r.1.1 = .ifThen → ∀ x ls', frame Γ a ("else" :: ts') r.2 = some (x, ls') →
      (ahead ls' 0).isWord "else" = false → Apart ts' ts (ahead ls' 0)) :
    conditional (frame Γ b) ts ls = some r := by
  -- a stop that is added to both lists leaves one inside the other
  have hcons : ∀ w ∈ stops, ∀ us us' : List String, (∀ v ∈ us', v ∈ stops) → (∀ v ∈ us, v ∈ us') →
      (∀ v ∈ w :: us', v ∈ stops) ∧ ∀ v ∈ w :: us, v ∈ w :: us' := by
    intro w hw us us' hus' hus
    exact ⟨List.forall_mem_cons.mpr ⟨hw, hus'⟩, List.forall_mem_cons.mpr
      ⟨List.mem_cons_self, fun v hv => List.mem_cons_of_mem _ (hus v hv)⟩⟩
  rw [conditional] at h ⊢
  obtain ⟨⟨c, ls₁⟩, hc, h⟩ := Option.bind_eq_some_iff.mp h
  dsimp only at h
  split at h
  · rename_i hthen
    have hthens := hcons "then" (by decide) ts ts' hts' hsub
    have hthens₂ := hcons "then" (by decide) _ _ hthens.1 hthens.2
    have hmono : frame Γ b ("then" :: "then" :: ts) ls = some (c, ls₁) :=
      hjoin.frame_mono hab hthens₂.1 hthens₂.2 hc (.of_isWord hthen List.mem_cons_self)
    rw [hmono, Option.bind_some, if_pos hthen]
    obtain ⟨⟨x, ls₂⟩, hx, h⟩ := Option.bind_eq_some_iff.mp h
    have helses := hcons "else" (by decide) ts ts' hts' hsub
    dsimp only at h hx ⊢
    split at h
    · rename_i helse
      have hbranch : frame Γ b ("else" :: ts) (ls₁.drop 1) = some (x, ls₂) :=
        hjoin.frame_mono hab helses.1 helses.2 hx (.of_isWord helse List.mem_cons_self)
      rw [hbranch, Option.bind_some, if_pos helse]
      exact h
    · rename_i helse
      obtain rfl := Option.some.inj h
      -- a branch that no `else` follows ends where a word of the larger list would end it
      have hapart := hopen rfl x ls₂ hx (by simpa using helse)
      have hbranch : frame Γ b ("else" :: ts) (ls₁.drop 1) = some (x, ls₂) := by
        refine hjoin.frame_mono hab helses.1 helses.2 hx fun w hw hword => ?_
        rcases List.mem_cons.mp hw with rfl | hw
        · exact List.mem_cons_self
        · exact List.mem_cons_of_mem _ (hapart w hw hword)
      rw [hbranch, Option.bind_some, if_neg helse]
  · cases h

omit hsub hab in

/-- An operand that is read in vain ends where the frame around it goes on to its end. -/
theorem apart_of_runs (hf : f.lastOperand = false) (hfirm : f.Firm)
    (hruns : runs Γ a ts' f ls = some (t, rest)) (hrest : Apart ts' ts (ahead rest 0)) {x : Tree}
    (hx : frame Γ a ("else" :: ts') ls = some (x, ls'))
    (helse : (ahead ls' 0).isWord "else" = false) : Apart ts' ts (ahead ls' 0) := by
  have hstops : ∀ w ∈ "else" :: ts', w ∈ stops := List.forall_mem_cons.mpr ⟨by decide, hts'⟩
  rw [hjoin a _ ts' f ls ls' x (Nat.le_succ a) hstops
    (fun w hw => List.mem_cons_of_mem _ hw) hf hfirm hx (.of_not_isWord helse)] at hruns
  intro w hw hword
  cases hend : (f.push x).endsAt ts' (ahead ls' 0) with
  | true =>
    rw [runs_of_endsAt hend] at hruns
    obtain ⟨t', -, hpair⟩ := Option.map_eq_some_iff.mp hruns
    obtain ⟨-, rfl⟩ := Prod.mk.inj hpair
    exact hrest w hw hword
  | false =>
    -- a word does not close the parenthesis that is open
    have hends : Ends ts' (ahead ls' 0) := ends_iff.mpr (.inr (.inr (.inr ⟨w, hw, hword⟩)))
    simp only [Lexeme.isWord, Bool.and_eq_true, Bool.or_eq_true, beq_iff_eq] at hword
    have hkind : (ahead ls' 0).kind.endsStatement = false ∧ (ahead ls' 0).kind ≠ .rparen := by
      rcases hword.1 with h | h <;> rw [h] <;> decide
    rw [runs_of_not_endsAt hend, step_of_ends hts' hends hkind.1 rfl, if_neg hkind.2] at hruns
    cases hruns

/-- A prefix operator is read on top of another frame. -/
theorem prefixed_on (h : prefixed Γ (frame Γ a) ts' f ls = some (f', ls'))
    (hruns : runs Γ a ts' f' ls' = some (t, rest)) (hrest : Apart ts' ts (ahead rest 0)) :
    prefixed Γ (frame Γ b) ts (f.on base) ls = some (f'.on base, ls') := by
  rw [prefixed] at h ⊢
  split at h
  · rename_i hif
    obtain ⟨⟨⟨op, operands⟩, ls₁⟩, hcond, hx⟩ := Option.map_eq_some_iff.mp h
    obtain ⟨rfl, rfl⟩ := Prod.mk.inj hx
    have hmono : conditional (frame Γ b) ts (ls.drop 1) = some ((op, operands), ls₁) := by
      refine conditional_mono hjoin hab hts' hsub hcond fun hop x ls₂ hx helse => ?_
      have hfirm : (f.await (.tail op operands)).Firm := by
        refine f.firm_await ?_
        change op.stackPrecedence < 10
        rw [show op = .ifThen from hop]
        decide
      exact apart_of_runs hjoin hts' rfl hfirm hruns hrest hx helse
    rw [if_pos hif, hmono]
    rfl
  · rename_i hif
    rw [if_neg hif]
    obtain ⟨op, hop, h⟩ := Option.bind_eq_some_iff.mp h
    rw [hop, Option.bind_some]
    split at h
    · rename_i harity
      obtain ⟨t', ht', hx⟩ := Option.map_eq_some_iff.mp h
      obtain ⟨rfl, rfl⟩ := Prod.mk.inj hx
      rw [if_pos harity, ht']
      rfl
    · rename_i harity
      obtain ⟨rfl, rfl⟩ := Prod.mk.inj (Option.some.inj h)
      rw [if_neg harity]
      rfl

omit hjoin hab hts' hsub in

/-- What follows the reduction of operators is read on top of another frame. -/
theorem resolveAfter_on (hfirm : base.Firm) {precedence : Nat} (hprecedence : 10 ≤ precedence)
    {resolve resolve' : Tree → Scan (Operator × List Tree)}
    (hresolve : ∀ left, Below (resolve left) (resolve' left))
    (h : resolveAfter Γ f precedence resolve ls = some (f', ls')) :
    resolveAfter Γ (f.on base) precedence resolve' ls = some (f'.on base, ls') := by
  rw [resolveAfter] at h ⊢
  obtain ⟨⟨operands, pending⟩, hreduce, h⟩ := Option.bind_eq_some_iff.mp h
  have hon : Γ.reduceWhile precedence (f.on base).operands (f.on base).pending =
      some (operands ++ base.operands, pending ++ base.pending) := by
    refine Env.reduceWhile_append (fun w rest hw => ?_) hreduce
    exact Nat.lt_of_lt_of_le (hfirm w rest hw) hprecedence
  rw [hon, Option.bind_some]
  cases operands with
  | nil => cases h
  | cons left operands =>
    obtain ⟨r, hr, hx⟩ := Option.map_eq_some_iff.mp h
    obtain ⟨rfl, rfl⟩ := Prod.mk.inj hx
    dsimp only [List.cons_append]
    rw [hresolve left _ _ hr]
    rfl

/-- An infix operator is read on top of another frame. -/
theorem infixed_on (hfirm : base.Firm) (h : infixed Γ (frame Γ a) ts' f ls = some (f', ls')) :
    infixed Γ (frame Γ b) ts (f.on base) ls = some (f'.on base, ls') := by
  rw [infixed] at h ⊢
  split at h
  · rename_i hselect
    rw [if_pos hselect]
    exact resolveAfter_on hfirm (by decide) (selection_mono hjoin hab hts' hsub) h
  · rename_i hselect
    rw [if_neg hselect]
    split at h
    · rename_i his
      rw [if_pos his]
      exact resolveAfter_on hfirm (by decide) (fun left => .refl _) h
    · rename_i his
      rw [if_neg his]
      obtain ⟨op, hop, h⟩ := Option.bind_eq_some_iff.mp h
      obtain ⟨⟨operands, pending⟩, hreduce, hx⟩ := Option.map_eq_some_iff.mp h
      obtain ⟨rfl, rfl⟩ := Prod.mk.inj hx
      have hon : Γ.reduceWhile op.inputPrecedence (f.on base).operands (f.on base).pending =
          some (operands ++ base.operands, pending ++ base.pending) := by
        refine Env.reduceWhile_append (fun w rest hw => ?_) hreduce
        exact Nat.lt_of_lt_of_le (hfirm w rest hw) op.ten_le_inputPrecedence
      rw [hop, Option.bind_some, hon]
      rfl

/-- A frame on top of another one takes in lexemes as it does on its own. -/
theorem step_on (hfirm : base.Firm) (h : step Γ (frame Γ a) ts' f a ls = some (f', ls'))
    (hruns : runs Γ a ts' f' ls' = some (t, rest)) (hrest : Apart ts' ts (ahead rest 0)) :
    step Γ (frame Γ b) ts (f.on base) b ls = some (f'.on base, ls') := by
  have hlast : (f.on base).lastOperand = f.lastOperand := rfl
  -- what stands below only matters where an operator takes operands from it
  have hoperator : (if f.lastOperand = true then infixed Γ (frame Γ a) ts' f ls
        else prefixed Γ (frame Γ a) ts' f ls) = some (f', ls') →
      (if (f.on base).lastOperand = true then infixed Γ (frame Γ b) ts (f.on base) ls
        else prefixed Γ (frame Γ b) ts (f.on base) ls) = some (f'.on base, ls') := by
    rw [hlast]
    intro h
    split at h
    · rename_i hoperand
      rw [if_pos hoperand]
      exact infixed_on hjoin hab hts' hsub hfirm h
    · rename_i hoperand
      rw [if_neg hoperand]
      exact prefixed_on hjoin hab hts' hsub h hruns hrest
  rw [step] at h ⊢
  split at h
  · split at h
    · rename_i hoperand
      obtain ⟨⟨operands, pending⟩, hclose, hx⟩ := Option.map_eq_some_iff.mp h
      obtain ⟨rfl, rfl⟩ := Prod.mk.inj hx
      have hon : Γ.closeGroup (f.on base).operands (f.on base).pending =
          some (operands ++ base.operands, pending ++ base.pending) :=
        Env.closeGroup_append hclose
      rw [hlast, if_pos hoperand, hon]
      rfl
    · cases h
  · split at h
    · cases h
    · rename_i hoperand
      obtain ⟨rfl, rfl⟩ := Prod.mk.inj (Option.some.inj h)
      rw [hlast, if_neg hoperand]
      rfl
  · exact hoperator h
  · exact hoperator h
  · split at h
    · cases h
    · rename_i hoperand
      obtain ⟨⟨t', ls₁⟩, ht', hx⟩ := Option.map_eq_some_iff.mp h
      obtain ⟨rfl, rfl⟩ := Prod.mk.inj hx
      rw [hlast, if_neg hoperand, operand_mono hjoin hab _ _ ht']
      rfl

/-- What a frame reads is read in the same way on top of another one. -/
theorem runs_on (hfirm : base.Firm) (hruns : runs Γ a ts' f ls = some (t, rest))
    (hrest : Apart ts' ts (ahead rest 0)) :
    runs Γ b ts (f.on base) ls = runs Γ b ts (base.push t) rest := by
  have hts : ∀ w ∈ ts, w ∈ stops := fun w hw => hts' w (hsub w hw)
  -- by induction on the number of lexemes ahead
  induction hn : ls.length using Nat.strong_induction_on generalizing f ls with
  | _ n ih =>
    cases hend : f.endsAt ts' (ahead ls 0) with
    | true =>
      rw [runs_of_endsAt hend] at hruns
      obtain ⟨t', hfinish, hx⟩ := Option.map_eq_some_iff.mp hruns
      obtain ⟨rfl, rfl⟩ := Prod.mk.inj hx
      exact runs_on_of_finish hts ((ends_of_endsAt hend).narrow hrest) hfinish
    | false =>
      have hne : ls ≠ [] := by
        rintro rfl
        rw [endsAt_nil] at hend
        cases hend
      have hpos := List.length_pos_of_ne_nil hne
      have hend' : (f.on base).endsAt ts (ahead ls 0) = false := by
        rw [endsAt_eq, Bool.or_eq_false_iff, Bool.and_eq_false_iff] at hend ⊢
        refine ⟨hend.1, ?_⟩
        rw [TreeFrame.hasOpen_on]
        rcases hend.2 with hopen | hends
        · left
          rw [Bool.not_eq_false'] at hopen
          rw [hopen]
          rfl
        · right
          refine Bool.eq_false_iff.mpr fun h => ?_
          rw [Ends.mono hsub h] at hends
          cases hends
      rw [runs_of_not_endsAt hend] at hruns
      obtain ⟨⟨f', ls'⟩, hstep, hruns⟩ := Option.bind_eq_some_iff.mp hruns
      have hle := passes_step (passes_frame Γ a) ts' f a _ _ _ hstep
      rw [runs_of_not_endsAt hend', step_on hjoin hab hts' hsub hfirm hstep hruns hrest]
      exact ih ls'.length (by omega) hruns rfl

end Steps

/-- What a frame of its own reads is read in the same way inside another frame. -/
theorem frame_joins (Γ : Env) (a : Nat) : FramesJoin Γ a := by
  induction a with
  | zero =>
    intro b ts' ts base ls rest t _ _ _ _ _ h
    cases h
  | succ a ih =>
    intro b ts' ts base ls rest t hab hts' hsub hbase hfirm h hrest
    have hjoined := runs_on ih (Nat.le_of_succ_le_succ hab) hts' hsub hfirm h hrest
    rwa [base.empty_on hbase] at hjoined

/-- At the end of its last operand an operator of several tokens is completed. -/
theorem runs_tail_of_ends (hts : ∀ w ∈ ts, w ∈ stops) (hends : Ends ts (ahead ls 0)) {op : Operator}
    {operands : List Tree} {x : Tree} :
    runs Γ a ts ((f.await (.tail op operands)).push x) ls =
      (Γ.bind op op.actionName (operands ++ [x]) []).bind fun t => runs Γ a ts (f.push t) ls := by
  let g := (f.await (.tail op operands)).push x
  have hclose : Γ.closeAll g.operands g.pending =
    ((Γ.bind op op.actionName (operands ++ [x]) []).map
      (· :: f.operands)).bind fun operands => Γ.closeAll operands f.pending := rfl
  have hgroup : Γ.closeGroup g.operands g.pending =
      ((Γ.bind op op.actionName (operands ++ [x]) []).map (· :: f.operands)).bind
        fun operands => Γ.closeGroup operands f.pending := rfl
  cases hbind : Γ.bind op op.actionName (operands ++ [x]) [] with
  | some t =>
    rw [hbind] at hclose hgroup
    exact runs_congr_of_ends hts hends rfl rfl rfl hclose hgroup
  | none =>
    rw [hbind] at hclose hgroup
    change runs Γ a ts g ls = none
    have hlast : g.lastOperand = true := rfl
    cases hend : g.endsAt ts (ahead ls 0) with
    | true => rw [runs_of_endsAt hend, Env.finish, if_pos hlast, hclose]; rfl
    | false =>
      have hstatement : (ahead ls 0).kind.endsStatement = false := by
        rw [endsAt_eq, Bool.or_eq_false_iff] at hend
        exact hend.1
      rw [runs_of_not_endsAt hend, step_of_ends hts hends hstatement hlast, hgroup]
      split <;> rfl

/-- A conditional without `else` takes the operand that was read in vain. -/
theorem runs_ifThen (hts : ∀ w ∈ ts, w ∈ stops) {c x : Tree}
    (hx : frame Γ a ("else" :: ts) ls = some (x, rest))
    (helse : (ahead rest 0).isWord "else" = false) :
    runs Γ a ts (f.await (.tail .ifThen [c])) ls =
      (Γ.bind .ifThen Operator.ifThen.actionName [c, x] []).bind
        fun t => runs Γ a ts (f.push t) rest := by
  have hstops : ∀ w ∈ "else" :: ts, w ∈ stops := List.forall_mem_cons.mpr ⟨by decide, hts⟩
  have hapart : Apart ("else" :: ts) ts (ahead rest 0) := .of_not_isWord helse
  have hfirm : (f.await (.tail .ifThen [c])).Firm := f.firm_await (show 8 < 10 by decide)
  rw [frame_joins Γ a a _ ts _ ls rest x (Nat.le_succ a) hstops
    (fun w hw => List.mem_cons_of_mem _ hw) rfl hfirm hx hapart]
  exact runs_tail_of_ends hts ((ends_of_frame hx).narrow hapart)

end Joins

end Grammar

end TupleLang
