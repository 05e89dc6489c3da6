import TupleLang.Proofs.ExprGrammar

/-!
# Reading with more leeway

What is read with so many levels of nesting is read in the same way with more (`read_repeats`). An
expression is also read in the same way when `else` no longer ends it, unless it is in front of
`else` that it has ended (`frame_repeats`). An inner frame never ends there: whatever reads it
expects another word behind it, or expects `else` itself.
-/

namespace TupleLang.Grammar

/-! ## More levels -/

/-- Whatever the first reader gives, the second one gives too. -/
def Repeats {α : Type} (m m' : Scan α) : Prop := ∀ ls r, m ls = some r → m' ls = some r

/-- An element of a type is read again with more leeway if what is nested is. -/
theorem typeElement_repeats {nested nested' : Scan TypeDesc} (h : Repeats nested nested') :
    Repeats (typeElement nested) (typeElement nested') := by
  intro ls r hr
  unfold typeElement at hr ⊢
  split at hr
  · exact h _ _ hr
  · exact h _ _ hr
  · exact hr
  · exact hr
  · cases hr

/-- So are the elements of a type. -/
theorem typeElements_repeats {nested nested' : Scan TypeDesc} (h : Repeats nested nested')
    (rounds : Nat) (fields : List TypeDesc.Field) (comma : Bool) :
    Repeats (typeElements nested rounds fields comma)
    (typeElements nested' rounds fields comma) := by
  induction rounds generalizing fields comma with
  | zero => exact fun ls r hr => hr
  | succ rounds ih =>
    intro ls r hr
    unfold typeElements at hr ⊢
    split at hr
    · rename_i hclose
      rwa [if_pos hclose]
    · rename_i hclose
      obtain ⟨name, hname, hr⟩ := Option.bind_eq_some_iff.mp hr
      obtain ⟨element, helement, hr⟩ := Option.bind_eq_some_iff.mp hr
      rw [if_neg hclose, hname, Option.bind_some, typeElement_repeats h _ _ helement,
        Option.bind_some]
      dsimp only at hr ⊢
      split at hr
      · exact ih _ _ _ _ hr
      · exact hr
      · cases hr

/-- A type is read again one level further up. -/
theorem typeBody_repeats (levels : Nat) : Repeats (typeBody levels) (typeBody (levels + 1)) := by
  induction levels with
  | zero => exact fun ls r hr => by cases hr
  | succ levels ih => exact fun ls r hr => typeElements_repeats ih _ _ _ ls r hr

/-- A value is read again if tuples are. -/
theorem value_repeats {levels : Nat} {tuple tuple' : TupleKind → Scan Datum}
    (h : ∀ kind, Repeats (tuple kind) (tuple' kind)) :
    Repeats (value levels tuple) (value (levels + 1) tuple') := by
  intro ls r hr
  unfold value at hr ⊢
  dsimp only at hr ⊢
  split at hr
  · exact h _ _ _ hr
  · exact h _ _ _ hr
  · exact h _ _ _ hr
  · obtain ⟨type, htype, rfl⟩ := Option.map_eq_some_iff.mp hr
    rw [typeBody_repeats levels _ _ htype]
    rfl
  · exact hr
  · exact hr

/-- So are the elements of a tuple. -/
theorem elements_repeats {kind : TupleKind} {value value' nested nested' : Scan Datum}
    (hvalue : Repeats value value') (hnested : Repeats nested nested') (rounds : Nat)
    (entries : List Datum.Entry) :
    Repeats (elements kind value nested rounds entries)
      (elements kind value' nested' rounds entries) := by
  induction rounds generalizing entries with
  | zero => exact fun ls r hr => hr
  | succ rounds ih =>
    intro ls r hr
    unfold elements at hr ⊢
    split at hr
    · rename_i hclose
      rwa [if_pos hclose]
    · rename_i hclose
      obtain ⟨name, hname, hr⟩ := Option.bind_eq_some_iff.mp hr
      obtain ⟨entry, hentry, hr⟩ := Option.bind_eq_some_iff.mp hr
      -- an element is a tuple behind a bare parenthesis, or a value
      have hentry' : element value' nested' name.2 = some entry := by
        unfold element at hentry ⊢
        split at hentry
        · rename_i hopen
          rw [if_pos hopen]
          exact hnested _ _ hentry
        · rename_i hopen
          rw [if_neg hopen]
          exact hvalue _ _ hentry
      rw [if_neg hclose, hname, Option.bind_some, hentry', Option.bind_some]
      dsimp only at hr ⊢
      split at hr
      · exact ih _ _ _ hr
      · exact hr
      · cases hr

/-- A tuple is read again one level further up. -/
theorem tuple_repeats (levels : Nat) (kind : TupleKind) :
    Repeats (tuple levels kind) (tuple (levels + 1) kind) := by
  induction levels generalizing kind with
  | zero => exact fun ls r hr => by cases hr
  | succ levels ih => exact fun ls r hr => elements_repeats (value_repeats ih) (ih kind) _ _ ls r hr

/-- A value is read in the same way with more levels. -/
theorem read_repeats (levels : Nat) : Repeats (read levels) (read (levels + 1)) :=
  value_repeats (tuple_repeats levels)

/-! ## Fewer words to end at -/

/-- Without the words that are left out, the same words are left as before but for `else`. -/
structure Spares (ts ts' : List String) : Prop where
  kept : ∀ w ∈ ts', w ∈ ts
  gone : ∀ w ∈ ts, w = "else" ∨ w ∈ ts'

/-- One more terminator on both sides. -/
theorem Spares.cons {ts ts' : List String} (h : Spares ts ts') (w : String) :
    Spares (w :: ts) (w :: ts') where
  kept := by
    intro v hv
    rcases List.mem_cons.mp hv with rfl | hv
    · exact List.mem_cons_self
    · exact List.mem_cons_of_mem _ (h.kept v hv)
  gone := by
    intro v hv
    rcases List.mem_cons.mp hv with rfl | hv
    · exact .inr List.mem_cons_self
    · exact (h.gone v hv).imp_right (List.mem_cons_of_mem _)

/-- Terminators spare themselves. -/
protected theorem Spares.refl (ts : List String) : Spares ts ts := ⟨fun _ h => h, fun _ h => .inr h⟩

/-- Where `else` stands, it is one of the words. -/
def Elsewise (ts : List String) (ls : List Lexeme) : Prop :=
  (ahead ls 0).isWord "else" = true → "else" ∈ ts

/-- In front of another word there is no `else`. -/
theorem elsewise_of_isWord {ts : List String} {ls : List Lexeme} {w : String}
    (h : (ahead ls 0).isWord w = true) (hw : w ≠ "else") : Elsewise ts ls := by
  intro helse
  rw [Lexeme.isWord, Bool.and_eq_true, beq_iff_eq] at h helse
  exact absurd (h.2.symm.trans helse.2) hw

/-- What is neither symbol nor keyword terminates nothing. -/
theorem elsewise_of_kind {ts : List String} {ls : List Lexeme}
    (h : (ahead ls 0).kind ∉ [.symbol, .keyword]) : Elsewise ts ls := by
  intro helse
  rw [Lexeme.isWord, Bool.and_eq_true, Bool.or_eq_true, beq_iff_eq, beq_iff_eq] at helse
  exact absurd helse.1 (by simpa using h)

/-- Whatever frames the first reader gives, the second one gives too when `else` is among the words
no longer, unless they have ended in front of `else`. -/
def RepeatsFrames (inner inner' : List String → Scan Tree) : Prop :=
  ∀ ts ts' ls r, Spares ts ts' → inner ts ls = some r → Elsewise ts' r.2 → inner' ts' ls = some r

/-- A frame ends where it would with other words, if the one ahead is among them too. -/
theorem endsAt_mono {ts ts' : List String} {f : TreeFrame} {l : Lexeme} (h : f.endsAt ts l = true)
    (hwords : ∀ w ∈ ts, l.isWord w = true → w ∈ ts') : f.endsAt ts' l = true := by
  unfold TreeFrame.endsAt at h ⊢
  rw [Bool.or_eq_true, Bool.and_eq_true, Bool.or_eq_true] at h ⊢
  refine h.imp_right (And.imp_right (Or.imp_right fun hany => ?_))
  obtain ⟨w, hw, hword⟩ := List.any_eq_true.mp hany
  exact List.any_eq_true.mpr ⟨w, hwords w hw hword, hword⟩

section Frames

variable {Γ : Env} {inner inner' : List String → Scan Tree} {ts ts' : List String}
  (hinner : RepeatsFrames inner inner')

include hinner

/-- A conditional is read again. -/
theorem conditional_repeats (hts : Spares ts ts') :
    Repeats (conditional inner ts) (conditional inner' ts') := by
  intro ls r hr
  unfold conditional at hr ⊢
  obtain ⟨condition, hcondition, hr⟩ := Option.bind_eq_some_iff.mp hr
  split at hr
  · rename_i hthen
    -- the branch has `else` among its terminators, so it may end in front of one
    obtain ⟨branch, hbranch, hr⟩ := Option.bind_eq_some_iff.mp hr
    rw [hinner _ _ _ _ ((hts.cons _).cons _) hcondition (elsewise_of_isWord hthen (by decide)),
      Option.bind_some, if_pos hthen, hinner _ _ _ _ (hts.cons _) hbranch fun _ =>
        List.mem_cons_self]
    exact hr
  · cases hr

/-- A selection is read again. -/
theorem selection_repeats (hts : Spares ts ts') (left : Tree) :
    Repeats (selection inner ts left) (selection inner' ts' left) := by
  intro ls r hr
  unfold selection at hr ⊢
  obtain ⟨branch, hbranch, hr⟩ := Option.bind_eq_some_iff.mp hr
  split at hr
  · rename_i hcolon
    rw [hinner _ _ _ _ (hts.cons _) hbranch (elsewise_of_isWord hcolon (by decide)),
      Option.bind_some, if_pos hcolon]
    exact hr
  · cases hr

/-- Arguments are read again. -/
theorem callArgs_repeats (rounds : Nat) (args : List Tree) (names : List (Option String)) :
    Repeats (callArgs inner rounds args names) (callArgs inner' rounds args names) := by
  induction rounds generalizing args names with
  | zero => exact fun ls r hr => hr
  | succ rounds ih =>
    intro ls r hr
    unfold callArgs at hr ⊢
    obtain ⟨name, hname, hr⟩ := Option.bind_eq_some_iff.mp hr
    obtain ⟨arg, harg, hr⟩ := Option.bind_eq_some_iff.mp hr
    -- an argument ends at a comma or a parenthesis, never at a word
    have hend : (ahead arg.2 0).kind ∉ [.symbol, .keyword] := by
      intro hkind
      rcases List.mem_pair.mp hkind with hkind | hkind <;> simp [hkind] at hr
    rw [hname, Option.bind_some, hinner _ _ _ _ (.refl []) harg (elsewise_of_kind hend),
      Option.bind_some]
    dsimp only at hr ⊢
    split at hr
    · exact ih _ _ _ _ hr
    · exact hr
    · cases hr

/-- A call is read again. -/
theorem call_repeats : Repeats (call Γ inner) (call Γ inner') := by
  intro ls r hr
  unfold call at hr ⊢
  obtain ⟨args, hargs, hr⟩ := Option.bind_eq_some_iff.mp hr
  refine Option.bind_eq_some_iff.mpr ⟨args, ?_, hr⟩
  split at hargs
  · rename_i hclose
    rwa [if_pos hclose]
  · rename_i hclose
    rw [if_neg hclose]
    exact callArgs_repeats hinner _ _ _ _ _ hargs

/-- An operand is read again one level further up. -/
theorem operand_repeats (levels : Nat) :
    Repeats (operand Γ inner levels) (operand Γ inner' (levels + 1)) := by
  -- a literal may use one level more
  have hread : ∀ ls r, ((read levels ls).map fun d => (Tree.literal d.1, d.2)) = some r →
      ((read (levels + 1) ls).map fun d => (Tree.literal d.1, d.2)) = some r := by
    intro ls r hr
    obtain ⟨d, hd, rfl⟩ := Option.map_eq_some_iff.mp hr
    rw [read_repeats levels _ _ hd]
    rfl
  intro ls r hr
  unfold operand at hr ⊢
  dsimp only at hr ⊢
  split at hr
  · split at hr
    · rename_i hopen
      rw [if_pos hopen]
      exact call_repeats hinner _ _ hr
    · rename_i hopen
      rwa [if_neg hopen]
  · exact hread _ _ hr
  · exact hread _ _ hr
  · exact hr

omit hinner in

/-- What follows the reduction of operators is read again. -/
theorem resolveAfter_repeats {f : TreeFrame} {precedence : Nat}
    {resolve resolve' : Tree → Scan (Operator × List Tree)}
    (h : ∀ left, Repeats (resolve left) (resolve' left)) :
    Repeats (resolveAfter Γ f precedence resolve) (resolveAfter Γ f precedence resolve') := by
  intro ls r hr
  unfold resolveAfter at hr ⊢
  obtain ⟨⟨operands, pending⟩, hreduced, hr⟩ := Option.bind_eq_some_iff.mp hr
  refine Option.bind_eq_some_iff.mpr ⟨_, hreduced, ?_⟩
  cases operands with
  | nil => cases hr
  | cons left operands =>
    obtain ⟨q, hq, rfl⟩ := Option.map_eq_some_iff.mp hr
    exact Option.map_eq_some_iff.mpr ⟨q, h left _ _ hq, rfl⟩

/-- A prefix operator is read again. -/
theorem prefixed_repeats (hts : Spares ts ts') (f : TreeFrame) :
    Repeats (prefixed Γ inner ts f) (prefixed Γ inner' ts' f) := by
  intro ls r hr
  unfold prefixed at hr ⊢
  dsimp only at hr ⊢
  split at hr
  · rename_i hif
    obtain ⟨q, hq, rfl⟩ := Option.map_eq_some_iff.mp hr
    rw [if_pos hif, conditional_repeats hinner hts _ _ hq]
    rfl
  · rename_i hif
    rwa [if_neg hif]

/-- An infix operator is read again. -/
theorem infixed_repeats (hts : Spares ts ts') (f : TreeFrame) :
    Repeats (infixed Γ inner ts f) (infixed Γ inner' ts' f) := by
  intro ls r hr
  unfold infixed at hr ⊢
  dsimp only at hr ⊢
  split at hr
  · rename_i hselect
    rw [if_pos hselect]
    exact resolveAfter_repeats (selection_repeats hinner hts) _ _ hr
  · rename_i hselect
    rwa [if_neg hselect]

/-- One lexeme is taken in in the same way. -/
theorem step_repeats (hts : Spares ts ts') (f : TreeFrame) (levels : Nat) :
    Repeats (step Γ inner ts f levels) (step Γ inner' ts' f (levels + 1)) := by
  -- symbols and keywords are operators of both kinds
  have hoperator : ∀ ls r,
      (if f.lastOperand then infixed Γ inner ts f ls else prefixed Γ inner ts f ls) = some r →
      (if f.lastOperand then infixed Γ inner' ts' f ls
        else prefixed Γ inner' ts' f ls) = some r := by
    intro ls r hr
    split at hr
    · rename_i hlast
      rw [if_pos hlast]
      exact infixed_repeats hinner hts f _ _ hr
    · rename_i hlast
      rw [if_neg hlast]
      exact prefixed_repeats hinner hts f _ _ hr
  intro ls r hr
  unfold step at hr ⊢
  split at hr
  · exact hr
  · exact hr
  · exact hoperator _ _ hr
  · exact hoperator _ _ hr
  · split at hr
    · cases hr
    · rename_i hlast
      obtain ⟨q, hq, rfl⟩ := Option.map_eq_some_iff.mp hr
      rw [if_neg hlast, operand_repeats hinner levels _ _ hq]
      rfl

/-- A frame that has begun comes to the same end. -/
theorem run_repeats (hts : Spares ts ts') (levels rounds : Nat) (f : TreeFrame) {ls : List Lexeme}
    {r : Tree × List Lexeme} (h : run Γ levels inner ts rounds f ls = some r)
    (hend : Elsewise ts' r.2) : run Γ (levels + 1) inner' ts' rounds f ls = some r := by
  induction rounds generalizing f ls with
  | zero => cases h
  | succ rounds ih =>
    unfold run at h ⊢
    split at h
    · rename_i hends
      obtain ⟨t, ht, rfl⟩ := Option.map_eq_some_iff.mp h
      -- a word that ends only the first frame is an `else`, and there is none behind it
      have hends' := endsAt_mono hends fun w hw hword =>
        (hts.gone w hw).elim (fun helse => helse ▸ hend (helse ▸ hword)) id
      rw [if_pos hends', ht]
      rfl
    · rename_i hends
      obtain ⟨q, hq, h⟩ := Option.bind_eq_some_iff.mp h
      rw [if_neg fun hends' => hends (endsAt_mono hends' fun w hw _ => hts.kept w hw),
        step_repeats hinner hts f levels _ _ hq]
      exact ih _ h

end Frames

/-- What a frame comes to does not depend on the number of rounds. -/
theorem run_unique {Γ : Env} {levels rounds rounds' : Nat} {inner : List String → Scan Tree}
    {ts : List String} {f : TreeFrame} {ls : List Lexeme} {r r' : Tree × List Lexeme}
    (h : run Γ levels inner ts rounds f ls = some r)
    (h' : run Γ levels inner ts rounds' f ls = some r') : r = r' := by
  induction rounds generalizing rounds' f ls with
  | zero => cases h
  | succ rounds ih =>
    -- with no rounds left there is no result to compare
    cases rounds' with
    | zero => cases h'
    | succ rounds' =>
      unfold run at h h'
      split at h
      · rename_i hends
        rw [if_pos hends] at h'
        exact Option.some.inj (h.symm.trans h')
      · rename_i hends
        obtain ⟨q, hq, h⟩ := Option.bind_eq_some_iff.mp h
        rw [if_neg hends, hq, Option.bind_some] at h'
        exact ih h h'

/-- An expression is read in the same way with more levels, and without `else` among the words that
end it, unless it has ended in front of `else`. -/
theorem frame_repeats (Γ : Env) (levels : Nat) :
    RepeatsFrames (frame Γ levels) (frame Γ (levels + 1)) := by
  induction levels with
  | zero => exact fun ts ts' ls r _ h => by cases h
  | succ levels ih => exact fun ts ts' ls r hts h hend => run_repeats ih hts levels _ _ h hend

end TupleLang.Grammar
