import TupleLang.Proofs.DatumText
import TupleLang.Proofs.Progress

/-!
# Depth of types

Every tree inside a descriptor is written in parentheses of its own, and for each of them the reader
takes one level of nesting. So the text of a descriptor is read back exactly if its depth is within
the limit (`parseValue_text`).

A reader with too few levels cannot come to another descriptor instead: with more levels it would
read the same one, and whatever is read is no deeper than the levels.
-/

namespace TupleLang

open Lexer Grammar

namespace TypeDesc

mutual

/-- Levels of trees inside each other; a leaf has none. -/
def height : TypeDesc → Nat
  | leaf _ => 0
  | tree fields => heightOf fields + 1

/-- Levels of trees inside the highest of several children. -/
def heightOf : List Field → Nat
  | [] => 0
  | (_, t) :: rest => max t.height (heightOf rest)

end

/-- Levels of parentheses in the text of a descriptor. A leaf on its own stands in parentheses, too;
inside a tree it does not. -/
def depth : TypeDesc → Nat
  | leaf _ => 1
  | tree fields => (tree fields).height

/-- Descriptors whose children are called by identifiers, and whose leaves by identifiers or
`void`. -/
inductive Spellable : TypeDesc → Prop
  | leaf {name : String} : IsLeafName name → Spellable (.leaf name)
  | tree {fields : List Field} :
      (∀ f ∈ fields, ∀ name, f.1 = some name → IsIdent name) →
      (∀ f ∈ fields, Spellable f.2) → Spellable (.tree fields)

variable {t : TypeDesc} {levels : Nat}

/-- Children are no higher than the highest of them. -/
theorem heightOf_le_iff {fields : List Field} :
    heightOf fields ≤ levels ↔ ∀ f ∈ fields, f.2.height ≤ levels := by
  induction fields with
  | nil => simp [heightOf]
  | cons f fields ih =>
    obtain ⟨name, t⟩ := f
    simp [heightOf, ih]

/-- A depth is within a limit when the height is and there is a level at all. -/
theorem depth_le_iff : t.depth ≤ levels ↔ t.height ≤ levels ∧ 0 < levels := by
  cases t with
  | leaf name => simp [depth, height, Nat.succ_le_iff]
  | tree fields =>
    simp only [depth, height]
    omega

/-- Readable descriptors are those with readable names that are no higher than the levels. -/
theorem readable_iff : t.Readable levels ↔ t.Spellable ∧ t.height ≤ levels := by
  constructor
  · intro h
    induction h with
    | leaf hname => exact ⟨.leaf hname, Nat.zero_le _⟩
    | tree hnames _ ih =>
      refine ⟨.tree hnames fun f hf => (ih f hf).1, ?_⟩
      rw [height, Nat.succ_le_succ_iff, heightOf_le_iff]
      exact fun f hf => (ih f hf).2
  · rintro ⟨hspellable, hheight⟩
    induction hspellable generalizing levels with
    | leaf hname => exact .leaf hname
    | tree hnames _ ih =>
      obtain ⟨levels, rfl⟩ : ∃ n, levels = n + 1 := ⟨levels - 1, by rw [height] at hheight; omega⟩
      rw [height, Nat.succ_le_succ_iff, heightOf_le_iff] at hheight
      exact .tree hnames fun f hf => ih f hf (hheight f hf)

/-! ## Reading the text -/

/-- The text of a readable descriptor begins with the opening of a type, and what stands behind it
is read as the descriptor. -/
theorem Readable.exists_lexemes (h : t.Readable levels) (hlevels : 0 < levels) :
    ∃ ls, lexemes t.text.toList = ⟨.typeOpen, "T("⟩ :: ls ∧ typeBody levels ls = some (t, []) := by
  obtain ⟨pieces, ls, hpieces, hwrites, hreads⟩ := h.exists_pieces hlevels
  have hspells : Spells t.pieces (⟨.typeOpen, "T("⟩ :: ls) := by
    rw [hpieces]
    exact Spells.opening (c := 'T') (by decide) (by decide) hwrites.spells
  refine ⟨ls, by simpa [text] using hspells.lexemes_render front_nil, ?_⟩
  simpa using hreads []

/-- With enough levels the text is read as the descriptor, and otherwise as nothing. -/
theorem Spellable.typeBody_lexemes (h : t.Spellable) (levels : Nat) :
    ∃ ls, lexemes t.text.toList = ⟨.typeOpen, "T("⟩ :: ls ∧
      typeBody levels ls = if t.depth ≤ levels then some (t, []) else none := by
  -- the lexemes are the same for all limits, so they are taken at a sufficient one
  have henough := depth_le_iff.mp (Nat.le_max_left t.depth levels)
  have hreadable : t.Readable (max t.depth levels) := readable_iff.mpr ⟨h, henough.1⟩
  obtain ⟨ls, hlexemes, hread⟩ := hreadable.exists_lexemes henough.2
  refine ⟨ls, hlexemes, ?_⟩
  by_cases hdepth : t.depth ≤ levels
  · rwa [if_pos hdepth, ← Nat.max_eq_right hdepth]
  · rw [if_neg hdepth, Option.eq_none_iff_forall_ne_some]
    rintro ⟨t', rest⟩ hsome
    have hsame := typeBody_mono (Nat.le_max_right t.depth levels) _ _ hsome
    obtain ⟨rfl, rfl⟩ := Prod.mk.inj (Option.some.inj (hread.symm.trans hsame))
    have hfits : AllFit ls := by
      intro l hl
      refine fits_lexemes t.text.toList l ?_
      rw [hlexemes]
      exact List.mem_cons_of_mem _ hl
    obtain ⟨⟨hread', hlevels⟩, -⟩ := gets_typeBody levels ls t [] hfits hsome
    exact hdepth (depth_le_iff.mpr ⟨(readable_iff.mp hread').2, hlevels⟩)

end TypeDesc

/-- A cell of type `type` that owns the descriptor. -/
structure Cell.HoldsType (c : Cell) (heap : Heap) (t : TypeDesc) : Prop where
  type : c.type = .leaf "type"
  owned : c.owned = true
  value : c.value heap = .type t

open ParseM

/-- Behind the opening of a type the reader of values follows the grammar of types. -/
theorem ValueReader.follows_type (scope : TupleId) (levels : Nat) {s : ParseState}
    (hs : s.cursor.Regular) (hopen : (ahead s.cursor.lexemes 0).kind = .typeOpen) :
    Follows (fun c t store => Cell.HoldsType c store.heap t) (ValueReader.read scope levels) s
      (typeBody levels (s.cursor.lexemes.drop 1)) := by
  unfold ValueReader.read ValueReader.value
  refine .current_bind ?_
  rw [show s.cursor.current = s.cursor.peek 0 from rfl, hs.kind_peek, hopen]
  refine .advance_bind hs 1 fun s₁ _ hs₁ => ?_
  rw [← Option.bind_fun_some (typeBody levels s₁.cursor.lexemes)]
  refine (TypeReader.yields_body levels hs₁).andThen fun t s₂ _ hs₂ => ?_
  exact ⟨hs₂, rfl, rfl, rfl, Heap.get_alloc_self s₂.store.heap (.type t)⟩

namespace TypeDesc

/-- The text of a descriptor is read back as exactly that descriptor, without a diagnostic and up to
the end of the text, if and only if its depth is within the limit. Otherwise nothing is read, and
there is one diagnostic. -/
theorem parseValue_text (s : Store) (scope : TupleId) {t : TypeDesc} (ht : t.Spellable) :
    let parsed := parseValue s scope (Cursor.ofSource t.text)
    ((∃ c, parsed.result = some c ∧ c.HoldsType parsed.store.heap t) ∧ parsed.diagnostics = [] ∧
        parsed.cursor.atEnd = true ↔ t.depth ≤ s.settings.maxDepth) ∧
      (s.settings.maxDepth < t.depth →
        parsed.result = none ∧ ∃ diagnostic, parsed.diagnostics = [diagnostic]) := by
  intro parsed
  obtain ⟨ls, hlexemes, hbody⟩ := ht.typeBody_lexemes s.settings.maxDepth
  have hfollows := ValueReader.follows_type (s := ⟨s, Cursor.ofSource t.text⟩) scope
    s.settings.maxDepth (Cursor.regular_ofSource t.text)
      (by rw [Cursor.lexemes_ofSource, hlexemes]; rfl)
  rw [Cursor.lexemes_ofSource, hlexemes, List.drop_one, List.tail_cons, hbody] at hfollows
  by_cases hdepth : t.depth ≤ s.settings.maxDepth
  · rw [if_pos hdepth] at hfollows
    obtain ⟨c, s', hrun, hcursor, hend, hc⟩ := hfollows.of_some
    have hparsed : parsed = ⟨some c, [], s'.store, s'.cursor⟩ := by
      simp only [parsed, parseValue_eq, hrun]
    rw [hparsed]
    exact ⟨iff_of_true ⟨⟨c, rfl, hc⟩, rfl, hcursor.atEnd hend⟩ hdepth,
      fun hlt => absurd hdepth (Nat.not_le.mpr hlt)⟩
  · rw [if_neg hdepth] at hfollows
    cases hrun : ValueReader.read scope s.settings.maxDepth ⟨s, Cursor.ofSource t.text⟩ with
    | ok c s' =>
      obtain ⟨_, hnone, -⟩ := hfollows.of_ok hrun
      cases hnone
    | error e s' =>
      have hparsed : parsed = ⟨none, [e.diagnostic], s'.store, s'.cursor⟩ := by
        simp only [parsed, parseValue_eq, hrun]
      rw [hparsed]
      exact ⟨iff_of_false (fun h => by simp at h) hdepth, fun _ => ⟨rfl, _, rfl⟩⟩

/-- A lone unnamed child, a name given twice and an empty tree: read back with two levels, and
refused with one. -/
theorem parseValue_text_lone :
    let t : TypeDesc := .tree [(none, .tree [(none, .leaf "int")]), (some "x", .leaf "void"),
      (some "x", .tree [])]
    let read (levels : Nat) :=
      parseValue (.bare { maxDepth := levels }) ⟨0, 0⟩ (Cursor.ofSource t.text)
    t.Spellable ∧ t.depth = 2 ∧
      (∃ c, (read 2).result = some c ∧ c.HoldsType (read 2).store.heap t) ∧
        (read 1).result = none := by
  intro t read
  have hint : IsLeafName "int" := .inl ⟨⟨'i', ['n', 't'], rfl, by decide, by decide⟩, by decide⟩
  have hx : IsIdent "x" := ⟨⟨'x', [], rfl, by decide, by decide⟩, by decide⟩
  have ht : t.Spellable := by
    refine .tree ?_ ?_
    · simp [hx]
    · simp only [List.mem_cons, List.not_mem_nil, or_false, forall_eq_or_imp, forall_eq]
      exact ⟨.tree (by simp) (by simpa using .leaf hint), .leaf (.inr rfl),
        .tree (by simp) (by simp)⟩
  have hdepth : t.depth = 2 := rfl
  have hdeep := parseValue_text (.bare { maxDepth := 2 }) ⟨0, 0⟩ ht
  have hflat := parseValue_text (.bare { maxDepth := 1 }) ⟨0, 0⟩ ht
  exact ⟨ht, hdepth, (hdeep.1.mpr (Nat.le_refl 2)).1, (hflat.2 (Nat.lt_succ_self 1)).1⟩

end TypeDesc

end TupleLang
