import TupleLang.Proofs.DatumText
import TupleLang.Proofs.ExprReading
import TupleLang.Proofs.ScopeView

/-!
# The text of expressions

An expression that is parsed from a source can be written as text, and parsing the text in the same
scope gives the same expression (`Expression.ofSource_text`): nodes for the same trees, with the
same operators, actions, types, variables and literals.

The scope has to be anchored, and there have to be no types or actions of the host's. The text of an
expression may also be nested more deeply than its source. In a type test a bare name that means a
type becomes that type, which is written with an opening of its own.
-/

namespace TupleLang

/-! ## Trees of statements -/

/-- Statements give trees that are read with as many levels of nesting as there are. -/
theorem Grammar.built_of_statements {Γ : Env} {levels rounds : Nat} {ls : List Lexeme}
    {trees : List Tree} (hls : AllFit ls) (h : statements Γ levels rounds ls = some trees) :
    ∀ t ∈ trees, Built Γ levels t := by
  induction rounds generalizing ls trees with
  | zero => cases h
  | succ rounds ih =>
    rw [statements] at h
    split at h
    · cases h
      exact fun t ht => absurd ht List.not_mem_nil
    · split at h
      · exact ih (hls.drop 1) h
      · obtain ⟨⟨t, rest⟩, hframe, h⟩ := Option.bind_eq_some_iff.mp h
        obtain ⟨-, h⟩ := Option.ite_none_right_eq_some.mp h
        obtain ⟨others, hothers, rfl⟩ := Option.map_eq_some_iff.mp h
        obtain ⟨ht, hrest⟩ :=
          gets_frame Γ levels (fun w hw => absurd hw List.not_mem_nil) ls t rest hls hframe
        exact List.forall_mem_cons.mpr ⟨ht, ih hrest hothers⟩

/-- Nodes are written like the trees that they stand for. -/
theorem Store.Means.piecesOf_eq {s : Store} {nodes : List Node} {trees : List Tree}
    (h : s.Means nodes trees) : Node.piecesOf s nodes = Tree.piecesOf s.forms trees := by
  induction h with
  | nil => rfl
  | literal hd hnodup _ ih =>
    rw [Node.piecesOf, Tree.piecesOf, ih, Node.pieces, Tree.pieces, Node.literalText,
      hd.cellText_eq hnodup]
  | named _ ih => rw [Node.piecesOf, Tree.piecesOf, ih, Node.pieces, Tree.pieces]
  | apply _ _ ihchildren ih =>
    rw [Node.piecesOf, Tree.piecesOf, ih, Node.pieces, Tree.pieces, ihchildren]

namespace Expression

variable {base s : Store} {φ : Store.Proviso} {scope : TupleId} {Γ : Env}

/-- A source is parsed where the grammar gives trees, and then its nodes stand for these. -/
theorem ofSource_cases (hsees : base.Sees φ scope Γ) (hs : base.Enlarges s)
    (hlive : ∃ t, s.tuple? scope = some t) (source : String)
    (hφ : φ.Holds (ofSource s scope source).store) :
    let parsed := ofSource s scope source
    let ls := Lexer.lexemes source.toList
    match Grammar.statements Γ base.settings.maxDepth (ls.length + 1) ls with
    | some trees => ∃ e, parsed.result = .ok e ∧ parsed.diagnostics = [] ∧ e.scope = scope ∧
        s.Enlarges parsed.store ∧ parsed.store.Means e.roots trees
    | none => ∃ err, parsed.result = .error err := by
  obtain ⟨t, ht⟩ := hlive
  have hregular := Cursor.regular_ofSource source
  have htuple : s.tuple scope = .ok t := by rw [Store.tuple, ht]
  -- what was parsed before a failure is given up, which lets the store grow older
  have hparsed : φ.Holds (parseStatements scope ((Cursor.ofSource source).remaining + 1)
      ⟨s, Cursor.ofSource source⟩).store := by
    rw [ofSource, parse_eq, parseDirectly, htuple] at hφ
    dsimp only at hφ
    split at hφ
    · exact hφ
    · exact φ.early (.releaseAll _ _) hφ
  have hcases := parseStatements_cases hsees ((Cursor.ofSource source).remaining + 1)
    (s := ⟨s, Cursor.ofSource source⟩) hs hregular hparsed
  rw [← Cursor.length_lexemes, Cursor.lexemes_ofSource] at hcases
  dsimp only at hcases ⊢
  rw [ofSource, parse_eq, parseDirectly, htuple, ← Cursor.length_lexemes, Cursor.lexemes_ofSource]
  dsimp only
  generalize parseStatements scope _ _ = parsed at hcases ⊢
  generalize Grammar.statements Γ _ _ _ = statements at hcases ⊢
  cases statements with
  | some trees =>
    obtain ⟨hdiagnostics, henlarges, hmeans⟩ := hcases
    rw [if_pos (by simp [hdiagnostics])]
    exact ⟨_, rfl, hdiagnostics, rfl, henlarges, hmeans⟩
  | none =>
    dsimp only at hcases
    rw [if_neg (by simpa using hcases)]
    exact ⟨_, rfl⟩

/-- Parsing lets the store grow older. -/
theorem ages_ofSource (s : Store) (scope : TupleId) (source : String) :
    s.Ages (ofSource s scope source).store := by
  have hages := ages_parseStatements scope ((Cursor.ofSource source).remaining + 1)
    ⟨s, Cursor.ofSource source⟩
  rw [ofSource, parse_eq, parseDirectly]
  split
  · exact .refl s
  · dsimp only
    split
    · exact hages
    · exact hages.trans (.releaseAll _ _)

/-- What an expression is written like is parsed as the same expression again. -/
theorem ofSource_text {s : Store} (hs : s.Sound) (hbasic : s.Basic) {scope : TupleId}
    {out : Option TupleId} (hscope : s.Anchored scope out) (source : String) {e : Expression}
    (he : (ofSource s scope source).result = .ok e) :
    let first := ofSource s scope source
    let second := ofSource first.store scope (e.text first.store)
    (Store.youngAt out).Holds second.store →
      ∃ trees, first.store.Means e.roots trees ∧
        (Tree.anyFloat trees = false → (∀ t ∈ trees, t.isRoomy s.settings.maxDepth = true) →
          ∃ e', second.result = .ok e' ∧ second.diagnostics = [] ∧ e'.scope = e.scope ∧
            second.store.Means e.roots trees ∧ second.store.Means e'.roots trees) := by
  intro first second hyoung
  have hsees := hscope.sees
  have hfirst := (Store.youngAt out).early (ages_ofSource first.store scope _) hyoung
  have hparsed := ofSource_cases hsees (.refl hs) hscope.live source hfirst
  dsimp only at hparsed
  split at hparsed
  case h_2 =>
    obtain ⟨err, herr⟩ := hparsed
    rw [he] at herr
    cases herr
  case h_1 trees htrees =>
    obtain ⟨e₁, he₁, -, hscope₁, henlarges, hmeans⟩ := hparsed
    obtain rfl : e = e₁ := Except.ok.inj (he.symm.trans he₁)
    refine ⟨trees, hmeans, fun hfloat hroomy => ?_⟩
    -- the text is read with the same trees
    have hback := Tree.statements_text hbasic.plain
      (Grammar.built_of_statements (Lexer.fits_lexemes _) htrees) hfloat hroomy
      (show e.text first.store = _ by rw [text, pieces, hmeans.piecesOf_eq]) (Nat.lt_succ_self _)
    have hlive : ∃ t, first.store.tuple? scope = some t := by
      obtain ⟨t, ht⟩ := hscope.live
      exact ⟨t, henlarges.tuple?_eq ht⟩
    have hagain := ofSource_cases hsees henlarges hlive (e.text first.store) hyoung
    dsimp only at hagain
    rw [hback] at hagain
    obtain ⟨e₂, he₂, hdiagnostics, hscope₂, henlarges₂, hmeans₂⟩ := hagain
    exact ⟨e₂, he₂, hdiagnostics, hscope₂.trans hscope₁.symm, hmeans.mono henlarges₂, hmeans₂⟩

/-- Two statements in a new store, one of them with a type in the place of a name. -/
theorem ofSource_text_sum :
    let s := Store.withSettings {}
    let first := ofSource s s.root "1 + 2 is long; P(x = true)"
    s.Sound ∧ s.Basic ∧ s.Anchored s.root none ∧ ∃ e trees, first.result = .ok e ∧
      first.store.Means e.roots trees ∧ Tree.anyFloat trees = false ∧
      (∀ t ∈ trees, t.isRoomy s.settings.maxDepth = true) ∧
      ∃ e', (ofSource first.store s.root (e.text first.store)).result = .ok e' ∧
        (ofSource first.store s.root (e.text first.store)).store.Means e'.roots trees := by
  -- said of any store, so that nothing is computed from this one but by the grammar
  have hreads : ∀ (s : Store) (source : String), s.Sound → s.Basic → s.Anchored s.root none →
      (match Grammar.statements (s.env s.root) s.settings.maxDepth
          ((Lexer.lexemes source.toList).length + 1) (Lexer.lexemes source.toList) with
        | some trees => !Tree.anyFloat trees && trees.all (Tree.isRoomy s.settings.maxDepth)
        | none => false) = true →
      let first := ofSource s s.root source
      s.Sound ∧ s.Basic ∧ s.Anchored s.root none ∧ ∃ e trees, first.result = .ok e ∧
        first.store.Means e.roots trees ∧ Tree.anyFloat trees = false ∧
        (∀ t ∈ trees, t.isRoomy s.settings.maxDepth = true) ∧
        ∃ e', (ofSource first.store s.root (e.text first.store)).result = .ok e' ∧
          (ofSource first.store s.root (e.text first.store)).store.Means e'.roots trees := by
    intro s source hs hbasic hscope hgrammar
    have hparsed := ofSource_cases hscope.sees (.refl hs) hscope.live source
      (Store.holds_youngAt_none _)
    dsimp only at hparsed ⊢
    split at hparsed
    case h_2 hnone =>
      rw [hnone] at hgrammar
      cases hgrammar
    case h_1 trees htrees =>
      rw [htrees, Bool.and_eq_true, Bool.not_eq_true', List.all_eq_true] at hgrammar
      obtain ⟨hfloat, hroomy⟩ := hgrammar
      obtain ⟨e, he, -, -, -, hmeans⟩ := hparsed
      obtain ⟨trees', hmeans', hagain⟩ :=
        ofSource_text hs hbasic hscope source he (Store.holds_youngAt_none _)
      obtain rfl := hmeans.unique hmeans'
      obtain ⟨e', he', -, -, -, hsame⟩ := hagain hfloat hroomy
      exact ⟨hs, hbasic, hscope, e, trees, he, hmeans, hfloat, hroomy, e', he', hsame⟩
  obtain ⟨hs, hscope⟩ := Store.sound_withSettings {}
  exact hreads _ _ hs (Store.basic_withSettings {}) hscope (by decide +kernel)

/-! ## Texts that are refused -/

/-- The source is parsed, with cells of these types for its literals and variables, but the text of
the expression is not. -/
def RefusesText (s : Store) (scope : TupleId) (source : String) (types : List TypeDesc) : Prop :=
  ∃ e err, (ofSource s scope source).result = .ok e ∧ (Node.cellsOf e.roots).map Cell.type = types ∧
    (ofSource (ofSource s scope source).store scope
      (e.text (ofSource s scope source).store)).result =
      .error err

/-- Whether this is so. -/
def refusesText (s : Store) (scope : TupleId) (source : String) (types : List TypeDesc) : Bool :=
  let first := ofSource s scope source
  match first.result with
  | .ok e =>
    match (ofSource first.store scope (e.text first.store)).result with
    | .ok _ => false
    | .error _ => (Node.cellsOf e.roots).map Cell.type == types
  | .error _ => false

/-- Refusing a text can be found out by running the parser. -/
theorem refusesText_iff {s : Store} {scope : TupleId} {source : String} {types : List TypeDesc} :
    refusesText s scope source types = true ↔ RefusesText s scope source types := by
  unfold refusesText RefusesText
  dsimp only
  cases hfirst : (ofSource s scope source).result with
  | error err => simp
  | ok e =>
    cases hsecond : (ofSource (ofSource s scope source).store scope
      (e.text (ofSource s scope source).store)).result with
    | ok e' => simp [hsecond]
    | error err => simp [hsecond]

/-- A store in which a scope has been made, and has then become the parent of the root scope. -/
def ring (s : Store) : Store :=
  (s.createWith (.custom "m") .all (some s.root)).2.adopt ⟨1, 0⟩ s.root

/-- A ring of scopes is made by sound operations. -/
theorem ring_sound {s : Store} (hs : s.Sound) : (ring s).Sound := (hs.createWith _ _ _).adopt _ _

/-- The kinds in a ring have their own permissions. -/
theorem ring_basic {s : Store} (hs : s.Basic) : (ring s).Basic := (hs.createWith _ _ _).adopt _ _

/-- Not every text is parsed again. In a ring of scopes, the outermost one depends on the number of
slots, and the tuple of the first expression takes one. At the limit, no level is left for the type
that is written in the place of its name. -/
theorem text_is_refused :
    ((ring (.withSettings {})).Sound ∧ (ring (.withSettings {})).Basic ∧
      RefusesText (ring (.withSettings {})) ⟨1, 0⟩ "1 + 2; P(x = true)"
        [.leaf "int", .leaf "int", .tree [(some "x", .leaf "bool")]]) ∧
      RefusesText (.withSettings { maxDepth := 1 }) ⟨0, 0⟩ "1 is int"
        [.leaf "int", .leaf "type"] := by
  -- both at once, since the new store takes time to compute
  have hrefused : (refusesText (ring (.withSettings {})) ⟨1, 0⟩ "1 + 2; P(x = true)"
        [.leaf "int", .leaf "int", .tree [(some "x", .leaf "bool")]] &&
      refusesText (.withSettings { maxDepth := 1 }) ⟨0, 0⟩ "1 is int"
        [.leaf "int", .leaf "type"]) = true := by decide +kernel
  rw [Bool.and_eq_true, refusesText_iff, refusesText_iff] at hrefused
  exact ⟨⟨ring_sound (Store.sound_withSettings {}).1, ring_basic (Store.basic_withSettings {}),
    hrefused.1⟩, hrefused.2⟩

end Expression

end TupleLang
