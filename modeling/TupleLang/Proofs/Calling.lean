import TupleLang.Proofs.Compatibility
import TupleLang.Proofs.ExprText
import TupleLang.Proofs.Growth
import TupleLang.Proofs.Registration

/-!
# Calls of constructors

The constructor of a registered type is called with an argument for every child of the type. The
arguments may be given by name in any order, or without names in the order of declaration: all these
calls are parsed as the same expression (`Expression.ofSource_call`), and where its operands are
evaluated normally it builds one new plain tuple with the children in the order of declaration
(`Expression.constructor_takes_arguments_in_any_order`).

The scope has to be anchored and to offer the type, and the arguments have to be expressions one
level below the call. In a ring of scopes the order of the arguments may matter, as an argument that
takes a slot changes which scope is the outermost one (`Expression.constructor_calls_fail`).
-/

namespace TupleLang

namespace Filling

variable {s : Store} {scope : TupleId} {out : Option TupleId} {name : String}
  {fillings : List Filling} {levels : Nat} {f : Filling}

/-! ## Arguments -/

/-- One level below a statement, the source is an expression with nothing behind it, and its node
stands for the tree. -/
def Reads (s : Store) (scope : TupleId) (out : Option TupleId) (levels : Nat) (f : Filling) :
    Prop :=
  ∃ node t, parseFrame scope levels [] ⟨s, .ofSource f.source⟩ = .ok node t ∧
    t.cursor.remaining = 0 ∧ (Store.youngAt out).Holds t.store ∧ t.store.Means [node] [f.tree]

/-- The lexemes of the source. -/
def lexemes (f : Filling) : List Lexeme := Lexer.lexemes f.source.toList

/-- The grammar gives the tree, too. -/
theorem Reads.frame_eq (h : f.Reads s scope out levels) (hs : s.Sound)
    (hscope : s.Anchored scope out) :
    Grammar.frame (s.env scope) levels [] f.lexemes = some (f.tree, []) := by
  obtain ⟨node, t, hrun, hend, hyoung, hmeans⟩ := h
  obtain ⟨tree, htree, -, -, hmeans'⟩ := (parses_parseFrame hscope.sees levels []
    ⟨s, .ofSource f.source⟩ (.refl hs) (Cursor.regular_ofSource _)).of_ok hrun hyoung
  obtain rfl := List.cons.inj (hmeans'.unique hmeans) |>.1
  have hnil : t.cursor.lexemes = [] :=
    List.length_eq_zero_iff.mp (t.cursor.length_lexemes.trans hend)
  rw [lexemes, ← Cursor.lexemes_ofSource, htree, hnil]

/-- A source for which the grammar gives the tree is read, where the scope ends at a tuple without a
parent. -/
theorem reads_of_frame (hs : s.Sound) (hscope : s.Anchored scope none)
    (h : Grammar.frame (s.env scope) levels [] f.lexemes = some (f.tree, [])) :
    f.Reads s scope none levels := by
  have hreads := parses_parseFrame hscope.sees levels []
    ⟨s, .ofSource f.source⟩ (.refl hs) (Cursor.regular_ofSource _) (Store.holds_youngAt_none _)
  dsimp only at hreads
  rw [Cursor.lexemes_ofSource, show Lexer.lexemes f.source.toList = f.lexemes from rfl, h] at hreads
  obtain ⟨node, t, hrun, -, hend, -, hmeans⟩ := hreads.of_some
  refine ⟨node, t, hrun, ?_, Store.holds_youngAt_none _, hmeans⟩
  rw [← Cursor.length_lexemes, hend, List.length_nil]

/-- An argument that does not look like one with a name. -/
def Bare (f : Filling) : Prop :=
  (Grammar.ahead f.lexemes 0).kind = .ident → (Grammar.ahead f.lexemes 1).isWord "=" = false

/-- The arguments of a call, with the names that they are given by, and the names with which they
are bound: either all are given by name, in any order, or all of them without names in the order of
declaration. -/
inductive Spells (fillings : List Filling) :
    List (Option String × Filling) → List (Option String) → Prop
  | byName {given : List Filling} : given.Perm fillings →
      Spells fillings (given.map fun f => (some f.name, f)) (fillings.map (some ·.name))
  | inOrder : (∀ f ∈ fillings, f.Bare) →
      Spells fillings (fillings.map fun f => (none, f)) (fillings.map fun _ => none)

section Spells

variable {args : List (Option String × Filling)} {argNames : List (Option String)}

/-- Each argument is one of the type's. -/
theorem Spells.mem (h : Spells fillings args argNames) {a : Option String × Filling}
    (ha : a ∈ args) : a.2 ∈ fillings := by
  cases h with
  | byName hperm =>
    obtain ⟨f, hf, rfl⟩ := List.mem_map.mp ha
    exact hperm.mem_iff.mp hf
  | inOrder =>
    obtain ⟨f, hf, rfl⟩ := List.mem_map.mp ha
    exact hf

/-- Only what does not look like an argument with a name is given without one. -/
theorem Spells.bare (h : Spells fillings args argNames) {a : Option String × Filling}
    (ha : a ∈ args) (hname : a.1 = none) : a.2.Bare := by
  cases h with
  | byName =>
    obtain ⟨f, -, rfl⟩ := List.mem_map.mp ha
    cases hname
  | inOrder hbare =>
    obtain ⟨f, hf, rfl⟩ := List.mem_map.mp ha
    exact hbare f hf

/-- Each argument is read as its tree. -/
theorem Spells.argues (h : Spells fillings args argNames) {Γ : Env}
    (hframes : ∀ f ∈ fillings, Grammar.frame Γ levels [] f.lexemes = some (f.tree, [])) :
    List.Forall₂ (Grammar.Argues Γ levels) (args.map fun a => (a.1, a.2.lexemes))
      (args.map (·.2.tree)) := by
  rw [List.forall₂_map_left_iff, List.forall₂_map_right_iff, List.forall₂_same]
  refine fun a ha => ⟨hframes a.2 (h.mem ha), fun hname => ?_⟩
  have hbare := h.bare ha hname
  rw [Grammar.name, if_neg fun hboth => ?_]
  · rfl
  · simp [hbare hboth.1] at hboth

/-- However the arguments are given, the call is bound to the same operands. -/
theorem Spells.bind_eq (h : Spells fillings args argNames)
    (hdistinct : (fillings.map (·.name)).Nodup) (hoffers : s.Offers scope name (record fillings))
    (hfits : ∀ f ∈ fillings, f.type.compatibleWith f.tree.type = true) :
    (s.env scope).bind .call name (args.map (·.2.tree)) (args.map (·.1)) =
      some (built name fillings argNames) := by
  cases h with
  | byName hperm =>
    rw [List.map_map, List.map_map]
    exact hoffers.bind_named hdistinct hfits hperm
  | inOrder =>
    rw [List.map_map, List.map_map]
    exact hoffers.bind_unnamed hfits

end Spells

/-! ## The tuple -/

/-- The type of the tuple fits if its values have types that do. -/
theorem record_compatibleWith {entries : List Attribute}
    (hnames : entries.map (·.name) = fillings.map (some ·.name))
    (hfits : List.Forall₂ (fun f e => f.type.compatibleWith e.cell.type = true) fillings entries) :
    (record fillings).compatibleWith (.tree (entries.map fun e => (e.name, e.cell.type))) =
      true := by
  refine TypeDesc.tree_compatibleWith_iff.mpr ⟨_, rfl, fun i g hg => ?_⟩
  rw [List.getElem?_map, Option.map_eq_some_iff] at hg
  obtain ⟨f, hf, rfl⟩ := hg
  obtain ⟨hi, rfl⟩ := List.getElem?_eq_some_iff.mp hf
  obtain ⟨hlength, hget⟩ := List.forall₂_iff_get.mp hfits
  have hi' : i < entries.length := hlength ▸ hi
  have hname := List.getElem_of_eq hnames (i := i) (by simpa using hi')
  rw [List.getElem_map, List.getElem_map] at hname
  refine ⟨(entries[i].name, entries[i].cell.type), hget i hi hi', ?_, hname⟩
  exact List.mem_map_of_mem (f := fun e : Attribute => (e.name, e.cell.type)) (List.getElem_mem hi')

/-- The tuple that a constructor builds is one of its type. -/
theorem compatible_of_constructs {base q : Store} {cells : List Cell} {c : Cell} {k : TupleId}
    {t : Tuple}
    (h : base.Constructs s q (fillings.map (some ·.name)) cells c k t)
    (hfits : List.Forall₂ (fun f c => f.type.compatibleWith c.type = true) fillings cells) :
    (record fillings).compatibleWith c.type = true := by
  have htype : t.typeDesc = .tree (t.entries.map fun e => (e.name, e.cell.type)) := by
    rw [Tuple.typeDesc, h.plain]
  rw [h.type, htype]
  refine record_compatibleWith h.names ?_
  -- a copy has the type of what it is a copy of
  have htypes : cells.map (·.type) = (t.entries.map (·.cell)).map (·.type) := by
    rw [← List.forall₂_eq_eq_eq, List.forall₂_map_left_iff, List.forall₂_map_right_iff]
    exact h.values.imp fun _ _ hpasses => hpasses.type_eq.symm
  have hall : List.Forall₂ (fun (f : Filling) type => f.type.compatibleWith type = true) fillings
      ((t.entries.map (·.cell)).map (·.type)) := by
    rw [← htypes, List.forall₂_map_right_iff]
    exact hfits
  rwa [List.map_map, List.forall₂_map_right_iff] at hall

end Filling

namespace Expression

variable {s : Store} {scope : TupleId} {out : Option TupleId} {name : String}
  {fillings : List Filling} {levels : Nat} {args : List (Option String × Filling)}
  {argNames : List (Option String)}

/-- The value of an expression that is one call, evaluated. -/
theorem evaluate_call {e : Expression} {host : Host} {children : List Node} {q q₁ : Store}
    {cells : List Cell} (he : e.roots = [.apply (Filling.call name fillings argNames) children])
    (hdepth : q.settings.allows 1 = true) (hq : q.Rooted)
    (hchildren : ∀ n ∈ children, n.AddsOnly host q)
    (hready : Node.evaluateAll host children 2 q = .ok (.ready cells) q₁)
    (hdistinct : (fillings.map (·.name)).Nodup) (hlength : fillings.length = cells.length) :
    (∃ c q' k t, e.evaluate host q = .ok [⟨.normal, c⟩] q' ∧
      q.Constructs q₁ q' (fillings.map (some ·.name)) cells c k t) ∨
    ∃ c ∈ cells, c.owned = false ∧ ∃ r err q', q.Sprouts r ∧
      StoreM.duplicate c r = .error err q' ∧ e.evaluate host q = .error err q' := by
  have hcarries := Store.carries_evaluateAll hchildren (.refl hq.sound) hready
  -- the constructor takes as many operands as the type has children, so that none is left out
  have hbody : (Filling.call name fillings argNames).action.body =
      .construct (fillings.map (some ·.name)) := by
    change Body.construct ((fillings.map Filling.field).map (·.1)) = _
    rw [List.map_map]
    rfl
  have happly : (Node.apply (Filling.call name fillings argNames) children).evaluate host 1 q =
      (Body.construct (fillings.map (some ·.name))).effect name ([] ++ cells).reverse q₁ := by
    rw [Node.evaluate_of_ready rfl hdepth hready, Action.apply_eq (by simp [hbody]), hbody]
    rfl
  have hnames : (fillings.map (some ·.name)).length = cells.length := by rwa [List.length_map]
  have hbuilt := Store.Carries.construct (show q.Carries q q₁ ([] ++ cells) from hcarries) hq
    (.refl q) hnames name
  rw [← happly] at hbuilt
  rw [Expression.evaluate, he]
  simp only [evaluateRoots, bind, EStateM.bind]
  cases hrun : (Node.apply (Filling.call name fillings argNames) children).evaluate host 1 q with
  | ok r q' =>
    obtain ⟨signal, c⟩ := r
    rw [hrun] at hbuilt
    obtain ⟨rfl, -, k, t, hnew⟩ := hbuilt
    exact .inl ⟨c, q', k, t, rfl, hnew⟩
  | error err q' =>
    rw [hrun] at hbuilt
    rcases hbuilt with hclash | ⟨c, hc, howned, r, hr, hcopy⟩
    · -- no two children have the same name
      refine absurd ?_ hclash
      rw [List.filterMap_map]
      simpa [Function.comp_def] using hdistinct
    · exact .inr ⟨c, hc, howned, r, err, q', hr, hcopy, rfl⟩

/-- The call of a constructor is parsed as the same expression however its arguments are given. -/
theorem ofSource_call (hs : s.Sound) (hscope : s.Anchored scope out)
    (hdistinct : (fillings.map (·.name)).Nodup)
    (hoffers : s.Offers scope name (Filling.record fillings))
    (hdepth : s.settings.maxDepth = levels + 1)
    (hreads : ∀ f ∈ fillings, f.Reads s scope out levels)
    (hfits : ∀ f ∈ fillings, f.type.compatibleWith f.tree.type = true)
    (hargs : Filling.Spells fillings args argNames) {source : String}
    (hsource : Lexer.lexemes source.toList =
      Grammar.callOf name (args.map fun a => (a.1, a.2.lexemes)))
    (hyoung : (Store.youngAt out).Holds (ofSource s scope source).store) :
    let parsed := ofSource s scope source
    ∃ e children, parsed.result = .ok e ∧ parsed.diagnostics = [] ∧
      e.roots = [.apply (Filling.call name fillings argNames) children] ∧
      parsed.store.Means children (fillings.map (·.tree)) := by
  have hcases := ofSource_cases hscope.sees (.refl hs) hscope.live source hyoung
  have hframes : ∀ f ∈ fillings,
      Grammar.frame (s.env scope) levels [] f.lexemes = some (f.tree, []) :=
    fun f hf => (hreads f hf).frame_eq hs hscope
  -- there are rounds enough for the one statement that there is
  have hlength : (Lexer.lexemes source.toList).length + 1 =
      (Grammar.arguments (args.map fun a => (a.1, a.2.lexemes))).length + 1 + 2 := by
    rw [hsource, Grammar.callOf, List.length_cons, List.length_cons]
  have hnames : (args.map fun a => (a.1, a.2.lexemes)).map (·.1) = args.map (·.1) := by
    rw [List.map_map]
    rfl
  dsimp only at hcases ⊢
  rw [hlength, hsource, hdepth, Grammar.statements_call (hargs.argues hframes), hnames,
    hargs.bind_eq hdistinct hoffers hfits, Option.map_some] at hcases
  obtain ⟨e, he, hdiagnostics, -, -, hmeans⟩ := hcases
  generalize hroots : e.roots = roots at hmeans
  unfold Filling.built at hmeans
  cases hmeans with
  | @apply _ children _ _ _ hchildren hnil =>
    cases hnil
    exact ⟨e, children, he, hdiagnostics, hroots, hchildren⟩

/-- The arguments of a constructor may be given by name, in any order, or without names in the order
of declaration: the call is parsed as the same expression, up to the names that it keeps of its
operands. If all operands end normally then its value is a new plain tuple with the declared names,
in the order of declaration, and the values of the arguments of these names; the type fits this
tuple. An operand that only refers to a tuple is copied, and if that fails then so does the call. -/
theorem constructor_takes_arguments_in_any_order (hs : s.Sound) (hscope : s.Anchored scope out)
    (hdistinct : (fillings.map (·.name)).Nodup)
    (hoffers : s.Offers scope name (Filling.record fillings))
    (hdepth : s.settings.maxDepth = levels + 1)
    (hreads : ∀ f ∈ fillings, f.Reads s scope out levels)
    (hfits : ∀ f ∈ fillings, f.type.compatibleWith f.tree.type = true)
    (hargs : Filling.Spells fillings args argNames) {source : String}
    (hsource : Lexer.lexemes source.toList =
      Grammar.callOf name (args.map fun a => (a.1, a.2.lexemes)))
    (hyoung : (Store.youngAt out).Holds (ofSource s scope source).store) :
    let parsed := ofSource s scope source
    ∃ e children, parsed.result = .ok e ∧ parsed.diagnostics = [] ∧
      e.roots = [.apply (Filling.call name fillings argNames) children] ∧
      parsed.store.Means children (fillings.map (·.tree)) ∧
      ∀ host q cells q₁, q.Rooted → q.settings.allows 1 = true →
        (∀ n ∈ children, n.AddsOnly host q) →
        Node.evaluateAll host children 2 q = .ok (.ready cells) q₁ →
        List.Forall₂ (fun f c => f.type.compatibleWith c.type = true) fillings cells →
        (∃ c q' k t, e.evaluate host q = .ok [⟨.normal, c⟩] q' ∧
          q.Constructs q₁ q' (fillings.map (some ·.name)) cells c k t ∧
          (Filling.record fillings).compatibleWith c.type = true) ∨
        ∃ c ∈ cells, c.owned = false ∧ ∃ r err q', q.Sprouts r ∧
          StoreM.duplicate c r = .error err q' ∧ e.evaluate host q = .error err q' := by
  obtain ⟨e, children, he, hdiagnostics, hroots, hmeans⟩ :=
    ofSource_call hs hscope hdistinct hoffers hdepth hreads hfits hargs hsource hyoung
  refine ⟨e, children, he, hdiagnostics, hroots, hmeans, ?_⟩
  intro host q cells q₁ hq hallows hchildren hready htypes
  refine (evaluate_call hroots hallows hq hchildren hready hdistinct htypes.length_eq).imp_left ?_
  rintro ⟨c, q', k, t, hrun, hnew⟩
  exact ⟨c, q', k, t, hrun, hnew, Filling.compatible_of_constructs hnew htypes⟩

/-! ### A pair -/

/-- The operands of the only statement, a call, if they are all evaluated normally. -/
def operands (parsed : Parsed (Except Error Expression)) : Option (List Cell) :=
  match parsed.result with
  | .ok ⟨[.apply _ children], _⟩ =>
    match Node.evaluateAll .none children 2 parsed.store with
    | .ok (.ready cells) _ => some cells
    | _ => none
  | _ => none

/-- Operands that are read off a run are those that evaluating the arguments comes to. -/
theorem ready_of_operands_eq_some {parsed : Parsed (Except Error Expression)} {cells : List Cell}
    {e : Expression} {b : Binding} {children : List Node} (h : operands parsed = some cells)
    (he : parsed.result = .ok e) (hroots : e.roots = [.apply b children]) :
    ∃ q, Node.evaluateAll .none children 2 parsed.store = .ok (.ready cells) q := by
  obtain ⟨roots, scope⟩ := e
  obtain rfl : roots = _ := hroots
  rw [operands, he] at h
  dsimp only at h
  split at h
  · cases h
    exact ⟨_, ‹_›⟩
  · cases h

/-- There is a root scope, there are no vacant slots, and no tuple has attributes. -/
def isBlank (s : Store) : Bool :=
  (s.tuple? s.root).isSome && s.arena.free.isEmpty && s.arena.slots.toList.all fun slot =>
    slot.tuple.any fun t => t.entries.isEmpty && t.kind.fixedPermissions?.isNone

/-- A store without attributes is rooted. -/
theorem rooted_of_isBlank (h : isBlank s = true) : s.Rooted := by
  rw [isBlank, Bool.and_eq_true, Bool.and_eq_true, List.isEmpty_iff, List.all_eq_true] at h
  obtain ⟨⟨hroot, hfree⟩, hslots⟩ := h
  have hempty : ∀ x t, s.tuple? x = some t → t.entries = [] ∧ t.kind.fixedPermissions? = none := by
    intro x t ht
    obtain ⟨n, hslot, -⟩ := Arena.get?_eq_some_iff.mp ht
    simpa using hslots _ (Array.mem_toList_iff.mpr (Array.mem_of_getElem? hslot))
  -- no slot is vacant, so the free list has nothing to list
  have hfull : s.arena.slots.toList.all (·.tuple.isSome) = true := by
    refine List.all_eq_true.mpr fun slot hslot => ?_
    have hany := hslots slot hslot
    cases htuple : slot.tuple with
    | none => simp [htuple] at hany
    | some t => rfl
  refine ⟨⟨Arena.sound_of_full hfree hfull, Option.isSome_iff_exists.mp hroot⟩, fun x t ht => ?_,
    fun x t ht e he => ?_⟩
  · rw [(hempty x t ht).2, Option.getD_none]
  · rw [(hempty x t ht).1] at he
    cases he

/-- Literals that hold no tuples only add to the store that they are in. -/
theorem addsOnly_of_scalars {nodes : List Node} {trees : List Tree} (hs : s.Rooted)
    (host : Host) (h : s.Means nodes trees)
    (hscalar : ∀ t ∈ trees, ∃ type v, t = .literal (.scalar type v)) :
    ∀ n ∈ nodes, n.AddsOnly host s := by
  induction h with
  | nil => exact nofun
  | literal hdenotes _ _ ih =>
    obtain ⟨⟨type, v, heq⟩, hrest⟩ := List.forall_mem_cons.mp hscalar
    cases heq
    refine List.forall_mem_cons.mpr ⟨Node.addsOnly_of_quiet hs (.value ?_), ih hrest⟩
    cases hdenotes with
    | scalar _ hstores hnone _ => exact ⟨_, hstores, fun y hy => by simp [hnone] at hy⟩
  | named | apply => simp at hscalar

/-- The children of a pair, and what they are given. -/
def pairFillings : List Filling :=
  [⟨"a", .leaf "bool", "true", .literal (.scalar "bool" (.bool true))⟩,
    ⟨"b", .leaf "text", "\"x\"", .literal (.scalar "text" (.text "x"))⟩]

/-- A root scope with the type of pairs. -/
def pairStore : Store :=
  (StoreM.registerType ⟨0, 0⟩ "pt" (Filling.record pairFillings)).after (.bare { maxDepth := 2 })

theorem pairStore_sound : pairStore.Sound := ⟨Arena.sound_of_full rfl rfl, _, rfl⟩

theorem pairStore_anchored : pairStore.Anchored ⟨0, 0⟩ none :=
  ⟨⟨0, ⟨0, 0⟩, _, rfl, rfl, rfl⟩, nofun, nofun⟩

theorem pairStore_offers : pairStore.Offers ⟨0, 0⟩ "pt" (Filling.record pairFillings) := by
  have hbare : (Store.bare { maxDepth := 2 }).Anchored ⟨0, 0⟩ none :=
    ⟨⟨0, ⟨0, 0⟩, _, rfl, rfl, rfl⟩, nofun, nofun⟩
  have hself : (⟨0, 0⟩ : TupleId) ∈ (Store.bare { maxDepth := 2 }).scopeChain ⟨0, 0⟩ :=
    List.mem_singleton_self _
  refine hbare.offers_registerType hself (fun r hr => ?_) rfl rfl rfl rfl
  cases hr
  exact .empty rfl rfl rfl rfl

/-- The two arguments are read off their texts. -/
theorem pairFillings_reads : ∀ f ∈ pairFillings, f.Reads pairStore ⟨0, 0⟩ none 1 := by
  intro f hf
  refine Filling.reads_of_frame pairStore_sound pairStore_anchored ?_
  simp only [pairFillings, List.mem_cons, List.not_mem_nil, or_false] at hf
  rcases hf with rfl | rfl
  · rw [show Filling.lexemes _ = [⟨.trueWord, "true"⟩] by decide +kernel]
    rfl
  · rw [show Filling.lexemes _ = [⟨.text, "\"x\""⟩] by decide +kernel]
    rfl

/-- `pt(b = "x", a = true)` is a pair of `true` and `"x"`. -/
theorem constructor_takes_arguments_in_any_order_pair :
    let parsed := ofSource pairStore ⟨0, 0⟩ "pt(b = \"x\", a = true)"
    pairStore.Sound ∧ pairStore.Offers ⟨0, 0⟩ "pt" (Filling.record pairFillings) ∧
      ∃ e c q k t, parsed.result = .ok e ∧ e.evaluate .none parsed.store = .ok [⟨.normal, c⟩] q ∧
        c.Stores q.heap (.tuple k) ∧ q.tuple? k = some t ∧ t.kind = .plain ∧
        t.entries.map (·.name) = [some "a", some "b"] ∧
        (Filling.record pairFillings).compatibleWith c.type = true := by
  have hfits : ∀ f ∈ pairFillings, f.type.compatibleWith f.tree.type = true := by decide
  have hsource : Lexer.lexemes "pt(b = \"x\", a = true)".toList = Grammar.callOf "pt"
      ((pairFillings.reverse.map fun f => (some f.name, f)).map fun a => (a.1, a.2.lexemes)) := by
    decide +kernel
  obtain ⟨e, children, he, -, hroots, hmeans, hruns⟩ :=
    constructor_takes_arguments_in_any_order pairStore_sound pairStore_anchored (by decide)
      pairStore_offers rfl pairFillings_reads hfits (.byName pairFillings.reverse_perm) hsource
      (Store.holds_youngAt_none _)
  -- what the operands come to is computed
  have hcomputed : (let parsed := ofSource pairStore ⟨0, 0⟩ "pt(b = \"x\", a = true)"
      isBlank parsed.store && parsed.store.settings.allows 1 && (operands parsed).any fun cells =>
        cells.map Cell.type == [.leaf "bool", .leaf "text"] && cells.all (·.owned)) = true := by
    decide +kernel
  dsimp only at hcomputed ⊢
  generalize ofSource pairStore ⟨0, 0⟩ "pt(b = \"x\", a = true)" = parsed at *
  rw [Bool.and_eq_true, Bool.and_eq_true, Option.any_eq_true] at hcomputed
  obtain ⟨⟨hblank, hallows⟩, cells, hcells, hcomputed⟩ := hcomputed
  rw [Bool.and_eq_true, beq_iff_eq, List.all_eq_true] at hcomputed
  obtain ⟨htypes, howned⟩ := hcomputed
  have hrooted := rooted_of_isBlank hblank
  obtain ⟨q, hready⟩ := ready_of_operands_eq_some hcells he hroots
  have hadds := addsOnly_of_scalars hrooted .none hmeans (by simp [pairFillings])
  have hfit : List.Forall₂ (fun (f : Filling) type => f.type.compatibleWith type = true)
      pairFillings (cells.map Cell.type) := by
    rw [htypes]
    exact .cons rfl (.cons rfl .nil)
  rw [List.forall₂_map_right_iff] at hfit
  rcases hruns .none _ cells q hrooted hallows hadds hready hfit with
    ⟨c, q', k, t, hrun, hnew, hcompatible⟩ | ⟨c, hc, hborrowed, -⟩
  · exact ⟨pairStore_sound, pairStore_offers, e, c, q', k, t, he, hrun, hnew.holds, hnew.live,
      hnew.plain, hnew.names, hcompatible⟩
  · rw [howned c hc] at hborrowed
    cases hborrowed

/-! ### Calls that fail -/

/-- The source is parsed in the scope. -/
def Accepts (s : Store) (scope : TupleId) (source : String) : Prop :=
  ∃ e, (ofSource s scope source).result = .ok e

instance (s : Store) (scope : TupleId) (source : String) : Decidable (Accepts s scope source) :=
  match h : (ofSource s scope source).result with
  | .ok e => .isTrue ⟨e, h⟩
  | .error err => .isFalse fun ⟨e, he⟩ => by simp [h] at he

/-- A type of two boxes. -/
def boxesType : TypeDesc := .tree [(some "a", Store.boxType), (some "b", Store.boxType)]

/-- A ring of two scopes. The constructors of the two types are in different ones. -/
def loopStore : Store :=
  (StoreM.registerType ⟨1, 0⟩ "box" Store.boxType).after
    ((StoreM.registerType ⟨0, 0⟩ "pt" boxesType).after (ring (.bare {})))

/-- A scope with a type, moved into another one after that has been registered. -/
def strayStore : Store :=
  ((StoreM.registerType ⟨1, 0⟩ "box" Store.boxType).after
    ((Store.bare {}).createWith (.custom "m") .all none).2).adopt ⟨0, 0⟩ ⟨1, 0⟩

/-- A store in which nothing may be nested. -/
def flatStore : Store :=
  (StoreM.registerType ⟨0, 0⟩ "box" Store.boxType).after (.bare { maxDepth := 1 })

/-- A variable `r` that refers to a tuple, which has been destroyed since, and a type of boxes of
such tuples. -/
def staleStore : Store :=
  (do
    StoreM.registerType ⟨0, 0⟩ "box" (.tree [(some "v", Store.boxType)])
    let x ← StoreM.newNative .bool true
    let id ← StoreM.createFrom .plain none [(some "x", x)]
    let r ← StoreM.onHeap fun h => Cell.make h Store.boxType (.tuple id)
    discard <| StoreM.add ⟨0, 0⟩ (some "r") { r with owned := false }
    modify (·.destroy id) : StoreM Unit).after (.bare {})

theorem staleStore_sound : staleStore.Sound := by
  refine ⟨⟨by decide +kernel, fun i => ?_⟩, _, rfl⟩
  rw [show staleStore.arena.free = [1] from rfl, List.mem_singleton]
  constructor
  · rintro rfl
    exact ⟨_, rfl, rfl⟩
  · rintro ⟨slot, hslot, hvacant⟩
    match i with
    | 0 =>
      cases hslot
      cases hvacant
    | 1 => rfl
    | i + 2 => cases hslot

/-- The outcome is an error. -/
def fails : EStateM.Result Error Store (List Outcome) → Bool
  | .ok _ _ => false
  | .error _ _ => true

/-- Calls of constructors may fail although their arguments are in order. In a ring of scopes, the
outermost one depends on the number of slots, and an argument may take one, so that those behind it
are looked for elsewhere. The constructor may be out of sight of the type. At the limit, no level is
left for arguments. A reference to a tuple that is no more is evaluated, but cannot be copied. -/
theorem constructor_calls_fail :
    (loopStore.Sound ∧ loopStore.lookupType ⟨1, 0⟩ "pt" = some boxesType ∧
      Accepts loopStore ⟨1, 0⟩ "pt(a = box(x = true), b = P(x = true))" ∧
      ¬Accepts loopStore ⟨1, 0⟩ "pt(b = P(x = true), a = box(x = true))") ∧
    (strayStore.Sound ∧ strayStore.lookupType ⟨1, 0⟩ "box" = some Store.boxType ∧
      Accepts strayStore ⟨1, 0⟩ "true" ∧ ¬Accepts strayStore ⟨1, 0⟩ "box(x = true)") ∧
    (flatStore.Sound ∧ flatStore.lookupType ⟨0, 0⟩ "box" = some Store.boxType ∧
      Accepts flatStore ⟨0, 0⟩ "true" ∧ ¬Accepts flatStore ⟨0, 0⟩ "box(x = true)") ∧
    staleStore.Sound ∧ ∃ e cells err q,
      let parsed := ofSource staleStore ⟨0, 0⟩ "box(v = r)"
      parsed.result = .ok e ∧ operands parsed = some cells ∧
        cells.map Cell.type = [Store.boxType] ∧ e.evaluate .none parsed.store = .error err q := by
  -- the last of the four parses and fails only when it runs
  have hcomputed : (let parsed := ofSource staleStore ⟨0, 0⟩ "box(v = r)"
      parsed.result.toOption.any fun e =>
        (operands parsed).any (·.map Cell.type == [Store.boxType]) &&
          fails (e.evaluate .none parsed.store)) = true := by decide +kernel
  refine ⟨⟨⟨Arena.sound_of_full rfl rfl, _, rfl⟩, rfl, by decide +kernel, by decide +kernel⟩,
    ⟨⟨Arena.sound_of_full rfl rfl, _, rfl⟩, rfl, by decide +kernel, by decide +kernel⟩,
    ⟨⟨Arena.sound_of_full rfl rfl, _, rfl⟩, rfl, by decide +kernel, by decide +kernel⟩,
    staleStore_sound, ?_⟩
  dsimp only at hcomputed ⊢
  generalize ofSource staleStore ⟨0, 0⟩ "box(v = r)" = parsed at *
  cases hresult : parsed.result with
  | error => rw [hresult] at hcomputed; cases hcomputed
  | ok e =>
    rw [hresult, Except.toOption, Option.any_some, Bool.and_eq_true,
      Option.any_eq_true] at hcomputed
    obtain ⟨⟨cells, hcells, htypes⟩, hfails⟩ := hcomputed
    cases hrun : e.evaluate .none parsed.store with
    | ok => rw [hrun] at hfails; cases hfails
    | error err q => exact ⟨e, cells, err, q, rfl, hcells, beq_iff_eq.mp htypes, hrun⟩

end Expression

end TupleLang
