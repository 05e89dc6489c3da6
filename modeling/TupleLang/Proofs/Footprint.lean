import TupleLang.Builtin.Catalogue
import TupleLang.Expr
import TupleLang.Proofs.Acting
import TupleLang.Proofs.Aside
import TupleLang.Proofs.Choice
import TupleLang.Proofs.LinearParser
import TupleLang.Proofs.Persistence

/-!
# What evaluation may change

Evaluation makes tuples of its own and gives up tuples that are assigned over. A tuple that is there
before and after is the same, and the values of one that may not be modified are the same as well
(`evaluate_keeps_survivors`): variables are handles, and a handle on an attribute that may not be
modified is locked wherever it goes.
-/

namespace TupleLang

/-- Whether the host runs the body. -/
def Body.isHost : Body → Bool
  | .host _ => true
  | _ => false

namespace Store

variable {base s s' : Store} {c : Cell}

/-! ## Bodies -/

section Bodies

variable {w : Store} {E : Error → Prop}

/-- A native value is stored in a place that is not guarded: a guarded one is locked. -/
theorem keeps_write {c : Cell} (hc : base.Passing w c) (n : Native) (v : n.Carrier) :
    (evaluating base).Keeps w (StoreM.write c n v) (fun _ _ => True) fun _ => True := by
  rintro u - s ⟨rfl, hs⟩
  refine .tryHeap ⟨rfl, hs⟩ (fun _ h hset => ?_) fun _ _ => trivial
  have hset : c.set u.heap n v = .ok h := by
    cases hset' : c.set u.heap n v with
    | error e => simp [hset', bind, Except.bind] at hset
    | ok h' => simpa [hset', bind, Except.bind, pure, Except.pure] using hset
  obtain ⟨hlock, -, rfl⟩ := Cell.set_eq_ok_iff.mp hset
  obtain ⟨hs', hfollows⟩ := hs.write (hc.1.2 hlock) (v := n.wrap v) fun id hid => by
    rw [show (n.wrap v).tupleId? = none from Literal.tupleId?_native n v] at hid
    cases hid
  exact ⟨_, hfollows, ⟨rfl, hs'⟩, trivial⟩

/-- What is stored is loose; the tuple that was there before may be anyone's. -/
theorem keeps_putInto {target value : Cell} (previous : Option TupleId)
    (htarget : base.Passing w target) (hvalue : base.LoosePlace w value.loc) :
    (evaluating base).Keeps w (Body.putInto target value previous) base.Passing fun _ => True := by
  refine .bind (Q := base.Passing) ?_ fun target' u _ htarget' => ?_
  · rintro u hu s ⟨rfl, hs⟩
    refine .tryHeap ⟨rfl, hs⟩ (fun target' h hreplace => ?_) fun _ _ => trivial
    obtain ⟨hlock, rfl, rfl⟩ := Cell.replace_eq_ok_iff.mp hreplace
    obtain ⟨hs', hfollows⟩ := hs.write (htarget.1.2 hlock) (v := value.value u.heap)
      fun id hid => (hu.loose _ hvalue).released hid
    exact ⟨_, hfollows, ⟨rfl, hs'⟩, htarget.follows (hu.trans hfollows)⟩
  · cases previous with
    | none => exact .pure fun x hx => htarget'.follows hx
    | some old =>
      have hdestroy : (evaluating base).Moves u (·.destroy old) := by
        rintro y - s' ⟨rfl, hs'⟩
        exact ⟨_, (hs'.destroy old).2, rfl, (hs'.destroy old).1⟩
      refine .get_bind fun x hx s _ => .ite (fun _ => ?_) fun _ => ?_
      · exact .andThen (.modify (hdestroy.of_later hx)) fun _ y hy =>
          .pure fun z hz => htarget'.follows ((hx.trans hy).trans hz)
      · exact .pure fun y hy => htarget'.follows (hx.trans hy)

/-- A value that owns the tuple in it, or holds none, is assigned as it is, any other as a copy. -/
theorem keeps_assignCell {target value : Cell} (htarget : base.Passing w target)
    (hvalue : base.Passing w value) :
    (evaluating base).Keeps w (Body.assignCell target value) base.Passing fun _ => True := by
  rw [Body.assignCell_eq]
  refine .andThen (.ofExcept (fun _ _ _ _ => trivial) fun _ _ => trivial) fun _ v hv => ?_
  refine .ite (fun _ => .throw trivial) fun _ => .get_bind fun u hu s _ =>
    .get_bind fun x hx s' hs' => ?_
  have hx := (hv.trans hu).trans hx
  refine .ite (fun _ => ?_) fun hrefers => ?_
  · have hcopy : (evaluating base).Keeps x (StoreM.duplicate value) _ _ :=
      (evaluatingCopying base).duplicate trivial
    refine .bind (hcopy.mono (fun _ _ _ h => h) fun _ _ => trivial) fun copy y hy hcopy => ?_
    exact keeps_putInto _ (htarget.follows (hx.trans hy)) (hcopy.1 hcopy.2.2)
  · -- the value owns its tuple, or there is none in its place
    have hloose : base.LoosePlace x value.loc := by
      by_cases howned : value.owned = true
      · exact (hvalue.follows hx).2 howned
      · obtain ⟨rfl, -⟩ := hs'
        have hlt := (hvalue.follows hx).1.1
        refine ⟨_, Array.getElem?_eq_getElem hlt, fun id hid => ?_⟩
        have hnone : value.tupleId? x.heap = none := by simpa [howned] using hrefers
        rw [Cell.Stores.tupleId?_eq (c := value) (Array.getElem?_eq_getElem hlt), hid] at hnone
        cases hnone
    refine .bind (Q := fun v c => c = value ∧ base.LoosePlace v value.loc)
      (.pure fun y hy => ⟨rfl, hy.loose _ hloose⟩) fun c y hy hc => ?_
    obtain ⟨rfl, hloose⟩ := hc
    exact keeps_putInto _ (htarget.follows (hx.trans hy)) hloose

/-- Whatever a body does, its result may pass on. -/
def acting (base : Store) : Acting (evaluating base) where
  toCopying := evaluatingCopying base
  Apt _ := True
  ValueOk := base.Passing
  value_lasts hlater hc := hc.follows hlater
  source _ := trivial
  own hc howned _ := hc.2 howned
  void w := keeps_void w
  native w n v := keeps_native w n v _
  unary _ v := keeps_native _ _ v _
  binary _ v := keeps_native _ _ v _
  compound _ hc v := keeps_write hc _ v
  assign _ := keeps_assignCell
  construct := by
    rintro w names id - hid type v hv s hs
    refine leads_make hs type fun id' hid' => ?_
    cases hid'
    obtain ⟨rfl, -⟩ := hs
    exact hv.released _ hid

end Bodies

/-! ## Evaluation -/

/-- What a harmless leaf yields may pass on. -/
theorem keeps_yieldCell {w : Store} (hc : base.Harmless w c) :
    (evaluating base).Keeps w (Node.yieldCell c) base.Passing fun _ => True := by
  have hborrow : ∀ {v}, base.Follows w v → base.Passing v c.borrow := fun hv =>
    ⟨hc.follows hv, fun howned => by cases howned⟩
  refine .yieldCell (fun v hv => hborrow hv) fun howned v hv s hs hnone => ?_
  refine leads_make hs c.type fun id hid => ?_
  rw [← Cell.tupleId?, hnone] at hid
  cases hid

/-- Evaluation of trees whose leaves are harmless and whose actions are the language's own. -/
def evaluation (base : Store) (host : Host) : Evaluating (evaluating base) host where
  LeafOk := base.Harmless
  ValueOk := base.Passing
  Bound b := ∀ label, b.action.body ≠ .host label
  leaf_lasts hlater hc := hc.follows hlater
  value_lasts hlater hc := hc.follows hlater
  yield hc := keeps_yieldCell hc
  void w := keeps_void w
  apply hbound hcells := (acting base).apply trivial hbound host _ hcells

/-! ## Survivors -/

/-- Attributes are in places of their own. -/
structure Apart (s : Store) : Prop where
  bounded : ∀ x t, s.tuple? x = some t → ∀ e ∈ t.entries, e.cell.loc < s.heap.values.size
  apart : ∀ (x y : TupleId) (t u : Tuple) (i j : Nat) (e f : Attribute),
    s.tuple? x = some t → t.entries[i]? = some e → s.tuple? y = some u → u.entries[j]? = some f →
    e.cell.loc = f.cell.loc → x = y ∧ i = j

/-- The only actions are the language's own and the constructors of types. -/
def Stocked (s : Store) : Prop :=
  ∀ id t, s.tuple? id = some t → ∀ p ∈ t.actions,
    p.2 ∈ Builtin.catalogue ∨ ∃ name type, p.2 = Action.constructorFor name type

/-- The language's own actions are not the host's. -/
theorem body_of_mem_catalogue {action : Action} (h : action ∈ Builtin.catalogue) (label : String) :
    action.body ≠ .host label := by
  have hall : (Builtin.catalogue.all fun a => !a.body.isHost) = true := rfl
  intro hbody
  have hnot := List.all_eq_true.mp hall action h
  simp [hbody, Body.isHost] at hnot

/-- No action that is found is the host's. -/
theorem Aside.body_of_mem_actionsNamed {scope : TupleId} (hs : base.Aside scope s)
    (hstocked : base.Stocked) {id : TupleId} {name : String} {action : Action}
    (h : action ∈ s.actionsNamed id name) (label : String) : action.body ≠ .host label := by
  obtain ⟨x, t, key, ht, hmem⟩ := registered_of_mem_actionsNamed h
  rcases hs.cases ht with hbase | ⟨-, hnovel⟩
  · rcases hstocked x t hbase _ hmem with hown | ⟨name, type, hconstructor⟩
    · exact body_of_mem_catalogue hown label
    · rw [show action = _ from hconstructor]
      exact nofun
  · simp [hnovel.actions] at hmem

/-- A guarded place is that of an attribute of the base, since novelties may be modified. -/
theorem Aside.guarded {scope : TupleId} (hs : base.Aside scope s) {loc : Nat} (h : s.Guarded loc) :
    base.Guarded loc := by
  obtain ⟨id, t, ht, hdenied, hentry⟩ := h
  rcases hs.cases ht with hbase | ⟨-, hnovel⟩
  · exact ⟨id, t, hbase, hdenied, hentry⟩
  · simp [hnovel.permits] at hdenied

/-- Guarded places are in use. -/
theorem Apart.lt_of_guarded (h : s.Apart) {loc : Nat} (hloc : s.Guarded loc) :
    loc < s.heap.values.size := by
  obtain ⟨id, t, ht, -, e, he, rfl⟩ := hloc
  exact h.bounded id t ht e he

/-- The leaves of a parsed expression do not write to guarded places. -/
theorem Aside.harmless {scope : TupleId} (hs : base.Aside scope s) (hapart : base.Apart)
    (hc : base.LeafOf s.heap c) : s.Harmless s c := by
  rcases hc with ⟨hle, v, hv, -⟩ | ⟨-, x, t, ht, e, he, hloc, hlock⟩
  · refine ⟨(Array.getElem?_eq_some_iff.mp hv).1, fun _ hg => ?_⟩
    have hlt := hapart.lt_of_guarded (hs.guarded hg)
    omega
  · refine ⟨hloc ▸ (hapart.bounded x t ht e he).trans_le hs.heap.size_le, fun hnone hg => ?_⟩
    obtain ⟨y, u, hu, hdenied, f, hf, hloc'⟩ := hs.guarded hg
    obtain ⟨i, hi⟩ := List.mem_iff_getElem?.mp he
    obtain ⟨j, hj⟩ := List.mem_iff_getElem?.mp hf
    obtain ⟨rfl, -⟩ := hapart.apart x y t u i j e f ht hi hu hj (hloc.trans hloc'.symm)
    rw [ht] at hu
    cases hu
    simp [hlock hnone] at hdenied

/-- A sound store is sound when an expression has been parsed. -/
theorem sound_parse (hs : s.Sound) {scope : TupleId} {cursor : Cursor} {e : Expression}
    (he : (Expression.parse s scope cursor).result = .ok e) :
    (Expression.parse s scope cursor).store.Sound := by
  obtain ⟨_, -, htrade⟩ :=
    reaches_parseStatements scope (cursor.remaining + 1) (s := ⟨s, cursor⟩) hs
  rw [(Expression.of_parse_ok he).2.2]
  exact htrade.sound

/-- A parsed expression is made of leaves of the base and of actions that are not the host's. -/
theorem forms_of_parse (hs : base.Sound) (hstocked : base.Stocked) {scope : TupleId}
    {cursor : Cursor}
    {e : Expression} (he : (Expression.parse base scope cursor).result = .ok e) :
    let s := (Expression.parse base scope cursor).store
    base.Aside scope s ∧ ∀ n ∈ e.roots,
      n.Forms (base.LeafOf s.heap) fun b => ∀ label, b.action.body ≠ .host label := by
  intro s
  have hnamed : ∀ (s' : Store) (id : TupleId) (name : String) (action : Action),
      base.Aside scope s' → action ∈ s'.actionsNamed id name → ∀ label, action.body ≠ .host label :=
    fun s' id name action haside hmem => haside.body_of_mem_actionsNamed hstocked hmem
  let parsing := asideParsing base scope (fun b => ∀ label, b.action.body ≠ .host label)
    (fun s' draft action owner args argNames haside hchoice =>
      hnamed s' scope draft.name action haside
      (named_of_mem_candidates (Choice.mem_of_mostSpecific hchoice)))
    (fun s' draft owner args compare ordering relation returns haside _ _ hcomparison => by
      obtain ⟨hcompare, -, hrelation, -⟩ := comparison?_eq_some hcomparison
      exact ⟨hnamed s' _ _ relation haside (mem_actionsOf.mp hrelation).1,
        hnamed s' _ _ compare haside (mem_actionsOf.mp hcompare).1⟩)
  obtain ⟨-, h, -, ⟨rfl, haside⟩, hroots⟩ :=
    parsing.parse (w := base.heap) ⟨rfl, .refl fun i hi => hs.not_occupied hi⟩ he
  exact ⟨haside, hroots⟩

/-- Evaluating statements in any store, whether it fails or not, leaves the tuples alone that are
still there afterwards, as long as no leaf writes to a guarded place. -/
theorem survivors_of_harmless (hs : s.Sound)
    (hplaces : ∀ loc, s.Guarded loc → loc < s.heap.values.size) (host : Host) {e : Expression}
    (hroots : ∀ n ∈ e.roots, n.Forms (s.Harmless s) fun b => ∀ label, b.action.body ≠ .host label) :
    let after := (e.evaluate host).after s
    ∀ (slot n : Nat) (t t' : Tuple), s.arena.slots[slot]? = some ⟨n, some t⟩ →
      after.arena.slots[slot]? = some ⟨n, some t'⟩ →
      t' = t ∧ (t.permissions.modify = false →
        ∀ e ∈ t.entries, e.cell.value after.heap = e.cell.value s.heap) := by
  intro after slot n t t' hbefore hafter
  have hpersists : s.Persists s := by
    refine ⟨fun _ _ _ h => .inl h, fun i hi n t hslot => ?_, fun loc hloc =>
      ⟨hplaces loc hloc, rfl⟩⟩
    exact absurd ⟨n, t, hslot⟩ (hs.not_occupied hi)
  have hkeeps : (evaluating s).Keeps s (e.evaluate host) (fun _ _ => True) fun _ => True :=
    (evaluation s host).evaluateRoots hroots
  obtain ⟨_, -, rfl, hend⟩ := (hkeeps s (.refl _ _) s ⟨rfl, hpersists⟩).after
  -- the slot was not vacated, or its count would have gone up
  have hsame : t' = t := by
    rcases hend.kept slot n t hbefore with hkept | hreleased
    · rw [hafter] at hkept
      cases hkept
      rfl
    · obtain ⟨slot', hslot', hlt⟩ := hreleased n t hbefore
      rw [hafter] at hslot'
      cases hslot'
      exact absurd hlt (Nat.lt_irrefl n)
  refine ⟨hsame, fun hdenied entry hentry => ?_⟩
  have hlive : s.tuple? ⟨slot, UInt32.ofNat n⟩ = some t :=
    Arena.get?_eq_some_iff.mpr ⟨n, hbefore, rfl⟩
  have hvalue := (hend.guarded _ ⟨_, t, hlive, hdenied, entry, hentry, rfl⟩).2
  simp only [Cell.value, Heap.get, after, hvalue]

/-- Evaluating an expression right after it has been parsed, whether it fails or not, leaves the
tuples alone that are still there afterwards: each of them is the same, with all its attributes,
types and actions, and if it may not be modified then its attributes have the values that they had.
In a store that has changed since, `survivors_of_harmless` says the same as long as no leaf of the
expression has come to be an attribute that may not be modified.

A tuple is known by its slot and by how often that had been vacated when it was moved in. -/
theorem evaluate_keeps_survivors (hs : s.Sound) (hstocked : s.Stocked) (hapart : s.Apart)
    (scope : TupleId) (cursor : Cursor) (host : Host) :
    let parsed := Expression.parse s scope cursor
    ∀ e, parsed.result = .ok e →
      let after := (e.evaluate host).after parsed.store
      ∀ (slot n : Nat) (t t' : Tuple), parsed.store.arena.slots[slot]? = some ⟨n, some t⟩ →
        after.arena.slots[slot]? = some ⟨n, some t'⟩ →
        t' = t ∧ (t.permissions.modify = false →
          ∀ e ∈ t.entries, e.cell.value after.heap = e.cell.value parsed.store.heap) := by
  intro parsed e he
  obtain ⟨haside, hroots⟩ := forms_of_parse hs hstocked he
  have hplaces : ∀ loc, parsed.store.Guarded loc → loc < parsed.store.heap.values.size :=
    fun loc hloc => (hapart.lt_of_guarded (haside.guarded hloc)).trans_le haside.heap.size_le
  exact survivors_of_harmless (sound_parse hs he) hplaces host fun n hn =>
    (hroots n hn).mono fun c hc => haside.harmless hapart hc

/-- Assignment, as the language has it. -/
def assignment : Action := Builtin.operator "=" "any" ["any"] "any" .assign

/-- A tuple that permits nothing, with a truth value called `x`. -/
def sealedTuple : Tuple where
  kind := .custom "sealed"
  permissions := {}
  parent := some ⟨0, 0⟩
  entries := [⟨some "x", { type := .leaf "bool", loc := 0 }⟩]
  index := [("x", 0)]

/-- A root scope that knows assignment, and a tuple in it that permits nothing. -/
def sealedStore : Store where
  arena :=
    { slots := #[
        ⟨0, some { kind := .custom "global", permissions := .all, parent := none,
                   actions := [(assignment.signature.key, assignment)],
                   byName := [("=", [assignment.signature.key])] }⟩,
        ⟨0, some sealedTuple⟩] }
  heap := ⟨#[.bool false]⟩
  root := ⟨0, 0⟩

/-- The tuples of the store. -/
theorem sealedStore_cases {x : TupleId} {t : Tuple} (h : sealedStore.tuple? x = some t) :
    x = ⟨0, 0⟩ ∧ t.entries = [] ∧ t.actions = [(assignment.signature.key, assignment)] ∨
      x = ⟨1, 0⟩ ∧ t = sealedTuple := by
  obtain ⟨index, generation⟩ := x
  obtain ⟨n, hslot, hgen⟩ := Arena.get?_eq_some_iff.mp h
  match index with
  | 0 => cases hslot; cases hgen; exact .inl ⟨rfl, rfl, rfl⟩
  | 1 => cases hslot; cases hgen; exact .inr ⟨rfl, rfl⟩
  | index + 2 => simp [sealedStore] at hslot

theorem sealedStore_sound : sealedStore.Sound :=
  ⟨Arena.sound_of_full rfl rfl, _, rfl⟩

theorem sealedStore_stocked : sealedStore.Stocked := by
  intro x t ht p hp
  rcases sealedStore_cases ht with ⟨-, -, hactions⟩ | ⟨-, rfl⟩
  · rw [hactions, List.mem_singleton] at hp
    rw [hp]
    exact .inl (List.mem_append_right _ List.mem_cons_self)
  · cases hp

theorem sealedStore_apart : sealedStore.Apart := by
  refine ⟨fun x t ht e he => ?_, fun x y t u i j e f ht hi hu hj _ => ?_⟩
  · rcases sealedStore_cases ht with ⟨-, hentries, -⟩ | ⟨-, rfl⟩
    · simp [hentries] at he
    · rw [List.mem_singleton.mp he]
      exact Nat.one_pos
  · rcases sealedStore_cases ht with ⟨-, hentries, -⟩ | ⟨rfl, rfl⟩
    · simp [hentries] at hi
    · rcases sealedStore_cases hu with ⟨-, hentries, -⟩ | ⟨rfl, rfl⟩
      · simp [hentries] at hj
      · have hi := (List.getElem?_eq_some_iff.mp hi).1
        have hj := (List.getElem?_eq_some_iff.mp hj).1
        simp only [sealedTuple, List.length_singleton] at hi hj
        exact ⟨rfl, by omega⟩

/-- The assignment `x = true`, parsed in the tuple that permits nothing. -/
def sealedAssignment : Expression where
  roots := [.apply { op := .assign, name := "=", action := assignment, type := .leaf "bool" }
    [.value { type := .leaf "bool", loc := 0, owned := false, lockedBy := some "sealed" }
      (some "x"),
     .literal { type := .leaf "bool", loc := 1 }]]
  scope := ⟨1, 0⟩

/-- Parsing `x = true` in the tuple that permits nothing. -/
def sealedParse : Parsed (Except Error Expression) :=
  Expression.parse sealedStore ⟨1, 0⟩
    (Cursor.ofTokens [⟨.ident, "x", {}⟩, ⟨.symbol, "=", {}⟩, ⟨.trueWord, "true", {}⟩])

/-- Assigning to the attribute of a tuple that permits nothing: the expression is parsed, its
evaluation fails, and the attribute is as it was. -/
theorem evaluate_keeps_survivors_sealed :
    let after := (sealedAssignment.evaluate .none).after sealedParse.store
    sealedStore.Sound ∧ sealedStore.Stocked ∧ sealedStore.Apart ∧
      sealedParse.result = .ok sealedAssignment ∧
      after.arena.slots[1]? = some ⟨0, some sealedTuple⟩ ∧
      after.heap.get 0 = sealedParse.store.heap.get 0 := by
  have hparsed : sealedParse.result = .ok sealedAssignment := by rfl
  have hbefore : sealedParse.store.arena.slots[1]? = some ⟨0, some sealedTuple⟩ := by rfl
  have hafter : ((sealedAssignment.evaluate .none).after sealedParse.store).arena.slots[1]? =
      some ⟨0, some sealedTuple⟩ := by rfl
  have hsame := evaluate_keeps_survivors sealedStore_sound sealedStore_stocked sealedStore_apart
    ⟨1, 0⟩ _ .none sealedAssignment hparsed 1 0 sealedTuple sealedTuple hbefore hafter
  exact ⟨sealedStore_sound, sealedStore_stocked, sealedStore_apart, hparsed, hafter,
    hsame.2 rfl _ List.mem_cons_self⟩

end Store

end TupleLang
