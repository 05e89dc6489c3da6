import TupleLang.Builtin.Catalogue
import TupleLang.Proofs.Aside
import TupleLang.Proofs.Choice
import TupleLang.Proofs.Everywhere
import TupleLang.Proofs.FollowingParser
import TupleLang.Proofs.Identity

/-!
# Constructors and scopes

Types are registered in scopes, but their constructors all go to the outermost one, under the name
of the type. So a call of a constructor builds the type that its name means in the scope of the call
as long as one name means one type everywhere (`constructor_calls_respect_scope`). With two types of
one name, one scope within the other, the constructor of the outer type can be called from within
(`shadowed_constructor_is_called`).
-/

namespace TupleLang

/-! ## Registries in order -/

/-- The registry is in order: its types are registered ones; actions are kept under the keys of
their signatures, once each, and under their names; and constructors are those of registered types.
-/
structure Tuple.Charted (H : List (String × TypeDesc)) (t : Tuple) : Prop where
  types : ∀ p ∈ t.types, p ∈ H
  keys : ∀ p ∈ t.actions, p.1 = p.2.signature.key
  constructors : ∀ p ∈ t.actions, p.2.signature.category = Signature.constructorCategory →
    ∃ type, (p.2.name, type) ∈ H ∧ type.isLeaf = false ∧ p.2 = .constructorFor p.2.name type
  names : ∀ p ∈ t.byName, p.2.Nodup ∧
    ∀ key ∈ p.2, ∃ action, t.actions.lookup key = some action ∧ action.name = p.1

namespace Tuple

variable {H H' : List (String × TypeDesc)} {t t' : Tuple} {name : String} {a b : Action}

/-- Whether a tuple is charted is told by what is registered in it. -/
theorem ofRegistry_charted (H : List (String × TypeDesc)) : OfRegistry (Charted H) where
  congr := by
    rintro t t' ⟨htypes, hactions, hnames⟩ ⟨h₁, h₂, h₃, h₄⟩
    exact ⟨htypes ▸ h₁, hactions ▸ h₂, hactions ▸ h₃, by rw [hnames, hactions]; exact h₄⟩
  empty := by
    intro t htypes hactions hnames
    exact ⟨by simp [htypes], by simp [hactions], by simp [hactions], by simp [hnames]⟩

/-- A tuple is charted in any longer list of types. -/
theorem Charted.mono (h : t.Charted H) (hH : ∀ p ∈ H, p ∈ H') : t.Charted H' where
  types p hp := hH p (h.types p hp)
  keys := h.keys
  constructors p hp hcategory := by
    obtain ⟨type, hmem, hrest⟩ := h.constructors p hp hcategory
    exact ⟨type, hH _ hmem, hrest⟩
  names := h.names

/-- What is found in a table is in it. -/
theorem mem_of_lookup {key : TypeDesc} (h : t.actions.lookup key = some a) :
    (key, a) ∈ t.actions := by
  obtain ⟨before, after, hactions, -⟩ := List.lookup_eq_some_iff.mp h
  simp [hactions]

/-- What is in the table of keys once one more key is in it. -/
theorem mem_pushKey {table : List (String × List TypeDesc)} {key : TypeDesc}
    {p : String × List TypeDesc} (h : p ∈ pushKey table name key) :
    p ∈ table ∨ p.1 = name ∧
    (p.2 = [key] ∨ ∃ keys, (name, keys) ∈ table ∧ p.2 = keys ++ [key]) := by
  induction table with
  | nil =>
    rw [pushKey, List.mem_singleton] at h
    exact .inr ⟨by rw [h], .inl (by rw [h])⟩
  | cons entry rest ih =>
    obtain ⟨n, keys⟩ := entry
    rw [pushKey] at h
    split at h
    · rename_i hn
      rcases List.mem_cons.mp h with rfl | h
      · exact .inr ⟨hn, .inr ⟨keys, by simp [hn], rfl⟩⟩
      · exact .inl (List.mem_cons_of_mem _ h)
    · rcases List.mem_cons.mp h with rfl | h
      · exact .inl List.mem_cons_self
      · rcases ih h with h | ⟨hname, h | ⟨keys', hmem, hkeys⟩⟩
        · exact .inl (List.mem_cons_of_mem _ h)
        · exact .inr ⟨hname, .inl h⟩
        · exact .inr ⟨hname, .inr ⟨keys', List.mem_cons_of_mem _ hmem, hkeys⟩⟩

/-- Registering an action keeps a registry in order, if it is no constructor or one of a registered
type. -/
theorem Charted.insertAction (h : t.Charted H) (hrun : t.insertAction a = .ok t')
    (ha : a.signature.category = Signature.constructorCategory →
      ∃ type, (a.name, type) ∈ H ∧ type.isLeaf = false ∧ a = .constructorFor a.name type) :
    t'.Charted H := by
  obtain ⟨hfree, rfl⟩ := insertAction_eq_ok hrun
  have hkept : ∀ key b, t.actions.lookup key = some b →
      (t.actions ++ [(a.signature.key, a)]).lookup key = some b := by
    intro key b hb
    rw [List.lookup_append, hb]
    rfl
  -- the new action is found under its own key, for the key was free
  have hself : (t.actions ++ [(a.signature.key, a)]).lookup a.signature.key = some a := by
    rw [List.lookup_append, hfree]
    simp
  refine ⟨h.types, fun p hp => ?_, fun p hp => ?_, fun p hp => ?_⟩
  · rcases List.mem_append.mp hp with hp | hp
    · exact h.keys p hp
    · rw [List.mem_singleton.mp hp]
  · rcases List.mem_append.mp hp with hp | hp
    · exact h.constructors p hp
    · rw [List.mem_singleton.mp hp]
      exact ha
  · have hold : ∀ key ∈ p.2, (∃ b, t.actions.lookup key = some b ∧ b.name = p.1) →
        ∃ b, (t.actions ++ [(a.signature.key, a)]).lookup key = some b ∧ b.name = p.1 := by
      rintro key - ⟨b, hb, hname⟩
      exact ⟨b, hkept key b hb, hname⟩
    -- the name had no keys, or it had some and the new key stands behind them
    rcases mem_pushKey hp with hp | ⟨hname, hkeys | ⟨keys, hmem, hkeys⟩⟩
    · obtain ⟨hnodup, hkeys⟩ := h.names p hp
      exact ⟨hnodup, fun key hkey => hold key hkey (hkeys key hkey)⟩
    · rw [hkeys]
      refine ⟨List.nodup_singleton _, fun key hkey => ?_⟩
      rw [List.mem_singleton.mp hkey]
      exact ⟨a, hself, hname.symm⟩
    · obtain ⟨hnodup, hold'⟩ := h.names _ hmem
      rw [hkeys]
      refine ⟨?_, fun key hkey => ?_⟩
      · rw [List.nodup_append]
        refine ⟨hnodup, List.nodup_singleton _, fun key hkey k hk => ?_⟩
        rw [List.mem_singleton.mp hk]
        rintro rfl
        obtain ⟨b, hb, -⟩ := hold' _ hkey
        rw [hfree] at hb
        cases hb
      · rcases List.mem_append.mp hkey with hkey | hkey
        · obtain ⟨b, hb, hbname⟩ := hold' key hkey
          exact ⟨b, hkept key b hb, hbname.trans hname.symm⟩
        · rw [List.mem_singleton.mp hkey]
          exact ⟨a, hself, hname.symm⟩

/-- An action found under a name is of that name, and a constructor is that of a registered type. -/
theorem Charted.of_mem_actionsNamed (h : t.Charted H) (ha : a ∈ t.actionsNamed name) :
    a.name = name ∧ (a.signature.category = Signature.constructorCategory →
      ∃ type, (name, type) ∈ H ∧ type.isLeaf = false ∧ a = .constructorFor name type) := by
  obtain ⟨keys, key, hkeys, hkey, hlookup⟩ := mem_actionsNamed ha
  obtain ⟨before, after, htable, -⟩ := List.lookup_eq_some_iff.mp hkeys
  obtain ⟨-, hnames⟩ := h.names (name, keys) (by simp [htable])
  obtain ⟨b, hb, hname⟩ := hnames key hkey
  rw [hlookup] at hb
  cases hb
  refine ⟨hname, fun hcategory => ?_⟩
  have hconstructor := h.constructors _ (mem_of_lookup hlookup) hcategory
  rwa [show (key, a).2.name = name from hname] at hconstructor

/-- Every action is found once under its name. -/
theorem Charted.nodup_keys (h : t.Charted H) (name : String) :
    ((t.actionsNamed name).map (·.signature.key)).Nodup := by
  unfold actionsNamed
  cases hkeys : t.byName.lookup name with
  | none => simp
  | some keys =>
    obtain ⟨before, after, htable, -⟩ := List.lookup_eq_some_iff.mp hkeys
    obtain ⟨hnodup, hnames⟩ := h.names (name, keys) (by simp [htable])
    -- each key finds the action that has this key
    have hmap : (keys.filterMap fun key => t.actions.lookup key).map (·.signature.key) = keys := by
      clear hnodup htable hkeys
      induction keys with
      | nil => rfl
      | cons key keys ih =>
        obtain ⟨b, hb, -⟩ := hnames key List.mem_cons_self
        have hrest := ih fun k hk => hnames k (List.mem_cons_of_mem _ hk)
        simp only [List.filterMap_cons, hb, List.map_cons, hrest]
        rw [← h.keys _ (mem_of_lookup hb)]
    simpa [hmap] using hnodup

end Tuple

namespace Store

variable {H : List (String × TypeDesc)} {s base : Store} {scope id x : TupleId} {name : String}
  {k n : Nat}

/-! ## Registering -/

/-- The store has come about from a new one, with or without the actions of the language, by the
operations of a host, and `H` are the types that it has registered on the way, in any scopes. -/
inductive Charts : List (String × TypeDesc) → Store → Prop
  | bare (settings : Settings) : Charts [] (bare settings)
  | standard (settings : Settings) : Charts [] (withSettings settings)
  | operation {H : List (String × TypeDesc)} {s : Store} (op : Operation) : Charts H s →
    Charts H (op.perform.after s)
  | registerType {H : List (String × TypeDesc)} {s : Store} (id : TupleId) (name : String)
      (type : TypeDesc) : Charts H s →
      Charts ((name, type) :: H) ((StoreM.registerType id name type).after s)
  | registerAction {H : List (String × TypeDesc)} {s : Store} (id : TupleId) {action : Action} :
      action.signature.category ≠ Signature.constructorCategory → Charts H s →
      Charts H ((StoreM.registerAction id action).after s)

/-- What the programs of a host keep, they keep to the end. -/
theorem every_after {P : Tuple → Prop} {α : Type} {m : StoreM α} {Q : Unit → α → Prop}
    {E : Error → Prop} (h : (everywhere P).Keeps () m Q E) (hs : s.arena.Every P) :
    (m.after s).arena.Every P := by
  obtain ⟨_, -, hend⟩ := (h () trivial s hs).after
  exact hend

/-- Appending attributes. -/
theorem keeps_add_everywhere {P : Tuple → Prop} (hP : Tuple.Sturdy P) (id : TupleId)
    (name : Option String) (cell : Cell) :
    (everywhere P).Keeps () (StoreM.add id name cell) (fun _ _ => True) fun _ => True := by
  refine .get_bind fun _ _ s _ =>
    .andThen (keeps_update_everywhere (fun t pos t' ht hrun => ?_) id) ?_
  · simp only [Tuple.insert, Tuple.require, bind, Except.bind] at hrun
    split at hrun
    · cases hrun
    · exact hP.insert ht hrun
  · intro pos v _
    refine .andThen (.modify ?_) fun _ _ _ => .pure fun _ _ => trivial
    exact (everywhereCopying hP).adoptOwned trivial fun _ _ => trivial

/-- A sturdy property holds everywhere after a tuple was added to another one. -/
theorem keeps_addTuple_everywhere {P : Tuple → Prop} (hP : Tuple.Sturdy P) (id : TupleId)
    (name : Option String) (kind : TupleKind) :
    (everywhere P).Keeps () (StoreM.addTuple id name kind) (fun _ _ => True) fun _ => True := by
  intro v _ s hs
  have hcreated : (s.create kind (some id)).2.arena.Every P :=
    Arena.Every.alloc hs (hP.empty rfl rfl rfl rfl)
  rw [Regime.Leads, addTuple_run]
  generalize s.create kind (some id) = created at *
  cases created.2.typeOf created.1 with
  | error e => exact ⟨trivial, (), trivial, hcreated⟩
  | ok type =>
    have hadd :=
      keeps_add_everywhere hP id name (Cell.make created.2.heap type (.tuple created.1)).1
      () trivial
        { created.2 with heap := (Cell.make created.2.heap type (.tuple created.1)).2 } hcreated
    unfold Regime.Leads at hadd
    dsimp only
    split at hadd
    · rename_i hrun
      rw [hrun]
      exact ⟨(), trivial, hadd.choose_spec.2.1, trivial⟩
    · rename_i hrun
      rw [hrun]
      refine ⟨trivial, (), trivial, ?_⟩
      exact every_destroy (fun _ _ => hP.empty rfl rfl rfl rfl) hadd.2.choose_spec.2

/-- So it does after an attribute was taken out. -/
theorem keeps_remove_everywhere {P : Tuple → Prop} (hP : Tuple.Sturdy P) (id : TupleId)
    (key : Key) :
    (everywhere P).Keeps () (StoreM.remove id key) (fun _ _ => True) fun _ => True :=
  .andThen (keeps_update_everywhere (fun _ _ _ ht hrun => hP.take ht hrun) id) fun _ _ _ =>
    .modify ((everywhereCopying hP).release trivial)

/-- So it does after a tuple was cleared. -/
theorem keeps_clear_everywhere {P : Tuple → Prop} (hP : Tuple.Sturdy P) (id : TupleId) :
    (everywhere P).Keeps () (StoreM.clear id) (fun _ _ => True) fun _ => True := by
  refine .andThen (keeps_update_everywhere (fun t cells t' ht hrun => ?_) id) fun cells _ _ =>
    .modify ((everywhereCopying hP).releaseAll fun _ _ => trivial)
  cases hrun
  exact hP.empty rfl rfl rfl rfl

/-- The operations of a host build tuples and take them apart. -/
theorem keeps_perform_everywhere {P : Tuple → Prop} (hP : Tuple.Sturdy P) (op : Operation) :
    (everywhere P).Keeps () op.perform (fun _ _ => True) fun _ => True := by
  have hdone : ∀ {α : Type} {m : StoreM α} {E : Error → Prop},
      (everywhere P).Keeps () m (fun _ _ => True) E →
      (everywhere P).Keeps () (do let _ ← m) (fun _ _ => True) fun _ => True :=
    fun h => .andThen (h.mono (fun _ _ _ _ => trivial) fun _ _ => trivial)
      fun _ _ _ => .pure fun _ _ => trivial
  cases op with
  | create kind parent =>
    exact hdone (keeps_createWith_everywhere hP kind {} parent (E := fun _ => True))
  | createWith kind permissions parent =>
    exact hdone (keeps_createWith_everywhere hP kind permissions parent (E := fun _ => True))
  | createFrom kind parent attributes =>
    have hcells : (everywhere P).Keeps () (Operation.newCells attributes) (fun _ _ => True)
        fun _ => True := by
      induction attributes with
      | nil => exact .pure fun _ _ => trivial
      | cons entry rest ih =>
        obtain ⟨name, type, value⟩ := entry
        exact .andThen (keeps_onHeap_everywhere _) fun _ _ _ => .andThen ih fun _ _ _ =>
          .pure fun _ _ => trivial
    refine .andThen hcells fun cells _ _ => hdone (E := Error.OfBuilding) ?_
    refine ((everywhereCopying hP).createFrom ?_ fun _ _ => trivial).weaken fun _ _ _ _ => trivial
    exact keeps_createWith_everywhere hP kind {} parent
  | add id name type value =>
    exact .andThen (keeps_onHeap_everywhere _) fun cell _ _ =>
      hdone (keeps_add_everywhere hP id name cell)
  | addTuple id name kind => exact hdone (keeps_addTuple_everywhere hP id name kind)
  | remove id key => exact keeps_remove_everywhere hP id key
  | clear id => exact keeps_clear_everywhere hP id
  | destroy id => exact .modify ((everywhereCopying hP).destroy () trivial)
  | release type value =>
    exact .andThen (keeps_onHeap_everywhere _) fun cell _ _ =>
      .modify ((everywhereCopying hP).release trivial)
  | duplicate type value =>
    refine .andThen (keeps_onHeap_everywhere _) fun cell _ _ => hdone (E := Error.OfBuilding) ?_
    exact ((everywhereCopying hP).duplicate trivial).weaken fun _ _ _ _ => trivial

/-- Registering an action, if the tuple in which it is registered keeps the property. -/
theorem keeps_registerAction_everywhere {P : Tuple → Prop} {action : Action}
    (hinsert : ∀ t t', P t → t.insertAction action = .ok t' → P t') (id : TupleId) :
    (everywhere P).Keeps () (StoreM.registerAction id action) (fun _ _ => True) fun _ => True := by
  refine keeps_update_everywhere (fun t _ t' ht hrun => ?_) id
  simp only [bind, Except.bind, pure, Except.pure] at hrun
  split at hrun
  · cases hrun
  · rename_i hok
    cases hrun
    exact hinsert t _ ht hok

/-- Registering a type, whether its constructor is new, or there already, or refused. -/
theorem keeps_registerType_everywhere {P : Tuple → Prop} {name : String} {type : TypeDesc}
    (hinsert : ∀ t t', P t → t.insertType name type = .ok t' → P t')
    (hremove : ∀ t, P t → P (t.removeType name))
    (hconstructor : type.isLeaf = false → ∀ t t', P t →
      t.insertAction (.constructorFor name type) = .ok t' → P t') (id : TupleId) :
    (everywhere P).Keeps () (StoreM.registerType id name type) (fun _ _ => True)
      fun _ => True := by
  refine .andThen (keeps_update_everywhere (fun t _ t' ht hrun => ?_) id) fun _ _ _ =>
    .ite (fun _ => .pure fun _ _ => trivial) fun htree => ?_
  · simp only [bind, Except.bind, pure, Except.pure] at hrun
    split at hrun
    · cases hrun
    · rename_i hok
      cases hrun
      exact hinsert t _ ht hok
  refine .get_bind fun _ _ s _ => .get_bind fun _ _ s' _ => .ite (fun _ => ?_) fun _ => ?_
  · exact .pure fun _ _ => trivial
  refine .tryCatch (keeps_registerAction_everywhere (hconstructor (by simpa using htree)) _)
    fun e _ _ _ => .get_bind fun _ _ s'' hs'' => ?_
  -- the type is forgotten again
  split
  · rename_i t ht
    refine .andThen (.modify (moves_everywhere fun _ hs => hs.put ?_)) fun _ _ _ => .throw trivial
    exact hremove t (Arena.Every.of_get? hs'' ht)
  · exact .throw trivial

/-- Registering an action keeps registries in order, if it is no constructor or one of a registered
type. -/
theorem keeps_registerAction_charted {action : Action}
    (ha : action.signature.category = Signature.constructorCategory →
      ∃ type, (action.name, type) ∈ H ∧ type.isLeaf = false ∧
        action = .constructorFor action.name type) (id : TupleId) :
    (everywhere (Tuple.Charted H)).Keeps () (StoreM.registerAction id action) (fun _ _ => True)
      fun _ => True :=
  keeps_registerAction_everywhere (fun _ _ ht hinsert => ht.insertAction hinsert ha) id

/-- Registering a type keeps registries in order. -/
theorem keeps_registerType_charted (id : TupleId) (name : String) (type : TypeDesc)
    (hmem : (name, type) ∈ H) :
    (everywhere (Tuple.Charted H)).Keeps () (StoreM.registerType id name type) (fun _ _ => True)
      fun _ => True := by
  refine keeps_registerType_everywhere (fun t t' ht hinsert => ?_) (fun t ht => ?_)
    (fun htree t t' ht hinsert => ?_) id
  · rw [Tuple.insertType_eq_ok hinsert]
    refine { ht with types := fun p hp => ?_ }
    rcases List.mem_append.mp hp with hp | hp
    · exact ht.types p hp
    · rwa [List.mem_singleton.mp hp]
  · exact { ht with types := fun p hp => ht.types p (List.mem_filter.mp hp).1 }
  · exact ht.insertAction hinsert fun _ => ⟨type, hmem, htree, rfl⟩

/-- No action of the language is a constructor. -/
theorem category_of_mem_catalogue {action : Action} (h : action ∈ Builtin.catalogue) :
    action.signature.category ≠ Signature.constructorCategory := by
  have hall : Builtin.catalogue.all
      (fun a => a.signature.category != Signature.constructorCategory) = true := by rfl
  simpa using List.all_eq_true.mp hall action h

/-- The root scope of a new store is empty. -/
theorem every_bare {P : Tuple → Prop} (hP : Tuple.Sturdy P) (settings : Settings) :
    (bare settings).arena.Every P := by
  have hempty : Arena.Every P {} := fun i n t h => by simp at h
  exact hempty.alloc (hP.empty rfl rfl rfl rfl)

theorem define_eq (s : Store) (action : Action) :
    s.define action = (StoreM.registerAction s.root action).after s := by
  unfold define StoreM.after
  cases StoreM.registerAction s.root action s <;> rfl

/-- In a store with the actions of the language, these have been registered. -/
theorem every_withSettings {P : Tuple → Prop} (hP : Tuple.Sturdy P)
    (hinsert : ∀ a ∈ Builtin.catalogue, ∀ t t', P t → t.insertAction a = .ok t' → P t')
    (settings : Settings) : (withSettings settings).arena.Every P := by
  have hdefine : ∀ (actions : List Action) (s : Store), (∀ a ∈ actions, a ∈ Builtin.catalogue) →
      s.arena.Every P → (actions.foldl define s).arena.Every P := by
    intro actions
    induction actions with
    | nil => exact fun s _ hs => hs
    | cons action rest ih =>
      intro s hmem hs
      refine ih (s.define action) (fun a ha => hmem a (List.mem_cons_of_mem _ ha)) ?_
      rw [define_eq]
      exact every_after
        (keeps_registerAction_everywhere (hinsert action (hmem action List.mem_cons_self)) s.root)
          hs
  have hstandard : standard.arena.Every P := by
    rw [standard]
    exact hdefine Builtin.catalogue (bare {}) (fun _ h => h) (every_bare hP {})
  -- said of any store, so that nothing is computed from this one
  have harena : ∀ s : Store, { s with settings }.arena = s.arena := fun _ => rfl
  rw [withSettings, harena]
  exact hstandard

/-- The registries are in order, whatever a host does. -/
theorem Charts.every (h : Charts H s) : s.arena.Every (Tuple.Charted H) := by
  induction h with
  | bare settings => exact every_bare (Tuple.ofRegistry_charted _).sturdy settings
  | standard settings =>
    refine every_withSettings (Tuple.ofRegistry_charted _).sturdy
      (fun a ha t t' ht hrun => ?_) settings
    exact ht.insertAction hrun fun h => absurd h (category_of_mem_catalogue ha)
  | operation op _ ih =>
    exact every_after (keeps_perform_everywhere (Tuple.ofRegistry_charted _).sturdy op) ih
  | registerType id name type _ ih =>
    refine every_after (keeps_registerType_charted id name type List.mem_cons_self) ?_
    exact ih.mono fun t ht => ht.mono fun p hp => List.mem_cons_of_mem _ hp
  | registerAction id hnone _ ih =>
    exact every_after (keeps_registerAction_charted (fun h => absurd h hnone) id) ih

/-! ## Chains of scopes -/

/-- The scope that is `n` levels around a tuple, if it and all within are live. -/
def ancestor? (s : Store) : Nat → TupleId → Option TupleId
  | 0, id => if (s.tuple? id).isSome then some id else none
  | n + 1, id => ((s.tuple? id).bind (·.parent)).bind (s.ancestor? n)

/-- The scopes in a chain are live. -/
theorem live_of_ancestor? (h : s.ancestor? n id = some x) : ∃ t, s.tuple? x = some t := by
  induction n generalizing id with
  | zero =>
    rw [ancestor?] at h
    split at h
    · rename_i hlive
      cases h
      exact Option.isSome_iff_exists.mp hlive
    · cases h
  | succ n ih =>
    obtain ⟨parent, -, h⟩ := Option.bind_eq_some_iff.mp h
    exact ih h

/-- Going up the parents may be interrupted anywhere. -/
theorem ancestor?_add (s : Store) (n k : Nat) (id : TupleId) :
    s.ancestor? (n + k) id = (s.ancestor? n id).bind (s.ancestor? k) := by
  induction n generalizing id with
  | zero =>
    rw [Nat.zero_add, ancestor?]
    split
    · rfl
    · rename_i hdead
      have hnone := Option.not_isSome_iff_eq_none.mp hdead
      cases k <;> simp [ancestor?, hnone]
  | succ n ih =>
    rw [Nat.add_right_comm, ancestor?, ancestor?]
    cases (s.tuple? id).bind (·.parent) with
    | none => rfl
    | some parent => exact ih parent

/-- A walk of some steps visits the parents that are fewer steps away. -/
theorem mem_chainWithin : x ∈ s.chainWithin n id ↔ ∃ k < n, s.ancestor? k id = some x := by
  induction n generalizing id with
  | zero => simp [chainWithin]
  | succ n ih =>
    have hsplit : (∃ k < n + 1, s.ancestor? k id = some x) ↔
        s.ancestor? 0 id = some x ∨ ∃ k < n, s.ancestor? (k + 1) id = some x := by
      constructor
      · rintro ⟨k, hk, h⟩
        cases k with
        | zero => exact .inl h
        | succ k => exact .inr ⟨k, by omega, h⟩
      · rintro (h | ⟨k, hk, h⟩)
        · exact ⟨0, by omega, h⟩
        · exact ⟨k + 1, by omega, h⟩
    rw [hsplit, chainWithin]
    cases ht : s.tuple? id with
    | none => simp [ancestor?, ht]
    | some t =>
      cases hparent : t.parent with
      | none => simp [ancestor?, ht, hparent, eq_comm]
      | some parent => simp [ancestor?, ht, hparent, ih, eq_comm]

/-- Every scope around a tuple is in its chain, which is cut only where it runs in a circle. -/
theorem mem_scopeChain : x ∈ s.scopeChain id ↔ ∃ k, s.ancestor? k id = some x := by
  classical
  refine mem_chainWithin.trans ⟨fun ⟨k, _, hk⟩ => ⟨k, hk⟩, fun hex => ?_⟩
  -- the shortest way to `x` passes no scope twice
  have hk := Nat.find_spec hex
  have hmin : ∀ j < Nat.find hex, ¬s.ancestor? j id = some x := fun _ => Nat.find_min hex
  generalize Nat.find hex = k at hk hmin
  have hsome : ∀ i ≤ k, ∃ y, s.ancestor? i id = some y := by
    intro i hi
    rw [show k = i + (k - i) by omega, ancestor?_add] at hk
    obtain ⟨y, hy, -⟩ := Option.bind_eq_some_iff.mp hk
    exact ⟨y, hy⟩
  have hdistinct : ∀ i j, i < j → j ≤ k → s.ancestor? i id ≠ s.ancestor? j id := by
    intro i j hij hjk heq
    refine hmin (i + (k - j)) (by omega) ?_
    rw [ancestor?_add, heq, ← ancestor?_add, show j + (k - j) = k by omega]
    exact hk
  let ids := (List.range (k + 1)).map fun i => (s.ancestor? i id).getD id
  have hget : ∀ i ≤ k, s.ancestor? i id = some ((s.ancestor? i id).getD id) := by
    intro i hi
    obtain ⟨y, hy⟩ := hsome i hi
    rw [hy]
    rfl
  have hnodup : ids.Nodup := by
    refine List.Nodup.map_on (fun i hi j hj heq => ?_) List.nodup_range
    have hi := Nat.lt_succ_iff.mp (List.mem_range.mp hi)
    have hj := Nat.lt_succ_iff.mp (List.mem_range.mp hj)
    have hsame : s.ancestor? i id = s.ancestor? j id := by rw [hget i hi, hget j hj, heq]
    rcases Nat.lt_trichotomy i j with hlt | rfl | hlt
    · exact absurd hsame (hdistinct i j hlt hj)
    · rfl
    · exact absurd hsame.symm (hdistinct j i hlt hi)
  have hlength := Arena.length_le_of_live hnodup fun y hy => by
    obtain ⟨i, hi, rfl⟩ := List.mem_map.mp hy
    exact live_of_ancestor? (hget i (Nat.lt_succ_iff.mp (List.mem_range.mp hi)))
  simp only [ids, List.length_map, List.length_range] at hlength
  exact ⟨k, hlength, hk⟩

/-! ## What a name means -/

/-- A name has been given to one type only, and to a tree only if it has no text form. -/
structure OneMeaning (H : List (String × TypeDesc)) (forms : TextForms) : Prop where
  unique : ∀ {name a b}, (name, a) ∈ H → (name, b) ∈ H → a = b
  leaf : ∀ {name type}, (name, type) ∈ H → forms.contains name = true → type.isLeaf = true

/-- What a name means in a scope is registered, or the name has a text form. -/
theorem mem_of_lookupType (hs : s.arena.Every (Tuple.Charted H)) {type : TypeDesc}
    (h : s.lookupType scope name = some type) :
    (name, type) ∈ H ∨ s.forms.contains name = true := by
  rcases Option.or_eq_some_iff.mp h with hlocal | ⟨-, hform⟩
  · obtain ⟨y, -, hy⟩ := List.exists_of_findSome?_eq_some hlocal
    obtain ⟨t, ht, htype⟩ := Option.bind_eq_some_iff.mp hy
    obtain ⟨before, after, htypes, -⟩ := List.lookup_eq_some_iff.mp htype
    exact .inl ((Arena.Every.of_get? hs ht).types _ (by simp [htypes]))
  · by_cases hname : s.forms.contains name = true
    · exact .inr hname
    · simp [hname] at hform

/-- A constructor that is found under a name builds a type that was registered under that name. -/
theorem eq_constructorFor_of_mem (hs : s.arena.Every (Tuple.Charted H)) {args : TypeDesc}
    {action : Action} (h : action ∈ s.constructors scope name args) :
    ∃ type, (name, type) ∈ H ∧ type.isLeaf = false ∧ action = .constructorFor name type := by
  obtain ⟨hnamed, -, hcategory⟩ := mem_actionsOf.mp h
  obtain ⟨t, ht, hmem⟩ := mem_actionsNamed hnamed
  exact ((Arena.Every.of_get? hs ht).of_mem_actionsNamed hmem).2 hcategory

/-- If names have one meaning, a constructor builds what its name means. -/
theorem lookupType_of_mem_constructors (hs : s.arena.Every (Tuple.Charted H))
    (hone : OneMeaning H s.forms) (htype : s.isType scope name = true) {type : TypeDesc}
    (hmem : (name, type) ∈ H) (htree : type.isLeaf = false) :
    s.lookupType scope name = some type := by
  obtain ⟨meant, hmeant⟩ := Option.isSome_iff_exists.mp htype
  rcases mem_of_lookupType hs hmeant with hregistered | hform
  · rw [hmeant, hone.unique hregistered hmem]
  · rw [hone.leaf hmem hform] at htree
    cases htree

/-- If names have one meaning, at most one constructor is found. -/
theorem length_constructors_le (hs : s.arena.Every (Tuple.Charted H)) (hone : OneMeaning H s.forms)
    (scope : TupleId) (name : String) (args : TypeDesc) :
    (s.constructors scope name args).length ≤ 1 := by
  have hnodup : ((s.constructors scope name args).map (·.signature.key)).Nodup := by
    have hsub : (s.constructors scope name args).Sublist (s.actionsNamed scope name) :=
      List.filter_sublist.trans List.filter_sublist
    refine (hsub.map _).nodup ?_
    unfold actionsNamed
    split
    · rename_i t ht
      exact (Arena.Every.of_get? hs ht).nodup_keys name
    · exact List.nodup_nil
  have hmem : ∀ a ∈ s.constructors scope name args, _ := fun a ha => eq_constructorFor_of_mem hs ha
  generalize s.constructors scope name args = found at hnodup hmem
  rcases found with _ | ⟨a, _ | ⟨b, rest⟩⟩
  · simp
  · simp
  · obtain ⟨type, htype, -, rfl⟩ := hmem a (by simp)
    obtain ⟨type', htype', -, rfl⟩ := hmem b (by simp)
    rw [hone.unique htype htype'] at hnodup
    simp at hnodup

/-! ## While something is parsed -/

/-- Novelties have empty registries. -/
theorem Aside.every {P : Tuple → Prop} (hP : Tuple.OfRegistry P) (hs : base.Aside scope s)
    (hbase : base.arena.Every P) : s.arena.Every P := by
  intro i n t hslot
  by_cases hocc : base.arena.Occupied i
  · obtain ⟨m, u, hu⟩ := hocc
    have hsame := hs.kept i m u hu
    rw [hslot] at hsame
    cases hsame
    exact hbase i n t hu
  · have hnovel := hs.novelty i n t hslot hocc
    exact hP.empty hnovel.types hnovel.actions hnovel.byName

/-- A scope around the scope of the parser is a novelty or was around it before. -/
theorem Aside.ancestor?_cases (hs : base.Aside scope s) (hlive : (base.tuple? scope).isSome)
    (h : s.ancestor? k scope = some x) :
    ¬base.arena.Occupied x.index ∨ ∃ j, base.ancestor? j scope = some x := by
  induction k generalizing x with
  | zero =>
    rw [ancestor?] at h
    split at h
    · cases h
      exact .inr ⟨0, by rw [ancestor?, if_pos hlive]⟩
    · cases h
  | succ k ih =>
    rw [ancestor?_add] at h
    obtain ⟨y, hy, h⟩ := Option.bind_eq_some_iff.mp h
    obtain ⟨parent, hparent, h⟩ := Option.bind_eq_some_iff.mp h
    obtain ⟨t, ht, hparent⟩ := Option.bind_eq_some_iff.mp hparent
    obtain ⟨hx, rfl⟩ : (s.tuple? parent).isSome ∧ parent = x := by simpa [ancestor?] using h
    obtain ⟨u, hu⟩ := Option.isSome_iff_exists.mp hx
    rcases hs.cases hu with hbase | ⟨hnovel, -⟩
    · rcases hs.cases ht with hy' | ⟨hocc, hnovelty⟩
      · -- from a scope that was there to one that was there
        rcases ih hy with hocc | ⟨j, hj⟩
        · exact absurd (Arena.occupied_of_get? hy') hocc
        · refine .inr ⟨j + 1, ?_⟩
          rw [ancestor?_add, hj]
          simp [ancestor?, hy', hparent, hbase]
      · -- around a novelty there are novelties and the scope of the parser
        obtain ⟨p, hp, rfl | hocc'⟩ := hnovelty.parent
        · rw [hparent] at hp
          cases hp
          exact .inr ⟨0, by rw [ancestor?, if_pos hlive]⟩
        · rw [hparent] at hp
          cases hp
          exact .inl hocc'
    · exact .inl hnovel

/-- A name that means a type while something is parsed meant one before. -/
theorem Aside.isType (hs : base.Aside scope s) (hlive : (base.tuple? scope).isSome)
    (h : s.isType scope name = true) : base.isType scope name = true := by
  obtain ⟨type, htype⟩ := Option.isSome_iff_exists.mp h
  rcases Option.or_eq_some_iff.mp htype with hlocal | ⟨-, hform⟩
  · obtain ⟨y, hy, hlocal⟩ := List.exists_of_findSome?_eq_some hlocal
    obtain ⟨t, ht, hmeant⟩ := Option.bind_eq_some_iff.mp hlocal
    obtain ⟨k, hk⟩ := mem_scopeChain.mp hy
    rcases hs.cases ht with hbase | ⟨-, hnovel⟩
    · have hancestor := (hs.ancestor?_cases hlive hk).resolve_left fun hocc =>
        hocc (Arena.occupied_of_get? hbase)
      have hfound : ((base.scopeChain scope).findSome? fun y =>
          (base.tuple? y).bind (·.localType? name)).isSome := by
        rw [List.isSome_findSome?, List.any_eq_true]
        exact ⟨y, mem_scopeChain.mpr hancestor, by simp [hbase, hmeant]⟩
      rw [Store.isType, lookupType, Option.isSome_or, hfound, Bool.true_or]
    · simp [Tuple.localType?, hnovel.types] at hmeant
  · rw [hs.forms] at hform
    rw [Store.isType, lookupType, Option.isSome_or, hform]
    simp

/-- A call that is bound to a constructor builds the type that its name means in the scope, and no
two constructors fit, as long as one name means one type throughout. -/
theorem constructor_calls_respect_scope (hcharts : Charts H s) (hs : s.Sound)
    (hone : OneMeaning H s.forms) (scope : TupleId) (cursor : Cursor) :
    (∀ name args, (s.constructors scope name args).length ≤ 1) ∧
    ∀ e, (Expression.parse s scope cursor).result = .ok e →
      ∀ root ∈ e.roots, root.Forms (fun _ => True) fun binding =>
        binding.op = .call → binding.action.signature.category = Signature.constructorCategory →
        s.lookupType scope binding.name = some binding.action.signature.returns := by
  refine ⟨length_constructors_le hcharts.every hone scope, fun e he => ?_⟩
  have hlive : (s.tuple? scope).isSome := by
    by_contra hdead
    simp [Expression.parse, tuple, Option.not_isSome_iff_eq_none.mp hdead] at he
  let parsing := asideParsing s scope (fun binding => binding.op = .call →
      binding.action.signature.category = Signature.constructorCategory →
      s.lookupType scope binding.name = some binding.action.signature.returns)
    (fun s' draft action owner args argNames haside hchoice hop hcategory => by
      rcases mem_candidates (Choice.mem_of_mostSpecific hchoice) with ⟨hno, -⟩ |
        ⟨-, hfun | ⟨htype, hmem⟩⟩
      · exact absurd hop hno
      · -- a function is no constructor
        rw [(mem_actionsOf.mp hfun).2.2] at hcategory
        exact absurd hcategory (by decide)
      · have hevery := haside.every (Tuple.ofRegistry_charted H) hcharts.every
        obtain ⟨type, hregistered, htree, rfl⟩ := eq_constructorFor_of_mem hevery hmem
        exact lookupType_of_mem_constructors hcharts.every hone (haside.isType hlive htype)
          hregistered htree)
    (fun s' draft owner args compare ordering relation returns _ _ hrelational _ => by
      refine ⟨fun hop => ?_, fun hop => by cases hop⟩
      rw [show draft.op = .call from hop] at hrelational
      cases hrelational)
  obtain ⟨-, h, -, -, hroots⟩ :=
    parsing.parse (w := s.heap) ⟨rfl, .refl fun i hi => hs.not_occupied hi⟩ he
  exact fun root hroot => (hroots root hroot).mono fun _ _ => trivial

/-- The type of tuples with one number called `field`. -/
def pointType (field : String) : TypeDesc := .tree [(some field, .leaf "int")]

/-- A scope within the root scope. -/
def nestedStore : Store :=
  (Operation.createWith (.custom "module") .all (some ⟨0, 0⟩)).perform.after (bare {})

/-- A type called `pt` is registered in the root scope, and one in the scope within. -/
def pointStore (outer inner : String) : Store :=
  (StoreM.registerType ⟨1, 0⟩ "pt" (pointType inner)).after
    ((StoreM.registerType ⟨0, 0⟩ "pt" (pointType outer)).after nestedStore)

/-- The call `pt(field=1)`, or `pt(1)`. -/
def pointTokens : Option String → List Token
  | some field => [⟨.ident, "pt", {}⟩, ⟨.lparen, "(", {}⟩, ⟨.ident, field, {}⟩, ⟨.symbol, "=", {}⟩,
      ⟨.int, "1", {}⟩, ⟨.rparen, ")", {}⟩]
  | none => [⟨.ident, "pt", {}⟩, ⟨.lparen, "(", {}⟩, ⟨.int, "1", {}⟩, ⟨.rparen, ")", {}⟩]

/-- Parsing such a call in the inner scope. -/
def pointParse (s : Store) (field : Option String) : Parsed (Except Error Expression) :=
  Expression.parse s ⟨1, 0⟩ (Cursor.ofTokens (pointTokens field))

/-- The call of the constructor of `pt` with the argument `field=1`. -/
def pointCall (field : String) : Expression where
  roots := [.apply { op := .call, name := "pt", action := .constructorFor "pt" (pointType field)
                     type := pointType field, argNames := [some field] }
    [.literal { type := .leaf "int", loc := 0 }]]
  scope := ⟨1, 0⟩

/-- The types that are registered in the two scopes. -/
def pointTypes (outer inner : String) : List (String × TypeDesc) :=
  [("pt", pointType inner), ("pt", pointType outer)]

/-- One type under one name in two scopes: its constructor is called. -/
theorem constructor_calls_respect_scope_nested :
    Charts (pointTypes "x" "x") (pointStore "x" "x") ∧ (pointStore "x" "x").Sound ∧
      OneMeaning (pointTypes "x" "x") (pointStore "x" "x").forms ∧
      (pointParse (pointStore "x" "x") (some "x")).result = .ok (pointCall "x") ∧
      (pointStore "x" "x").lookupType ⟨1, 0⟩ "pt" = some (pointType "x") := by
  have hnested : Charts [] nestedStore := .operation _ (.bare {})
  have hcharts : Charts (pointTypes "x" "x") (pointStore "x" "x") :=
    .registerType ⟨1, 0⟩ "pt" _ (.registerType ⟨0, 0⟩ "pt" _ hnested)
  have hs : (pointStore "x" "x").Sound := ⟨Arena.sound_of_full (by rfl) (by rfl), _, by rfl⟩
  have hmem : ∀ {name type}, (name, type) ∈ pointTypes "x" "x" →
      name = "pt" ∧ type = pointType "x" := by simp [pointTypes]
  have hone : OneMeaning (pointTypes "x" "x") (pointStore "x" "x").forms := by
    refine ⟨fun ha hb => (hmem ha).2.trans (hmem hb).2.symm, fun h hform => ?_⟩
    rw [(hmem h).1] at hform
    exact absurd hform (by decide)
  have hparsed : (pointParse (pointStore "x" "x") (some "x")).result = .ok (pointCall "x") := by rfl
  refine ⟨hcharts, hs, hone, hparsed, ?_⟩
  have hforms := (constructor_calls_respect_scope hcharts hs hone ⟨1, 0⟩ _).2 _ hparsed _
    List.mem_cons_self
  cases hforms with
  | apply hbound _ => exact hbound rfl rfl

/-- Two types under one name, one scope within the other: the constructor of the outer type is
called in the inner scope, where the name means the inner type. Without a name for the argument both
constructors fit, and the call is refused. -/
theorem shadowed_constructor_is_called :
    let s := pointStore "y" "x"
    s.lookupType ⟨1, 0⟩ "pt" = some (pointType "x") ∧
      (pointParse s (some "y")).result = .ok (pointCall "y") ∧
      (s.constructors ⟨1, 0⟩ "pt" (.leaves ["int"])).length = 2 ∧
      ∃ e, (pointParse s none).result = .error e := by
  exact ⟨by rfl, by rfl, by rfl, _, by rfl⟩

end Store

end TupleLang
