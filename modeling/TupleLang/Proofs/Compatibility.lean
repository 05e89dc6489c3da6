import Mathlib
import TupleLang.TypeDesc

/-!
# Compatibility of types

A tree is compatible with another when each of its children finds a counterpart there: a named child
anywhere, under its name, and an unnamed one at its own position. Every descriptor is compatible
with itself (`compatibleWith_refl`).

Children that are appended to the other tree do not matter (`compatibleWith_append`): what has a
counterpart keeps it.

Compatibility does not always go on from one descriptor to the next. An unnamed child may have a
named one for its counterpart, and that one may have its own counterpart anywhere. Where this cannot
happen, because all children of the first descriptor have names or all those of the second have
none, compatibility is transitive (`compatibleWith_trans`). The laws together are
`compatibility_laws`.
-/

namespace TupleLang.TypeDesc

variable {t u v other : TypeDesc} {fs others : List Field} {i : Nat} {p : Option String → Prop}

/-- Descriptors by their children. -/
@[elab_as_elim]
theorem childInduction {P : TypeDesc → Prop} (leaf : ∀ name, P (leaf name))
    (tree : ∀ fields, (∀ f ∈ fields, P f.2) → P (tree fields)) : (t : TypeDesc) → P t
  | .leaf name => leaf name
  | .tree fields => tree fields fun f _ => childInduction leaf tree f.2
termination_by t => sizeOf t
decreasing_by
  have hmem := List.sizeOf_lt_of_mem ‹_›
  obtain ⟨name, child⟩ := f
  simp only [TypeDesc.tree.sizeOf_spec, Prod.mk.sizeOf_spec] at hmem ⊢
  omega

/-! ## Counterparts -/

/-- The child at position `i` has a compatible counterpart among `others`: under its name if it has
one, and at its position otherwise. -/
def FindsCounterpart (others : List Field) (i : Nat) (f : Field) : Prop :=
  ∃ o, f.2.compatibleWith o.2 = true ∧
    match f.1 with
    | some name => o ∈ others ∧ o.1 = some name
    | none => others[i]? = some o

/-- Children are compatible one by one. -/
theorem compatibleFields_iff : compatibleFields others i fs = true ↔
    ∀ j f, fs[j]? = some f → FindsCounterpart others (i + j) f := by
  induction fs generalizing i with
  | nil => simp [compatibleFields]
  | cons f fs ih =>
    -- a name is looked for anywhere, a position only at its own index
    have hfirst : compatibleFields others i (f :: fs) = true ↔
        FindsCounterpart others i f ∧ compatibleFields others (i + 1) fs = true := by
      obtain ⟨name | name, t⟩ := f
      · simp [compatibleFields, FindsCounterpart, Option.any_eq_true, and_comm]
      · simp [compatibleFields, FindsCounterpart, List.any_eq_true, and_comm, and_assoc]
    rw [hfirst, ih]
    constructor
    · rintro ⟨hf, hrest⟩ j g hg
      cases j with
      | zero =>
        obtain rfl : f = g := by simpa using hg
        exact hf
      | succ j =>
        rw [show i + (j + 1) = i + 1 + j by omega]
        exact hrest j g (by simpa using hg)
    · intro h
      refine ⟨h 0 f rfl, fun j g hg => ?_⟩
      rw [show i + 1 + j = i + (j + 1) by omega]
      exact h (j + 1) g (by simpa using hg)

/-- A tree is compatible with trees only. -/
theorem tree_compatibleWith_iff : (tree fs).compatibleWith other = true ↔
    ∃ others, other = tree others ∧ ∀ i f, fs[i]? = some f → FindsCounterpart others i f := by
  cases other with
  | leaf name => simp [compatibleWith]
  | tree others => simp [compatibleWith, compatibleFields_iff]

/-- A leaf is compatible with itself, and the wildcard with everything. -/
theorem leaf_compatibleWith_iff {name : String} :
    (leaf name).compatibleWith other = true ↔ name = "any" ∨ other = leaf name := by
  cases other with
  | leaf name' => simp [compatibleWith, isNamed, leafName?]
  | tree others => simp [compatibleWith, isNamed, leafName?]

/-! ## Laws -/

/-- Every descriptor is compatible with itself. -/
theorem compatibleWith_refl (t : TypeDesc) : t.compatibleWith t = true := by
  induction t using childInduction with
  | leaf name => exact leaf_compatibleWith_iff.mpr (.inr rfl)
  | tree fields ih =>
    refine tree_compatibleWith_iff.mpr ⟨fields, rfl, fun i f hf => ⟨f, ?_, ?_⟩⟩
    · exact ih f (List.mem_of_getElem? hf)
    · cases hname : f.1 with
      | none => exact hf
      | some name => exact ⟨List.mem_of_getElem? hf, rfl⟩

/-- A counterpart among some children is one among these and more. -/
theorem FindsCounterpart.append {f : Field} (h : FindsCounterpart others i f) (more : List Field) :
    FindsCounterpart (others ++ more) i f := by
  obtain ⟨o, hcompat, ho⟩ := h
  refine ⟨o, hcompat, ?_⟩
  cases hname : f.1 with
  | some name =>
    rw [hname] at ho
    exact ⟨List.mem_append_left _ ho.1, ho.2⟩
  | none =>
    rw [hname] at ho
    -- a position among the first children is the same one among all of them
    exact (List.getElem?_append_left (List.getElem?_eq_some_iff.mp ho).1).trans ho

/-- What is compatible with a tree is compatible with the tree that has more children behind. -/
theorem compatibleWith_append (h : t.compatibleWith (tree others) = true) (more : List Field) :
    t.compatibleWith (tree (others ++ more)) = true := by
  cases t with
  | leaf name =>
    -- no leaf but the wildcard is compatible with a tree
    have hany : name = "any" := (leaf_compatibleWith_iff.mp h).resolve_right nofun
    exact leaf_compatibleWith_iff.mpr (.inl hany)
  | tree fields =>
    obtain ⟨others', hothers, hfinds⟩ := tree_compatibleWith_iff.mp h
    obtain rfl : others = others' := tree.inj hothers
    exact tree_compatibleWith_iff.mpr ⟨_, rfl, fun i f hf => (hfinds i f hf).append more⟩

/-- The names of all children, at every level, have the property. -/
inductive Throughout (p : Option String → Prop) : TypeDesc → Prop
  | leaf (name : String) : Throughout p (leaf name)
  | tree {fields : List Field} : (∀ f ∈ fields, p f.1) → (∀ f ∈ fields, Throughout p f.2) →
      Throughout p (tree fields)

/-- All children, at every level, have names. -/
abbrev AllNamed : TypeDesc → Prop := Throughout fun name => name ≠ none

/-- No child, at any level, has a name. -/
abbrev AllUnnamed : TypeDesc → Prop := Throughout fun name => name = none

/-- Compatibility goes on from one descriptor to the next if all children of the first have names,
or none of those of the second. -/
theorem compatibleWith_trans (htu : t.compatibleWith u = true) (huv : u.compatibleWith v = true)
    (h : t.AllNamed ∨ u.AllUnnamed) : t.compatibleWith v = true := by
  induction t using childInduction generalizing u v with
  | leaf name =>
    rcases leaf_compatibleWith_iff.mp htu with hany | rfl
    · exact leaf_compatibleWith_iff.mpr (.inl hany)
    · exact huv
  | tree fields ih =>
    obtain ⟨middle, rfl, hmiddle⟩ := tree_compatibleWith_iff.mp htu
    obtain ⟨last, rfl, hlast⟩ := tree_compatibleWith_iff.mp huv
    refine tree_compatibleWith_iff.mpr ⟨last, rfl, fun i f hf => ?_⟩
    have hmem := List.mem_of_getElem? hf
    obtain ⟨o, hfo, ho⟩ := hmiddle i f hf
    -- the counterpart of the counterpart serves, as both are found in the same way
    have hchild : ∀ o' : Field, o ∈ middle → o.2.compatibleWith o'.2 = true →
        f.2.compatibleWith o'.2 = true := by
      intro o' homem hoo'
      refine ih f hmem hfo hoo' (h.imp (fun hnamed => ?_) fun hunnamed => ?_)
      · cases hnamed with
        | tree _ hchildren => exact hchildren f hmem
      · cases hunnamed with
        | tree _ hchildren => exact hchildren o homem
    cases hname : f.1 with
    | some name =>
      rw [hname] at ho
      obtain ⟨homem, honame⟩ := ho
      obtain ⟨j, hj⟩ := List.getElem?_of_mem homem
      obtain ⟨o', hoo', ho'⟩ := hlast j o hj
      rw [honame] at ho'
      exact ⟨o', hchild o' homem hoo', by rw [hname]; exact ho'⟩
    | none =>
      rw [hname] at ho
      have homem := List.mem_of_getElem? ho
      obtain ⟨o', hoo', ho'⟩ := hlast i o ho
      have honame : o.1 = none := by
        rcases h with hnamed | hunnamed
        · cases hnamed with
          | tree hnames _ => exact absurd hname (hnames f hmem)
        · cases hunnamed with
          | tree hnames _ => exact hnames o homem
      rw [honame] at ho'
      exact ⟨o', hchild o' homem hoo', by rw [hname]; exact ho'⟩

/-- Every descriptor is compatible with itself. What is compatible with a tree stays compatible when
children are appended to that tree. And compatibility goes on from one descriptor to the next if all
children of the first have names, or none of those of the second. -/
theorem compatibility_laws (t : TypeDesc) :
    t.compatibleWith t = true ∧
    (∀ others more : List Field, t.compatibleWith (tree others) = true →
      t.compatibleWith (tree (others ++ more)) = true) ∧
    ∀ u v : TypeDesc, t.compatibleWith u = true → u.compatibleWith v = true →
      t.AllNamed ∨ u.AllUnnamed → t.compatibleWith v = true :=
  ⟨t.compatibleWith_refl, fun _ more h => compatibleWith_append h more,
    fun _ _ => compatibleWith_trans⟩

/-- A record is compatible with one that has its child elsewhere and twice, and so with whatever has
a child of that name. -/
theorem compatibility_laws_record :
    let t := tree [(some "x", .any)]
    let u := tree [(none, leaf "text"), (some "x", leaf "int"), (some "x", leaf "bool")]
    let v := tree [(none, leaf "text"), (some "x", leaf "bool"), (some "x", leaf "int")]
    t.compatibleWith u = true ∧ u.compatibleWith v = true ∧ t.AllNamed ∧
      t.compatibleWith t = true ∧ t.compatibleWith (tree (u.fields ++ v.fields)) = true ∧
      t.compatibleWith v = true := by
  intro t u v
  have htu : t.compatibleWith u = true := by decide
  have huv : u.compatibleWith v = true := by decide
  have hnamed : t.AllNamed := .tree (by simp) (by simp [Throughout.leaf])
  obtain ⟨hself, happend, htrans⟩ := compatibility_laws t
  exact ⟨htu, huv, hnamed, hself, happend u.fields v.fields htu, htrans u v htu huv (.inl hnamed)⟩

/-- Between a child without a name and its counterpart, which has one, the way does not go on. -/
example :
    let t := tree [(none, leaf "int")]
    let u := tree [(some "x", leaf "int")]
    let v := tree [(none, leaf "text"), (some "x", leaf "int")]
    t.compatibleWith u = true ∧ u.compatibleWith v = true ∧ t.compatibleWith v = false := by
  decide

end TupleLang.TypeDesc
