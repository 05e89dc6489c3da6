import Mathlib
import TupleLang.Signature
import TupleLang.Proofs.Compatibility

/-!
# Refinement of signatures

A signature refines another one when each declared type of the other is compatible with its own at
the same position. Whoever calls the first by position can then call the second
(`accepts_of_refines`), as far as compatibility is transitive between the declared types.

Refinement does not look at the names of the declared arguments, while a named argument is matched
by its name: a call by name carries over if the two signatures declare the name at one position.
-/

namespace TupleLang

namespace Signature

variable {s o : Signature} {owner args : TypeDesc}

/-- Compatibility goes on from the types that `o` declares to those that `s` declares: at each place
the type of `o` names all its children, or that of `s` none. -/
structure Composes (s o : Signature) : Prop where
  owner : o.owner.AllNamed ∨ s.owner.AllUnnamed
  args : ∀ {i : Nat} {d e : TypeDesc.Field}, o.args.fields[i]? = some d →
    s.args.fields[i]? = some e → d.2.AllNamed ∨ e.2.AllUnnamed

/-- The signatures declare the names of the actual arguments at the same positions. -/
def PlacesAlike (s o : Signature) (args : TypeDesc) : Prop :=
  ∀ f ∈ args.fields, ∀ name, f.1 = some name →
    o.args.fields.findIdx? (·.1 == some name) = s.args.fields.findIdx? (·.1 == some name)

/-- Refinement, position by position. -/
theorem refines_iff : s.refines o = true ↔
    o.owner.compatibleWith s.owner = true ∧ o.args.size = s.args.size ∧
      ∀ (i : Nat) (d e : TypeDesc.Field), o.args.fields[i]? = some d →
        s.args.fields[i]? = some e → d.2.compatibleWith e.2 = true := by
  simp only [refines, Bool.and_eq_true, beq_iff_eq, List.all_eq_true, and_assoc]
  refine and_congr_right fun _ => and_congr_right fun _ =>
    ⟨fun h i d e hd he => ?_, fun h p hp => ?_⟩
  · exact h (d, e) (List.mem_of_getElem? (List.getElem?_zip_eq_some.mpr ⟨hd, he⟩))
  · obtain ⟨i, hi⟩ := List.getElem?_of_mem hp
    obtain ⟨hd, he⟩ := List.getElem?_zip_eq_some.mp hi
    exact h i p.1 p.2 hd he

/-- Every signature refines itself. -/
theorem refines_refl (s : Signature) : s.refines s = true := by
  refine refines_iff.mpr ⟨s.owner.compatibleWith_refl, rfl, fun i d e hd he => ?_⟩
  obtain rfl : d = e := Option.some.inj (hd.symm.trans he)
  exact d.2.compatibleWith_refl

/-- A declared argument gives way to the one that a refined signature declares there. -/
theorem declares_of_refines (h : s.refines o = true) (hc : s.Composes o) {pos : Nat}
    {type : TypeDesc} (hd : s.args.fields[pos]?.any (fun d => d.2.compatibleWith type) = true) :
    o.args.fields[pos]?.any (fun d => d.2.compatibleWith type) = true := by
  obtain ⟨-, hsize, hargs⟩ := refines_iff.mp h
  obtain ⟨e, he, htype⟩ := Option.any_eq_true _ _ |>.mp hd
  have hlt : pos < o.args.fields.length := by
    have := (List.getElem?_eq_some_iff.mp he).1
    unfold TypeDesc.size at hsize
    omega
  have hdo : o.args.fields[pos]? = some o.args.fields[pos] := List.getElem?_eq_getElem hlt
  exact (Option.any_eq_true _ _).mpr
    ⟨_, hdo, TypeDesc.compatibleWith_trans (hargs pos _ e hdo he) htype (hc.args hdo he)⟩

/-- Arguments that bind to the declared ones bind in the same way to those of a refined signature.
-/
theorem bindArgs_of_refines (h : s.refines o = true) (hc : s.Composes o)
    {fs : List TypeDesc.Field} {i : Nat} {taken positions : List Nat}
    (hnames : ∀ f ∈ fs, ∀ name, f.1 = some name →
      o.args.fields.findIdx? (·.1 == some name) = s.args.fields.findIdx? (·.1 == some name))
    (hbind : bindArgs s.args.fields i taken fs = some positions) :
    bindArgs o.args.fields i taken fs = some positions := by
  induction fs generalizing i taken positions with
  | nil => exact hbind
  | cons f fs ih =>
    obtain ⟨name, type⟩ := f
    have hplace : declaredPosition? o.args.fields i name =
      declaredPosition? s.args.fields i name := by
      cases name with
      | none => rfl
      | some name => exact hnames _ List.mem_cons_self name rfl
    simp only [bindArgs, hplace] at hbind ⊢
    split at hbind
    · cases hbind
    · rename_i pos _
      split at hbind
      · rename_i hfree
        rw [Bool.and_eq_true] at hfree
        obtain ⟨rest, hrest, rfl⟩ := Option.map_eq_some_iff.mp hbind
        rw [if_pos (by rw [hfree.1, declares_of_refines h hc hfree.2]; rfl),
          ih (fun f hf => hnames f (List.mem_cons_of_mem _ hf)) hrest]
        rfl
      · cases hbind

/-- What a signature accepts, those that it refines accept too, with the arguments in the same
places: for a call of which both declare the names at the same positions, and between types over
which compatibility is transitive. -/
theorem accepts_of_refines (h : s.refines o = true) (hc : s.Composes o) (hp : s.PlacesAlike o args)
    (ha : s.accepts owner args = true) :
    o.accepts owner args = true ∧ o.declaredPositions args = s.declaredPositions args := by
  obtain ⟨howner, hsize, -⟩ := refines_iff.mp h
  obtain ⟨hown, hsome⟩ := Bool.and_eq_true _ _ |>.mp ha
  obtain ⟨positions, hpos⟩ := Option.isSome_iff_exists.mp hsome
  have hboth : o.declaredPositions args = some positions := by
    unfold declaredPositions at hpos ⊢
    split at hpos
    · rename_i hlen
      rw [if_pos (hsize.trans hlen)]
      exact bindArgs_of_refines h hc hp hpos
    · cases hpos
  refine ⟨?_, hboth.trans hpos.symm⟩
  rw [accepts, TypeDesc.compatibleWith_trans howner hown hc.owner, hboth]
  rfl

/-- A call by name, and a call with a record for its argument, that carry over. -/
theorem accepts_of_refines_record :
    let s := function "area" (.leaf "int") (.tree [(some "of", .tree [(some "x", .leaf "int")])])
    let o := function "area" (.leaf "int") (.tree [(some "of", .tree [(some "x", .any)])])
    let args := TypeDesc.tree [(some "of", .tree [(none, .leaf "text"), (some "x", .leaf "int")])]
    o.accepts .void args = true ∧ o.declaredPositions args = s.declaredPositions args := by
  refine accepts_of_refines (by decide) ⟨.inl (.leaf _), fun {i d e} hd he => ?_⟩ ?_ (by decide)
  · cases i with
    | zero =>
      obtain rfl := Option.some.inj hd
      refine .inl (.tree ?_ ?_) <;> simp [TypeDesc.Throughout.leaf]
    | succ i => cases hd
  · intro f hf name hname
    rfl

/-- A refined signature may refuse what the other one accepts: a call by a name that it does not
declare, and a record that has the child of an unnamed place under a name elsewhere. -/
theorem refined_signature_refuses :
    (let s := function "f" (.leaf "int") (.tree [(some "x", .leaf "int")])
      let o := function "f" (.leaf "int") (.tree [(some "y", .leaf "int")])
      let args := TypeDesc.tree [(some "x", .leaf "int")]
      s.refines o = true ∧ s.accepts .void args = true ∧ o.accepts .void args = false) ∧
    (let s := function "f" (.leaf "int") (.tree [(none, .tree [(some "x", .leaf "int")])])
      let o := function "f" (.leaf "int") (.tree [(none, .tree [(none, .leaf "int")])])
      let args := TypeDesc.tree [(none, .tree [(none, .leaf "text"), (some "x", .leaf "int")])]
      s.refines o = true ∧ s.accepts .void args = true ∧ o.accepts .void args = false) := by
  decide

end Signature

end TupleLang
