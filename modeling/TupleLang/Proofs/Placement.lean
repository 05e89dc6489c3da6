import TupleLang.Proofs.Argument
import TupleLang.Proofs.Tables
import TupleLang.Proofs.TreeText
import TupleLang.Proofs.Wildcard

/-!
# Arguments in their places

A constructor takes its arguments in the order in which the type declares its children. A call that
gives them by name may give them in any order. Binding finds the place of each argument by its name
and puts it there, so that the call is bound to the same tree as one in the order of declaration
(`Env.bind_named`). A call without names is bound to the same operands, with no names
(`Env.bind_unnamed`).
-/

namespace TupleLang

/-- What a constructor is given for a child of its type: the name and the type of the child, the
source of an argument, and the tree that this is read as. -/
structure Filling where
  name : String
  type : TypeDesc
  source : String
  tree : Tree

namespace Filling

/-- The child that is filled. -/
def field (f : Filling) : TypeDesc.Field := (some f.name, f.type)

/-- The type with the children that are filled. -/
def record (fillings : List Filling) : TypeDesc := .tree (fillings.map field)

/-- Place of a child among those of the type. -/
def place (fillings : List Filling) (f : Filling) : Nat := (fillings.map (·.name)).idxOf f.name

variable {fillings given : List Filling} {f : Filling}

/-- A child is found by its name. -/
theorem findIdx?_fields (hf : f ∈ fillings) :
    (fillings.map field).findIdx? (·.1 == some f.name) = some (place fillings f) := by
  have hname : f.name ∈ fillings.map (·.name) := List.mem_map.mpr ⟨f, hf, rfl⟩
  have hlt := List.idxOf_lt_length_iff.mpr hname
  rw [List.findIdx?_eq_some_iff_getElem]
  refine ⟨by simpa [place] using hlt, ?_, fun j hj => ?_⟩
  · have hat := List.getElem_idxOf hlt
    rw [List.getElem_map] at hat
    simpa [field, place] using hat
  · have hne := List.not_of_lt_findIdx (p := (· == f.name)) hj
    simpa [field] using hne

section Places

variable (hdistinct : (fillings.map (·.name)).Nodup)

include hdistinct

theorem map_place : fillings.map (place fillings) = List.range fillings.length := by
  refine List.ext_getElem (by simp) fun i hi _ => ?_
  rw [List.length_map] at hi
  have hat : i < (fillings.map (·.name)).length := by rwa [List.length_map]
  have hname : fillings[i].name = (fillings.map (·.name))[i] := by rw [List.getElem_map]
  rw [List.getElem_map, List.getElem_range, place, hname, hdistinct.idxOf_getElem]

/-- At the place of a child there is the child. -/
theorem getElem?_place (hf : f ∈ fillings) : fillings[place fillings f]? = some f := by
  obtain ⟨i, hi, rfl⟩ := List.mem_iff_getElem.mp hf
  have hplace : place fillings fillings[i] = i := by
    have hi' := List.getElem_of_eq (map_place hdistinct) (i := i) (by simpa using hi)
    rwa [List.getElem_map, List.getElem_range] at hi'
  rw [hplace, List.getElem?_eq_getElem hi]

end Places

/-- The call of the constructor, bound with these names for its operands. -/
def call (name : String) (fillings : List Filling) (argNames : List (Option String)) : Binding where
  op := .call
  name
  action := .constructorFor name (record fillings)
  type := record fillings
  argNames

/-- The call of the constructor on all of them, in the order of declaration. -/
def built (name : String) (fillings : List Filling) (argNames : List (Option String)) : Tree :=
  .apply (call name fillings argNames) (fillings.map (·.tree))

/-! ## Binding -/

/-- Arguments that are given by name are bound to the children of their names. -/
theorem bindArgs_named (hdistinct : (fillings.map (·.name)).Nodup)
    (hgiven : ∀ f ∈ given, f ∈ fillings)
    (hnames : (given.map (·.name)).Nodup)
    (hfits : ∀ f ∈ given, f.type.compatibleWith f.tree.type = true) (i : Nat) {taken : List Nat}
    (hfree : ∀ f ∈ given, place fillings f ∉ taken) :
    Signature.bindArgs (fillings.map field) i taken
        (given.map fun f => (some f.name, f.tree.type)) =
      some (given.map (place fillings)) := by
  induction given generalizing i taken with
  | nil => rfl
  | cons f given ih =>
    obtain ⟨hf, hrest⟩ := List.forall_mem_cons.mp hgiven
    obtain ⟨hnew, hnames⟩ := List.nodup_cons.mp (List.map_cons ▸ hnames)
    -- no other argument has the name, and so none has the place
    have hfree' : ∀ g ∈ given, place fillings g ∉ place fillings f :: taken := by
      intro g hg hmem
      rcases List.mem_cons.mp hmem with hplace | hmem
      · have hat := getElem?_place hdistinct hf
        rw [← hplace, getElem?_place hdistinct (hrest g hg)] at hat
        exact hnew (List.mem_map.mpr ⟨g, hg, by rw [Option.some.inj hat]⟩)
      · exact hfree g (List.mem_cons_of_mem _ hg) hmem
    have hrun := ih hrest hnames (fun g hg => hfits g (List.mem_cons_of_mem _ hg)) (i + 1) hfree'
    have hfit : (!taken.contains (place fillings f) &&
        (fillings.map field)[place fillings f]?.any fun d => d.2.compatibleWith f.tree.type) =
          true := by
      rw [List.getElem?_map, getElem?_place hdistinct hf, Bool.and_eq_true, Bool.not_eq_true',
        List.contains_eq_mem, decide_eq_false_iff_not]
      exact ⟨hfree f List.mem_cons_self, hfits f List.mem_cons_self⟩
    rw [List.map_cons, List.map_cons, Signature.bindArgs, Signature.declaredPosition?,
      findIdx?_fields hf]
    dsimp only
    rw [if_pos hfit, hrun]
    rfl

/-- Arguments without names are bound to the children in their own places. -/
theorem bindArgs_unnamed (front : List Filling) {rest : List Filling}
    (hfits : ∀ f ∈ rest, f.type.compatibleWith f.tree.type = true) (taken : List Nat)
    (hfree : ∀ p ∈ taken, p < front.length) :
    Signature.bindArgs ((front ++ rest).map field) front.length taken
        (rest.map fun f => (none, f.tree.type)) =
      some (List.range' front.length rest.length) := by
  induction rest generalizing front taken with
  | nil => rfl
  | cons f rest ih =>
    have hrun := ih (front ++ [f]) (fun g hg => hfits g (List.mem_cons_of_mem _ hg))
      (front.length :: taken) (by
        intro p hp
        rw [List.length_append]
        rcases List.mem_cons.mp hp with rfl | hp
        · exact Nat.lt_succ_self _
        · exact (hfree p hp).trans (Nat.lt_succ_self _))
    rw [List.append_assoc, List.singleton_append, List.length_append] at hrun
    have hfit : (!taken.contains front.length && ((front ++ f :: rest).map field)[front.length]?.any
        fun d => d.2.compatibleWith f.tree.type) = true := by
      rw [List.getElem?_map, List.getElem?_append_right (Nat.le_refl _), Nat.sub_self,
        List.getElem?_cons_zero, Bool.and_eq_true, Bool.not_eq_true', List.contains_eq_mem,
        decide_eq_false_iff_not]
      exact ⟨fun h => (hfree _ h).false, hfits f List.mem_cons_self⟩
    rw [List.map_cons, Signature.bindArgs, Signature.declaredPosition?]
    dsimp only
    rw [if_pos hfit, show front.length + 1 = front.length + [f].length from rfl, hrun,
      Option.map_some, List.length_cons, List.length_nil, List.length_cons, List.range'_succ]

/-- In the order of declaration, arguments that are given by name are the operands of the type's
children. -/
theorem declaredOrder_eq (hdistinct : (fillings.map (·.name)).Nodup) (hperm : given.Perm fillings) :
    Env.declaredOrder (given.map (·.tree)) (given.map (some ·.name)) (given.map (place fillings)) =
      (fillings.map (·.tree), fillings.map (some ·.name)) := by
  let slot (f : Filling) : Nat × Tree × Option String := (place fillings f, f.tree, some f.name)
  have hslots : (given.map (place fillings)).zip
      ((given.map (·.tree)).zip (given.map (some ·.name))) = given.map slot := by
    rw [List.zip_map', List.zip_map']
  have hkeys : (fillings.map slot).map (·.1) = List.range fillings.length := by
    rw [List.map_map, ← map_place hdistinct]
    rfl
  have hnodup : ((fillings.map slot).map (·.1)).Nodup := hkeys ▸ List.nodup_range
  -- it does not matter in which order the slots stand
  have hlookup : ∀ p, (given.map slot).lookup p = (fillings.map slot).lookup p := by
    intro p
    have hslotted := hperm.map slot
    have hnodup' := (hslotted.map (·.1)).nodup_iff.mpr hnodup
    refine Option.ext fun v => ?_
    rw [Tuple.lookup_eq_some_iff_mem hnodup', Tuple.lookup_eq_some_iff_mem hnodup, hslotted.mem_iff]
  have hordered := filterMap_lookup_keys hnodup
  unfold Env.declaredOrder
  rw [hslots]
  dsimp only
  rw [funext hlookup, List.length_map, hperm.length_eq, ← hkeys, hordered]
  simp only [List.map_map]
  rfl

end Filling

/-- Types of the arguments of a call with their names. -/
theorem Env.operandTypes_call (args : List (Option String × Tree)) :
    Env.operandTypes .call (args.map (·.2)) (args.map (·.1)) =
      (.void, .tree (args.map fun a => (a.1, a.2.type))) := by
  unfold operandTypes
  rw [if_pos rfl]
  refine congrArg (fun fields => (TypeDesc.void, TypeDesc.tree fields))
    (List.ext_getElem (by simp) fun i hi hi' => ?_)
  rw [List.length_map] at hi'
  simp [hi']

/-- With names, what is bound has its operands in the order of declaration. -/
theorem Env.bound_of_named {name : String} {children : List Tree} {names : List (Option String)}
    {action : Action} {owner args : TypeDesc} {positions : List Nat}
    (hnamed : names.any Option.isSome = true)
    (hpositions : action.signature.declaredPositions args = some positions) :
    Env.bound .call name children names action owner args =
      .apply
        { op := .call
          name
          action
          type := action.signature.resolveReturn owner args
          argNames := (declaredOrder children names positions).2 }
        (declaredOrder children names positions).1 := by
  unfold bound
  rw [if_pos ⟨rfl, hnamed⟩]
  dsimp only
  rw [hpositions]

namespace Store

/-- The type goes by the name at the scope, and nothing else does: its constructor is the only
action of this name at the outermost scope. -/
structure Offers (s : Store) (scope : TupleId) (name : String) (type : TypeDesc) : Prop where
  seen : s.lookupType scope name = some type
  actions : s.actionsNamed scope name = [.constructorFor name type]

namespace Offers

variable {s : Store} {scope : TupleId} {name : String} {fillings given : List Filling}
  {positions : List Nat}

/-- A call that the constructor accepts is bound to it. -/
theorem candidates_eq (h : s.Offers scope name (Filling.record fillings)) {args : TypeDesc}
    (hargs : (Signature.constructor name (Filling.record fillings)
      (Filling.record fillings)).declaredPositions args = some positions) :
    (s.env scope).candidates .call name .void args =
      [.constructorFor name (Filling.record fillings)] := by
  have haccepts : (Action.constructorFor name (Filling.record fillings)).signature.accepts .void
      args = true := by
    rw [Signature.accepts, Bool.and_eq_true]
    exact ⟨rfl, Option.isSome_iff_exists.mpr ⟨positions, hargs⟩⟩
  have hconstructors : s.constructors scope name args =
      [.constructorFor name (Filling.record fillings)] := by
    simp only [constructors, actionsOf, actionsMatching, h.actions, List.filter_cons, haccepts,
      if_true, List.filter_nil]
    rfl
  have htype : s.isType scope name = true := by
    rw [isType, h.seen]
    rfl
  change s.candidates scope ⟨.call, name, [], []⟩ .void args = _
  unfold candidates
  dsimp only
  rw [if_neg (by simp), if_pos htype, hconstructors]
  rfl

/-- A call that the constructor accepts is bound to the tree that puts its arguments in their
places. -/
theorem bind_eq (h : s.Offers scope name (Filling.record fillings))
    (args : List (Option String × Tree))
    (hargs : (Signature.constructor name (Filling.record fillings)
      (Filling.record fillings)).declaredPositions (.tree (args.map fun a => (a.1, a.2.type))) =
        some positions) :
    (s.env scope).bind .call name (args.map (·.2)) (args.map (·.1)) =
      some (Env.bound .call name (args.map (·.2)) (args.map (·.1))
        (.constructorFor name (Filling.record fillings)) .void
        (.tree (args.map fun a => (a.1, a.2.type)))) := by
  rw [Env.bind, Env.coerce, if_neg (by simp), Env.operandTypes_call]
  dsimp only
  rw [h.candidates_eq hargs]
  rfl

/-- Arguments that are given by name, in any order, are put in the order of declaration. -/
theorem bind_named (h : s.Offers scope name (Filling.record fillings))
    (hdistinct : (fillings.map (·.name)).Nodup)
    (hfits : ∀ f ∈ fillings, f.type.compatibleWith f.tree.type = true)
    (hperm : given.Perm fillings) :
    (s.env scope).bind .call name (given.map (·.tree)) (given.map (some ·.name)) =
      some (Filling.built name fillings (fillings.map (some ·.name))) := by
  have hsize : (Filling.record fillings).size =
      (TypeDesc.tree (given.map fun f => (some f.name, f.tree.type))).size := by
    simp [Filling.record, TypeDesc.size, TypeDesc.fields, hperm.length_eq]
  have hbind := Filling.bindArgs_named hdistinct (fun f hf => hperm.mem_iff.mp hf)
    ((hperm.map _).nodup_iff.mpr hdistinct) (fun f hf => hfits f (hperm.mem_iff.mp hf)) 0
    fun _ _ => List.not_mem_nil
  have hpositions : (Signature.constructor name (Filling.record fillings)
      (Filling.record fillings)).declaredPositions
        (.tree (given.map fun f => (some f.name, f.tree.type))) =
          some (given.map (Filling.place fillings)) :=
    Signature.declaredPositions_eq_some.mpr ⟨hsize, hbind⟩
  have hargs : (s.env scope).bind .call name (given.map (·.tree)) (given.map (some ·.name)) =
      some (Env.bound .call name (given.map (·.tree)) (given.map (some ·.name))
        (.constructorFor name (Filling.record fillings)) .void
        (.tree (given.map fun f => (some f.name, f.tree.type)))) := by
    simpa only [List.map_map, Function.comp_def] using
      h.bind_eq (given.map fun f => (some f.name, f.tree)) (by rwa [List.map_map])
  rw [hargs]
  cases given with
  | nil =>
    obtain rfl := hperm.nil_eq
    rfl
  | cons f given =>
    rw [Env.bound_of_named rfl hpositions, Filling.declaredOrder_eq hdistinct hperm]
    rfl

/-- Arguments without names stand in the order of declaration. -/
theorem bind_unnamed (h : s.Offers scope name (Filling.record fillings))
    (hfits : ∀ f ∈ fillings, f.type.compatibleWith f.tree.type = true) :
    (s.env scope).bind .call name (fillings.map (·.tree)) (fillings.map fun _ => none) =
      some (Filling.built name fillings (fillings.map fun _ => none)) := by
  have hsize : (Filling.record fillings).size =
      (TypeDesc.tree (fillings.map fun f => (none, f.tree.type))).size := by
    simp [Filling.record, TypeDesc.size, TypeDesc.fields]
  have hbind := Filling.bindArgs_unnamed [] hfits [] (by simp)
  have hargs : (s.env scope).bind .call name (fillings.map (·.tree)) (fillings.map fun _ => none) =
      some (Env.bound .call name (fillings.map (·.tree)) (fillings.map fun _ => none)
        (.constructorFor name (Filling.record fillings)) .void
        (.tree (fillings.map fun f => (none, f.tree.type)))) := by
    simpa only [List.map_map, Function.comp_def] using
      h.bind_eq (fillings.map fun f => (none, f.tree)) (by
        rw [List.map_map]
        exact Signature.declaredPositions_eq_some.mpr ⟨hsize, hbind⟩)
  rw [hargs, Env.bound_of_unnamed (by simp)]
  rfl

end Offers

end Store

end TupleLang
