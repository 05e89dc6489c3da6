import TupleLang.Proofs.LinearParser

/-!
# Results that are wildcards

A signature may leave its result open: the wildcard stands for the type of an argument, the first
one that is declared as a wildcard itself. `Signature.resolveReturn` finds this argument by its
place in the call. The action takes its arguments as `Signature.declaredPositions` binds them, a
named one to the declared argument of its name, wherever it stands.

So the type of the result is that of the argument at the place of the wildcard
(`wildcard_result_is_typed_by_place`). It is the argument which is bound to the wildcard as long as
no name moves it, as in every call without names. Otherwise the result may have the type of another
argument (`named_argument_is_no_wildcard`).
-/

namespace TupleLang.Signature

variable {s : Signature} {owner args : TypeDesc} {positions : List Nat}

/-- Position of the first declared argument that is a wildcard. -/
def wildcard? (s : Signature) : Option Nat := s.args.fields.findIdx? (·.2.isAny)

/-- Arguments are bound where there are as many of them as are declared. -/
theorem declaredPositions_eq_some : s.declaredPositions args = some positions ↔
    s.args.size = args.size ∧ bindArgs s.args.fields 0 [] args.fields = some positions := by
  unfold declaredPositions
  by_cases hsize : s.args.size = args.size
  · rw [if_pos hsize, and_iff_right hsize]
  · rw [if_neg hsize]
    exact iff_of_false nofun fun h => hsize h.1

/-- To each declared argument one actual argument is bound. -/
theorem existsUnique_bound (h : s.declaredPositions args = some positions) {p : Nat}
    (hp : p < args.size) : ∃ k, ∀ j : Nat, positions[j]? = some p ↔ j = k := by
  obtain ⟨hperm, -⟩ := declaredPositions_perm h
  have hmem : p ∈ positions := hperm.mem_iff.mp (List.mem_range.mpr hp)
  obtain ⟨k, hk⟩ := List.getElem?_of_mem hmem
  have hnodup : positions.Nodup := hperm.nodup_iff.mp List.nodup_range
  refine ⟨k, fun j => ⟨fun hj => ?_, fun hj => hj ▸ hk⟩⟩
  exact (List.getElem?_inj (List.getElem?_eq_some_iff.mp hj).1 hnodup).mp (hj.trans hk.symm)

/-- In a call without names every argument is bound in its own place. -/
theorem bindArgs_of_unnamed {declared actual : List TypeDesc.Field} {i : Nat} {taken : List Nat}
    (hnames : ∀ f ∈ actual, f.1 = none) (h : bindArgs declared i taken actual = some positions) :
    positions = List.range' i actual.length := by
  induction actual generalizing i taken positions with
  | nil =>
    cases h
    rfl
  | cons f rest ih =>
    obtain ⟨name, type⟩ := f
    obtain rfl : name = none := hnames _ List.mem_cons_self
    simp only [bindArgs, declaredPosition?] at h
    obtain ⟨-, hrest⟩ := Option.ite_none_right_eq_some.mp h
    obtain ⟨ps, hps, rfl⟩ := Option.map_eq_some_iff.mp hrest
    rw [ih (fun f hf => hnames f (List.mem_cons_of_mem _ hf)) hps, List.length_cons,
      List.range'_succ]

/-- The first pair whose left part passes a test has the right part at that place. -/
theorem map_find?_zip {α β : Type} (test : α → Bool) {l : List α} {l' : List β}
    (hlen : l.length = l'.length) : ((l.zip l').find? fun p => test p.1).map (·.2) =
      (l.findIdx? test).bind (l'[·]?) := by
  induction l generalizing l' with
  | nil => rfl
  | cons a l ih =>
    cases l' with
    | nil => cases hlen
    | cons b l' =>
      rw [List.zip_cons_cons, List.find?_cons, List.findIdx?_cons]
      -- the first hit among the pairs is at the first hit of the list
      cases htest : test a with
      | true => simp
      | false => simpa [Option.bind_map, Function.comp_def] using ih (Nat.succ.inj hlen)

/-- A result that is a wildcard has the type of the argument in the place of the first declared
wildcard. -/
theorem resolveReturn_of_isAny (owner : TypeDesc) (hreturns : s.returns.isAny = true)
    (howner : s.owner.isAny = false) (hsize : s.args.size = args.size) :
    s.resolveReturn owner args = (s.wildcard?.bind args.at?).getD .any := by
  have hfind : ((s.args.fields.zip args.fields).find? fun p => p.1.2.isAny).map (·.2.2) =
      s.wildcard?.bind args.at? := by
    have := congrArg (Option.map (·.2))
      (map_find?_zip (·.2.isAny) (show s.args.fields.length = args.fields.length from hsize))
    rw [Option.map_map, Option.map_bind] at this
    exact this
  unfold resolveReturn
  rw [hreturns, howner, ← hfind]
  cases (s.args.fields.zip args.fields).find? fun p => p.1.2.isAny <;> rfl

/-- Where a result is a wildcard and the owner is none, a call has the type of the argument that
stands in the place of the first declared wildcard, and stays a wildcard if there is none. Exactly
one argument is bound to that wildcard. It is the one that stands in its place if no name has moved
it; otherwise the call has its type only if the two have the same type. -/
theorem wildcard_result_is_typed_by_place (owner : TypeDesc) (hreturns : s.returns.isAny = true)
    (howner : s.owner.isAny = false) (h : s.declaredPositions args = some positions) :
    match s.wildcard? with
    | none => s.resolveReturn owner args = .any
    | some p =>
      args.at? p = some (s.resolveReturn owner args) ∧
        ∃ k, (∀ j : Nat, positions[j]? = some p ↔ j = k) ∧
          (args.at? k = some (s.resolveReturn owner args) ↔ args.at? k = args.at? p) ∧
          (positions[p]? = some p ∨ (∀ f ∈ args.fields, f.1 = none) →
            args.at? k = some (s.resolveReturn owner args)) := by
  obtain ⟨hsize, hbind⟩ := declaredPositions_eq_some.mp h
  have hresult := resolveReturn_of_isAny owner hreturns howner hsize
  cases hp : s.wildcard? with
  | none => rw [hresult, hp, Option.bind_none, Option.getD_none]
  | some p =>
    have hlt : p < args.fields.length :=
      (List.findIdx?_eq_some_iff_getElem.mp hp).1.trans_eq hsize
    have hat : args.at? p = some (s.resolveReturn owner args) := by
      have hfield : args.at? p = some args.fields[p].2 := by
        rw [TypeDesc.at?, List.getElem?_eq_getElem hlt, Option.map_some]
      rw [hresult, hp, Option.bind_some, hfield, Option.getD_some]
    obtain ⟨k, hk⟩ := existsUnique_bound h hlt
    refine ⟨hat, k, hk, by rw [hat], fun hplace => ?_⟩
    -- without names every argument binds at its own place
    have hself : positions[p]? = some p := by
      refine hplace.elim id fun hnames => ?_
      rw [bindArgs_of_unnamed hnames hbind, List.getElem?_range' hlt, Nat.zero_add, Nat.one_mul]
    rw [← (hk p).mp hself, hat]

/-- A function of anything and an integer, called by name in the declared order. -/
theorem wildcard_result_is_typed_by_place_ordered :
    let s := function "f" .any (.tree [(some "n", .leaf "int"), (some "a", .any)])
    let args := TypeDesc.tree [(some "n", .leaf "int"), (some "a", .leaf "text")]
    s.returns.isAny = true ∧ s.owner.isAny = false ∧ s.declaredPositions args = some [0, 1] ∧
      args.at? 1 = some (s.resolveReturn .void args) ∧
      s.resolveReturn .void args = .leaf "text" := by
  intro s args
  have hpositions : s.declaredPositions args = some [0, 1] := by decide
  have h := wildcard_result_is_typed_by_place .void (by decide) (by decide) hpositions
  exact ⟨by decide, by decide, hpositions, h.1, by decide⟩

/-- Called by name in another order, the function has the type of the integer, although the text is
bound to the wildcard. -/
theorem named_argument_is_no_wildcard :
    let s := function "f" .any (.tree [(some "a", .any), (some "n", .leaf "int")])
    let args := TypeDesc.tree [(some "n", .leaf "int"), (some "a", .leaf "text")]
    s.returns.isAny = true ∧ s.owner.isAny = false ∧ s.declaredPositions args = some [1, 0] ∧
      s.wildcard? = some 0 ∧ args.at? 1 = some (.leaf "text") ∧
      s.resolveReturn .void args = .leaf "int" := by
  decide

end TupleLang.Signature
