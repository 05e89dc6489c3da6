import Mathlib
import TupleLang.Expr.Bind

/-!
# Where bound actions come from

An operator is bound to an action that accepts its operands, of the category that the operator asks
for, and that is registered under its name at the outermost scope.
-/

namespace TupleLang

/-- The chosen action is one of the candidates. -/
theorem Choice.mem_of_mostSpecific {candidates : List Action} {action : Action}
    (h : mostSpecific candidates = .one action) : action ∈ candidates := by
  unfold mostSpecific at h
  split at h
  · cases h
  · cases h
    exact List.mem_singleton.mpr rfl
  · split at h
    · rename_i best hbest
      cases h
      exact (List.mem_filter.mp (hbest ▸ List.mem_singleton.mpr rfl)).1
    · cases h

/-- A local action of a name is registered under a key of that name. -/
theorem Tuple.mem_actionsNamed {t : Tuple} {name : String} {action : Action}
    (h : action ∈ t.actionsNamed name) :
    ∃ keys key, t.byName.lookup name = some keys ∧ key ∈ keys ∧
      t.actions.lookup key = some action := by
  unfold actionsNamed at h
  obtain ⟨key, hkey, haction⟩ := List.mem_filterMap.mp h
  cases hkeys : t.byName.lookup name with
  | none => simp [hkeys] at hkey
  | some keys => exact ⟨keys, key, rfl, by simpa [hkeys] using hkey, haction⟩

namespace Store

variable {s : Store} {scope : TupleId} {name : String} {owner args : TypeDesc} {action : Action}

/-- Actions are looked for at the outermost scope. -/
theorem mem_actionsNamed (h : action ∈ s.actionsNamed scope name) :
    ∃ t, s.tuple? (s.rootOf scope) = some t ∧ action ∈ t.actionsNamed name := by
  unfold actionsNamed at h
  split at h
  · exact ⟨_, ‹_›, h⟩
  · simp at h

/-- An action that is found under a name is registered in a live tuple. -/
theorem registered_of_mem_actionsNamed (h : action ∈ s.actionsNamed scope name) :
    ∃ id t key, s.tuple? id = some t ∧ (key, action) ∈ t.actions := by
  obtain ⟨t, ht, hmem⟩ := mem_actionsNamed h
  obtain ⟨_, key, -, -, hlookup⟩ := Tuple.mem_actionsNamed hmem
  obtain ⟨before, after, hactions, -⟩ := List.lookup_eq_some_iff.mp hlookup
  exact ⟨_, t, key, ht, by simp [hactions]⟩

/-- The actions for a call are those of its name and category that accept it. -/
theorem mem_actionsOf {category : String} :
    action ∈ s.actionsOf category scope name owner args ↔
      action ∈ s.actionsNamed scope name ∧ action.signature.accepts owner args = true ∧
        action.signature.category = category := by
  simp only [actionsOf, actionsMatching, List.mem_filter, beq_iff_eq, and_assoc]

/-- A draft is bound to an operator; a call is bound to a function, or to a constructor if its name
means a type. -/
theorem mem_candidates {draft : Draft} (h : action ∈ s.candidates scope draft owner args) :
    draft.op ≠ .call ∧ action ∈ s.operators scope draft.name owner args ∨
    draft.op = .call ∧
      (action ∈ s.actionsOf Signature.functionCategory scope draft.name owner args ∨
        s.isType scope draft.name = true ∧ action ∈ s.constructors scope draft.name args) := by
  unfold candidates at h
  split at h
  · exact .inl ⟨‹_›, h⟩
  · rename_i hop
    refine .inr ⟨Decidable.not_not.mp hop, ?_⟩
    -- only the name of a type calls constructors, and functions are tried where none fits
    by_cases htype : s.isType scope draft.name = true
    · simp only [htype, if_true] at h
      split at h
      · exact .inl h
      · exact .inr ⟨htype, h⟩
    · simp only [htype, Bool.false_eq_true, if_false] at h
      exact .inl h

/-- A draft is bound to an action of its name. -/
theorem named_of_mem_candidates {draft : Draft} (h : action ∈ s.candidates scope draft owner args) :
    action ∈ s.actionsNamed scope draft.name := by
  rcases mem_candidates h with ⟨-, h⟩ | ⟨-, h | ⟨-, h⟩⟩ <;> exact (mem_actionsOf.mp h).1

/-- What a relational operator is made of when it has no action of its own. -/
theorem comparison?_eq_some {draft : Draft} {compare relation : Action}
    {ordering returns : TypeDesc}
    (h : s.comparison? scope draft owner args = some (compare, ordering, relation, returns)) :
    compare ∈ s.operators scope Operator.cmp.actionName owner args ∧
      ordering = compare.signature.resolveReturn owner args ∧
      relation ∈ s.operators scope draft.name ordering (.leaves ["int"]) ∧
      returns = relation.signature.resolveReturn ordering (.leaves ["int"]) := by
  unfold comparison? at h
  split at h
  · rename_i hcompare
    dsimp only at h
    split at h
    · rename_i hrelation
      simp only [Option.some.injEq, Prod.mk.injEq] at h
      obtain ⟨rfl, rfl, rfl, rfl⟩ := h
      exact ⟨Choice.mem_of_mostSpecific hcompare, rfl, Choice.mem_of_mostSpecific hrelation, rfl⟩
    · cases h
  · cases h

end Store

end TupleLang
