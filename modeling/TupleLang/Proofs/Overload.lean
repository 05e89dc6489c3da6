import Mathlib
import TupleLang.Proofs.Choice
import TupleLang.Proofs.LinearParser
import TupleLang.Proofs.PrecedenceParser
import TupleLang.Proofs.Refinement
import TupleLang.Proofs.Tables

/-!
# The choice among overloads

An operator is bound to the one of its overloads that refines all the others. Refinement is
reflexive, and neither antisymmetric nor transitive: several overloads may refine all the others, or
none may, and the operator is then ambiguous. The choice is a property of the set of overloads
(`Choice.mostSpecific_eq_one_iff`), so that it does not depend on the order in which they were
registered (`Choice.mostSpecific_perm`), and nor does what the operator is bound to.
-/

namespace TupleLang

namespace Choice

variable {actions others : List Action} {a : Action}

/-- The action refines every other one. -/
structure Refining (actions : List Action) (a : Action) : Prop where
  mem : a ∈ actions
  refines : ∀ d ∈ actions, d ≠ a → a.signature.refines d.signature = true

/-- The action is the only one that refines every other one. -/
def Sole (actions : List Action) (a : Action) : Prop :=
  Refining actions a ∧ ∀ b, Refining actions b → b = a

/-- The actions that refine all actions. -/
def refining (actions : List Action) : List Action :=
  actions.filter fun c => actions.all fun d => c.signature.refines d.signature

/-- An action refines itself, so that it may be counted among those that it has to refine. -/
theorem mem_refining : a ∈ refining actions ↔ Refining actions a := by
  simp only [refining, List.mem_filter, List.all_eq_true]
  refine ⟨fun h => ⟨h.1, fun d hd _ => h.2 d hd⟩, fun h => ⟨h.mem, fun d hd => ?_⟩⟩
  by_cases hda : d = a
  · rw [hda]
    exact a.signature.refines_refl
  · exact h.refines d hd hda

/-- A single action needs no rule of its own, since it refines itself. -/
theorem mostSpecific_of_refining_eq (h : refining actions = [a]) :
    mostSpecific actions = .one a := by
  match actions with
  | [] => cases h
  | [only] =>
    have honly : refining [only] = [only] := by simp [refining, Signature.refines_refl]
    obtain rfl : only = a := List.head_eq_of_cons_eq (honly.symm.trans h)
    rfl
  | first :: second :: rest =>
    have hfilter : ((first :: second :: rest).filter fun c => (first :: second :: rest).all fun d =>
      c.signature.refines d.signature) = [a] := h
    simp only [mostSpecific, hfilter]

theorem mostSpecific_of_refining_ne (h : ∀ a, refining actions ≠ [a]) :
    mostSpecific actions = if actions = [] then .nothing else .ambiguous actions.length := by
  match actions with
  | [] => rfl
  | [only] => exact absurd (by simp [refining, Signature.refines_refl]) (h only)
  | first :: second :: rest =>
    rw [mostSpecific.eq_def]
    dsimp only
    split
    · rename_i best hbest
      exact absurd hbest (h best)
    · rfl

/-- The chosen action is the only one that refines every other one. -/
theorem mostSpecific_eq_one_iff (h : actions.Nodup) :
    mostSpecific actions = .one a ↔ Sole actions a := by
  -- the sole refiner is the one that the filter leaves
  have hsole : Sole actions a ↔ refining actions = [a] := by
    simp only [Sole, ← mem_refining]
    constructor
    · rintro ⟨hmem, honly⟩
      refine List.perm_singleton.mp ?_
      refine (List.perm_ext_iff_of_nodup (h.filter _) (List.nodup_singleton a)).mpr fun b => ?_
      rw [List.mem_singleton]
      exact ⟨honly b, fun hb => hb ▸ hmem⟩
    · intro hone
      simp [hone]
  rw [hsole]
  by_cases hone : ∃ b, refining actions = [b]
  · obtain ⟨b, hb⟩ := hone
    simp [mostSpecific_of_refining_eq hb, hb]
  · push Not at hone
    rw [mostSpecific_of_refining_ne hone]
    split <;> simp [hone a]

/-- Without such an action the choice is ambiguous. -/
theorem mostSpecific_eq_ambiguous (h : actions.Nodup) (hne : actions ≠ [])
    (hnone : ∀ a, ¬ Sole actions a) : mostSpecific actions = .ambiguous actions.length := by
  have hrefining : ∀ a, refining actions ≠ [a] := fun a ha =>
    hnone a ((mostSpecific_eq_one_iff h).mp (mostSpecific_of_refining_eq ha))
  rw [mostSpecific_of_refining_ne hrefining, if_neg hne]

/-- The choice does not depend on the order. -/
theorem mostSpecific_perm (h : actions.Perm others) :
    mostSpecific actions = mostSpecific others := by
  -- what refines all others does so in any order
  have hrefining : (refining actions).Perm (refining others) := by
    have hall : ∀ c : Action, (actions.all fun d => c.signature.refines d.signature) =
        others.all fun d => c.signature.refines d.signature := fun c => h.all_eq
    simp only [refining, hall]
    exact h.filter _
  by_cases hone : ∃ b, refining actions = [b]
  · obtain ⟨b, hb⟩ := hone
    have hb' : refining others = [b] := List.perm_singleton.mp (hb ▸ hrefining.symm)
    rw [mostSpecific_of_refining_eq hb, mostSpecific_of_refining_eq hb']
  · push Not at hone
    have hone' : ∀ b, refining others ≠ [b] := fun b hb =>
      hone b (List.perm_singleton.mp (hb ▸ hrefining))
    have hempty : actions = [] ↔ others = [] := by
      rw [← List.length_eq_zero_iff, ← List.length_eq_zero_iff, h.length_eq]
    simp only [mostSpecific_of_refining_ne hone, mostSpecific_of_refining_ne hone', hempty,
      h.length_eq]

end Choice

/-! ## Overloads -/

/-- The operators of a table that have the name and accept the given owner and arguments. -/
def Tuple.overloads (t : Tuple) (name : String) (owner args : TypeDesc) : List Action :=
  (t.actions.map (·.2)).filter fun a =>
    a.signature.category = Signature.operatorCategory ∧ a.name = name ∧
      a.signature.accepts owner args = true

namespace Tuple

variable {t t' : Tuple} {name : String} {owner args : TypeDesc}

/-- No overload stands twice in a table. -/
theorem Tabled.nodup_overloads (h : t.Tabled) : (t.overloads name owner args).Nodup := by
  have hkeys : (t.actions.map (·.2)).map (·.signature.key) = t.actions.map (·.1) := by
    rw [List.map_map]
    exact List.map_congr_left fun p hp => (h.signatures p hp).symm
  exact (List.Nodup.of_map _ (hkeys ▸ h.keys)).filter _

/-- The overloads that apply are the same in any order of registration. -/
theorem overloads_perm (h : t.actions.Perm t'.actions) :
    (t.overloads name owner args).Perm (t'.overloads name owner args) :=
  (h.map _).filter _

end Tuple

namespace Store

variable {s s' : Store} {scope scope' : TupleId} {t t' : Tuple} {name : String}
  {owner args : TypeDesc}

/-- The actions at a scope are those of the table `t`. -/
structure Consults (s : Store) (scope : TupleId) (t : Tuple) : Prop where
  root : s.tuple? (s.rootOf scope) = some t
  tabled : t.Tabled

/-- Whoever consults a table finds the operators registered in it. -/
theorem Consults.operators_eq (h : s.Consults scope t) :
    s.operators scope name owner args = t.overloads name owner args := by
  simp only [operators, actionsOf, actionsMatching, actionsNamed, h.root, h.tabled.actionsNamed_eq,
    Tuple.overloads, List.filter_filter]
  refine List.filter_congr fun a _ => ?_
  grind

/-- The choice is the same at two scopes whose tables hold the same actions. -/
theorem Consults.mostSpecific_eq (h : s.Consults scope t) (h' : s'.Consults scope' t')
    (hperm : t.actions.Perm t'.actions) :
    Choice.mostSpecific (s.operators scope name owner args) =
      Choice.mostSpecific (s'.operators scope' name owner args) := by
  rw [h.operators_eq, h'.operators_eq]
  exact Choice.mostSpecific_perm (Tuple.overloads_perm hperm)

/-- The comparison that stands in for a relation does not depend on the order of registration. -/
theorem Consults.comparison?_eq (h : s.Consults scope t) (h' : s'.Consults scope' t')
    (hperm : t.actions.Perm t'.actions) {draft draft' : Draft} (hname : draft.name = draft'.name) :
    s.comparison? scope draft owner args = s'.comparison? scope' draft' owner args := by
  simp only [comparison?, h.mostSpecific_eq h' hperm, hname]

end Store

namespace Draft

variable {draft draft' d d' : Draft} {p p' p₁ p₁' : Parser} {t t' : Tuple} {span : Span}

/-- The draft of an operator other than a call comes before the table `t` as `d`, with the operand
of a type test already turned into a type. -/
structure Faces (draft : Draft) (p : Parser) (d : Draft) (p₁ : Parser) (t : Tuple) : Prop where
  noCall : draft.op ≠ .call
  coerced : Parser.coerceTypeOperand draft p = (d, p₁)
  consults : p.store.Consults p.scope t

/-- The drafts are of one operator, on operands of the same types. -/
structure Alike (d d' : Draft) : Prop where
  op : d.op = d'.op
  name : d.name = d'.name
  argNames : d.argNames = d'.argNames
  types : d.children.map Node.type = d'.children.map Node.type

/-- From `p` and `p'` two drafts are bound alike: to the same actions with the same types, over
their own operands, or both are refused with the same error. The zero of a comparison is made anew
for each of them. -/
inductive BoundAlike (d d' : Draft) (p p' : Parser) :
    Option Node × Parser → Option Node × Parser → Prop
  | bound (binding : Binding) {q q' : Parser} : q.pending = p.pending → q'.pending = p'.pending →
      BoundAlike d d' p p' (some (.apply binding d.children), q)
        (some (.apply binding d'.children), q')
  | compared (binding comparison : Binding) {zero zero' : Cell} {q q' : Parser} :
      zero.type = .leaf "int" → zero'.type = .leaf "int" →
      zero.Stores q.store.heap (.int 0) → zero'.Stores q'.store.heap (.int 0) →
      q.pending = p.pending → q'.pending = p'.pending →
      BoundAlike d d' p p' (some (.apply binding [.apply comparison d.children, .literal zero]), q)
        (some (.apply binding [.apply comparison d'.children, .literal zero']), q')
  | refused (error : String × Span) {q q' : Parser} : q.pending = p.pending ++ [error] →
      q'.pending = p'.pending ++ [error] → BoundAlike d d' p p' (none, q) (none, q')

/-- The operands count by their types only. -/
theorem Alike.operandTypes_eq (h : Alike d d') (hop : d.op ≠ .call) :
    d.operandTypes = d'.operandTypes := by
  have hop' : d'.op ≠ .call := h.op ▸ hop
  have htypes := h.types
  unfold operandTypes
  rw [if_neg hop, if_neg hop']
  cases hc : d.children <;> cases hc' : d'.children <;> simp_all

/-- An operator that is no call is bound with its operands as they are. -/
theorem bound_of_ne_call (hop : d.op ≠ .call) (action : Action) (owner args : TypeDesc) :
    d.bound action owner args = .apply
      ⟨d.op, d.name, action, action.signature.resolveReturn owner args, d.argNames⟩ d.children := by
  simp only [bound, hop, false_and, if_false]

/-- A relational operator without an action relates the result of the comparison to a new zero. -/
theorem compared_eq (compare relation : Action) (ordering returns : TypeDesc) (p : Parser) :
    Parser.compared d (compare, ordering, relation, returns) p =
      (.apply ⟨d.op, d.name, relation, returns, []⟩
        [.apply ⟨.cmp, Operator.cmp.actionName, compare, ordering, []⟩ d.children,
          .literal (Cell.ofNative p.store.heap .int (0 : Int32)).1],
      { p with store.heap := (Cell.ofNative p.store.heap .int (0 : Int32)).2 }) := rfl

/-- The parser when a draft is refused: the error is noted, and the operands are given up. -/
def refusedWith (d : Draft) (message : String) (span : Span) (p : Parser) : Parser :=
  { p with
    store := p.store.releaseNodes d.children
    pending := p.pending ++ [(message, span)] }

/-- A draft with its operand coerced is bound to the action that is chosen, or is refused. -/
theorem bindDraft_run (draft : Draft) (span : Span) (p : Parser) :
    Parser.bindDraft draft span p =
      let d := (Parser.coerceTypeOperand draft p).1
      let p₁ := (Parser.coerceTypeOperand draft p).2
      let owner := d.operandTypes.1
      let args := d.operandTypes.2
      match Choice.mostSpecific (p₁.store.candidates p₁.scope d owner args) with
      | .one action => (some (d.bound action owner args), p₁)
      | .ambiguous count => (none, d.refusedWith (d.ambiguousMessage owner args count) span p₁)
      | .nothing =>
        match if d.op.isRelational then p₁.store.comparison? p₁.scope d owner args else none with
        | some comparison =>
          (some (Parser.compared d comparison p₁).1, (Parser.compared d comparison p₁).2)
        | none => (none, d.refusedWith (d.noActionMessage owner args) span p₁) := by
  unfold Parser.bindDraft
  simp only
  generalize Parser.coerceTypeOperand draft = coerce
  change (match Choice.mostSpecific _ with
    | .one _ => _ | .ambiguous _ => _ | .nothing => _ : StateM Parser (Option Node))
      (coerce p).2 = _
  generalize (coerce p).1 = d
  -- only what coercion has come to matters from here
  generalize (coerce p).2 = p₁
  cases Choice.mostSpecific (p₁.store.candidates p₁.scope d d.operandTypes.1 d.operandTypes.2) with
  | one action => rfl
  | ambiguous count => rfl
  | nothing =>
    dsimp only
    cases (if d.op.isRelational then
      p₁.store.comparison? p₁.scope d d.operandTypes.1 d.operandTypes.2 else none) <;> rfl

namespace Faces

/-- Coercing an operand changes neither the operator nor the tuples. -/
theorem op_eq_and_adds (h : draft.Faces p d p₁ t) :
    d.op = draft.op ∧ p.store.Adds p₁.store ∧ p₁.store.root = p.store.root ∧ p₁.scope = p.scope ∧
      p₁.pending = p.pending := by
  obtain ⟨d₁, s, hdirect, hrun, -⟩ := Parser.matches_coerceTypeOperand draft p (.self p)
  obtain ⟨rfl, rfl⟩ := Prod.mk.inj (h.coerced.symm.trans hrun)
  rcases coerceTypeOperand_cases p.scope draft p.plain with hcase | ⟨type, -, hcase⟩
  · obtain ⟨rfl, rfl⟩ := EStateM.Result.ok.inj (hdirect.symm.trans hcase)
    exact ⟨rfl, .refl _, rfl, rfl, rfl⟩
  · obtain ⟨rfl, rfl⟩ := EStateM.Result.ok.inj (hdirect.symm.trans hcase)
    exact ⟨rfl, .make _ _ _, rfl, rfl, rfl⟩

/-- A draft that is looked at is not a call. -/
theorem ne_call (h : draft.Faces p d p₁ t) : d.op ≠ .call := h.op_eq_and_adds.1 ▸ h.noCall

/-- The errors noted are as before. -/
theorem pending_eq (h : draft.Faces p d p₁ t) : p₁.pending = p.pending := h.op_eq_and_adds.2.2.2.2

/-- The table is still there when the operand is coerced. -/
theorem consults_coerced (h : draft.Faces p d p₁ t) : p₁.store.Consults p₁.scope t := by
  obtain ⟨-, hadds, hroot, hscope, -⟩ := h.op_eq_and_adds
  refine ⟨?_, h.consults.tabled⟩
  have htable := h.consults.root
  rwa [hscope, Store.rootOf, Store.scopeChain, hadds.chainWithin, hroot, hadds.arena, Store.tuple?,
    hadds.arena]

section Choice

variable (h : draft.Faces p d p₁ t) (span : Span)

include h

/-- Binding looks for the most specific overload in the table. -/
theorem bind_eq : Parser.bindDraft draft span p =
    match Choice.mostSpecific (t.overloads d.name d.operandTypes.1 d.operandTypes.2) with
    | .one action => (some (d.bound action d.operandTypes.1 d.operandTypes.2), p₁)
    | .ambiguous count =>
      (none, d.refusedWith (d.ambiguousMessage d.operandTypes.1 d.operandTypes.2 count) span p₁)
    | .nothing =>
      match if d.op.isRelational then
        p₁.store.comparison? p₁.scope d d.operandTypes.1 d.operandTypes.2 else none with
      | some comparison =>
        (some (Parser.compared d comparison p₁).1, (Parser.compared d comparison p₁).2)
      | none =>
        (none, d.refusedWith (d.noActionMessage d.operandTypes.1 d.operandTypes.2) span p₁) := by
  have hcandidates : p₁.store.candidates p₁.scope d d.operandTypes.1 d.operandTypes.2 =
      t.overloads d.name d.operandTypes.1 d.operandTypes.2 := by
    rw [Store.candidates, if_pos h.ne_call, h.consults_coerced.operators_eq]
  rw [bindDraft_run, h.coerced]
  dsimp only
  rw [hcandidates]

/-- A draft with one most specific overload is bound to it. -/
theorem bind_of_one {a : Action}
    (hone : Choice.mostSpecific (t.overloads d.name d.operandTypes.1 d.operandTypes.2) = .one a) :
    Parser.bindDraft draft span p = (some (.apply
      ⟨d.op, d.name, a, a.signature.resolveReturn d.operandTypes.1 d.operandTypes.2, d.argNames⟩
      d.children), p₁) := by
  rw [h.bind_eq, hone, ← bound_of_ne_call h.ne_call]

/-- A draft with several most specific overloads is refused. -/
theorem bind_of_ambiguous {count : Nat}
    (hmany : Choice.mostSpecific (t.overloads d.name d.operandTypes.1 d.operandTypes.2) =
      .ambiguous count) :
    Parser.bindDraft draft span p = (none,
      d.refusedWith (d.ambiguousMessage d.operandTypes.1 d.operandTypes.2 count) span p₁) := by
  rw [h.bind_eq, hmany]

end Choice

/-- A refused draft has its error noted behind those that were there before. -/
theorem pending_refusedWith (h : draft.Faces p d p₁ t) (message : String) (span : Span) :
    (d.refusedWith message span p₁).pending = p.pending ++ [(message, span)] :=
  congrArg (· ++ _) h.pending_eq

/-- In another order of the same actions the operator is bound in the same way. -/
theorem boundAlike (h : draft.Faces p d p₁ t) (h' : draft'.Faces p' d' p₁' t')
    (hperm : t.actions.Perm t'.actions) (halike : Alike d d') (span : Span) :
    BoundAlike d d' p p' (Parser.bindDraft draft span p) (Parser.bindDraft draft' span p') := by
  have htypes := halike.operandTypes_eq h.ne_call
  have hchoice : Choice.mostSpecific (t.overloads d.name d.operandTypes.1 d.operandTypes.2) =
      Choice.mostSpecific (t'.overloads d'.name d'.operandTypes.1 d'.operandTypes.2) := by
    rw [← htypes, ← halike.name]
    exact Choice.mostSpecific_perm (Tuple.overloads_perm hperm)
  cases hfound : Choice.mostSpecific (t.overloads d.name d.operandTypes.1 d.operandTypes.2) with
  | one action =>
    rw [h.bind_of_one span hfound, h'.bind_of_one span (hchoice ▸ hfound), ← htypes, ← halike.op,
      ← halike.name, ← halike.argNames]
    exact .bound _ h.pending_eq h'.pending_eq
  | ambiguous count =>
    have hmessage : d'.ambiguousMessage d.operandTypes.1 d.operandTypes.2 count =
        d.ambiguousMessage d.operandTypes.1 d.operandTypes.2 count := by
      delta ambiguousMessage
      rw [halike.name]
    rw [h.bind_of_ambiguous span hfound, h'.bind_of_ambiguous span (hchoice ▸ hfound), ← htypes,
      hmessage]
    exact .refused _ (h.pending_refusedWith _ _) (h'.pending_refusedWith _ _)
  | nothing =>
    rw [h.bind_eq, h'.bind_eq, ← hchoice, hfound, ← htypes, ← halike.op,
      h.consults_coerced.comparison?_eq h'.consults_coerced hperm halike.name]
    generalize (if d.op.isRelational = true then
      p₁'.store.comparison? p₁'.scope d' d.operandTypes.1 d.operandTypes.2 else none) = comparison
    cases comparison with
    | some comparison =>
      -- the zero that the comparison is set against is a new cell in either store
      obtain ⟨compare, ordering, relation, returns⟩ := comparison
      dsimp only
      rw [compared_eq, compared_eq, ← halike.op, ← halike.name]
      exact .compared _ _ rfl rfl (Cell.stores_make _ _ _) (Cell.stores_make _ _ _) h.pending_eq
        h'.pending_eq
    | none =>
      have hmessage : d'.noActionMessage d.operandTypes.1 d.operandTypes.2 =
          d.noActionMessage d.operandTypes.1 d.operandTypes.2 := by
        delta noActionMessage
        rw [halike.op, halike.name]
      dsimp only
      rw [hmessage]
      exact .refused _ (h.pending_refusedWith _ _) (h'.pending_refusedWith _ _)

end Faces

/-- An operator is bound to the only one of its overloads that refines all the others, and is
refused as ambiguous if there is no such one. Where the same actions are registered in another
order, the operator is bound to the same actions, or is refused for the same reason; this holds as
well of a relational operator without overloads, which is made from the comparison. -/
theorem overload_choice_is_exact_and_order_free (h : draft.Faces p d p₁ t) (span : Span) :
    let owner := d.operandTypes.1
    let args := d.operandTypes.2
    let overloads := t.overloads d.name owner args
    (overloads ≠ [] →
      (∀ a ∈ overloads, (∃ p₂, Parser.bindDraft draft span p = (some (.apply ⟨d.op, d.name, a,
          a.signature.resolveReturn owner args, d.argNames⟩ d.children), p₂)) ↔
        Choice.Sole overloads a) ∧
      ((∀ a ∈ overloads, ¬ Choice.Sole overloads a) →
        Parser.bindDraft draft span p =
          (none, { p₁ with
            store := p₁.store.releaseNodes d.children
            pending := p.pending ++ [(d.ambiguousMessage owner args overloads.length, span)] }))) ∧
    ∀ {draft' d' : Draft} {p' p₁' : Parser} {t' : Tuple},
      draft'.Faces p' d' p₁' t' → t.actions.Perm t'.actions → Alike d d' →
      BoundAlike d d' p p' (Parser.bindDraft draft span p) (Parser.bindDraft draft' span p') := by
  intro owner args overloads
  have hnodup : overloads.Nodup := h.consults.tabled.nodup_overloads
  refine ⟨fun hne => ⟨fun a ha => ⟨fun ⟨p₂, hrun⟩ => ?_, fun hsole => ?_⟩, fun hnone => ?_⟩, ?_⟩
  · by_cases hsole : ∃ b, Choice.Sole overloads b
    · -- what the operator is bound to can be read off the node
      obtain ⟨b, hb⟩ := hsole
      rw [h.bind_of_one span ((Choice.mostSpecific_eq_one_iff hnodup).mpr hb)] at hrun
      obtain rfl : b = a := by
        injection Option.some.inj (Prod.mk.inj hrun).1 with hbinding
        injection hbinding
      exact hb
    · push Not at hsole
      rw [h.bind_of_ambiguous span (Choice.mostSpecific_eq_ambiguous hnodup hne hsole)] at hrun
      cases (Prod.mk.inj hrun).1
  · exact ⟨p₁, h.bind_of_one span ((Choice.mostSpecific_eq_one_iff hnodup).mpr hsole)⟩
  · have hsole : ∀ a, ¬ Choice.Sole overloads a := fun a hsole => hnone a hsole.1.mem hsole
    rw [h.bind_of_ambiguous span (Choice.mostSpecific_eq_ambiguous hnodup hne hsole), refusedWith,
      h.pending_eq]
  · intro draft' d' p' p₁' t' h' hperm halike
    exact h.boundAlike h' hperm halike span

/-- A sum of integers. -/
def narrowSum : Action :=
  ⟨.operator (.leaf "int") "+" (.leaf "int") (.leaves ["int"]), .host "narrow"⟩

/-- A sum of anything. -/
def wideSum : Action := ⟨.operator .any "+" .any (.leaves ["any"]), .host "wide"⟩

/-- A root scope in which the actions are registered one after the other. -/
def tableOf (actions : List Action) : Tuple :=
  (actions.map Tuple.Change.insertAction).foldl Tuple.Change.after
    { kind := .custom "global", permissions := .all, parent := none }

/-- A parser in that root scope, which is the only tuple. -/
def parserOf (actions : List Action) : Parser where
  store := (Store.bare {}).putTuple ⟨0, 0⟩ (tableOf actions)
  scope := ⟨0, 0⟩
  cursor := .ofTokens []

/-- The sum of two integers. -/
def sumDraft : Draft :=
  .ofOperator .add (.replicate 2 (.literal { type := .leaf "int", loc := 0 }))

/-- The sum of integers is the more specific one, in whichever order the two are registered. -/
theorem overload_choice_is_exact_and_order_free_sum :
    let p := parserOf [wideSum, narrowSum]
    let p' := parserOf [narrowSum, wideSum]
    Choice.Sole [wideSum, narrowSum] narrowSum ∧
    (∃ p₂, Parser.bindDraft sumDraft {} p =
      (some (.apply ⟨.add, "+", narrowSum, .leaf "int", []⟩ sumDraft.children), p₂)) ∧
    BoundAlike sumDraft sumDraft p p' (Parser.bindDraft sumDraft {} p)
      (Parser.bindDraft sumDraft {} p') := by
  intro p p'
  have hfaces : ∀ actions, (parserOf actions).store.tuple? ⟨0, 0⟩ = some (tableOf actions) →
      (parserOf actions).store.rootOf ⟨0, 0⟩ = ⟨0, 0⟩ →
      sumDraft.Faces (parserOf actions) sumDraft (parserOf actions) (tableOf actions) := by
    intro actions htable hroot
    refine ⟨by decide, rfl, ?_, .foldl (.empty rfl rfl rfl rfl) _⟩
    rw [show (parserOf actions).scope = ⟨0, 0⟩ from rfl, hroot, htable]
  have hsole : Choice.Sole [wideSum, narrowSum] narrowSum := by
    refine ⟨⟨by simp, ?_⟩, ?_⟩
    · intro d hd hne
      obtain rfl : d = wideSum := by simpa [hne] using hd
      decide
    · rintro b ⟨hb, hrefines⟩
      by_contra hne
      obtain rfl : b = wideSum := by simpa [hne] using hb
      have := hrefines narrowSum (by simp) (Ne.symm hne)
      revert this
      decide
  obtain ⟨hexact, hfree⟩ := overload_choice_is_exact_and_order_free
    (hfaces [wideSum, narrowSum] rfl rfl) {}
  refine ⟨hsole, ((hexact (List.cons_ne_nil _ _)).1 narrowSum (.tail _ (.head _))).mpr hsole, ?_⟩
  exact hfree (hfaces [narrowSum, wideSum] rfl rfl) (.swap _ _ _) ⟨rfl, rfl, rfl, rfl⟩

end Draft

end TupleLang
