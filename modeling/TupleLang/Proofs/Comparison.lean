import TupleLang.Proofs.Operands
import TupleLang.Proofs.Relations
import TupleLang.Proofs.Seclusion

/-!
# Relations by way of the comparison

A relational operator without an action for its operands is made from their three-way comparison:
`a < b` becomes `(a <=> b) < 0`. The node that it is bound to evaluates `a` and `b` as the operator
would, each once and `a` first, and compares them. Whatever of this fails or ends with a signal ends
the whole in the same way. Otherwise the integer that the comparison gives is related to zero
(`comparison_rewrite_preserves_meaning`).
-/

namespace TupleLang

namespace Node

/-- The node evaluates `l` and then `r`, applies `compare` to their values, and comes to the
relation of the integer that this gives to zero. What does not end normally ends the node. -/
structure Relates (host : Host) (op : Operator) (compare : Action) (node l r : Node) (d : Nat)
    (s : Store) : Prop where
  left : Interrupts (l.evaluate host (d + 2) s) →
    node.evaluate host d s = l.evaluate host (d + 2) s
  right : ∀ {x s₁}, l.evaluate host (d + 2) s = .ok (.normal, x) s₁ →
    Interrupts (r.evaluate host (d + 2) s₁) →
    node.evaluate host d s = r.evaluate host (d + 2) s₁
  compares : ∀ {x y s₁ s₂}, l.evaluate host (d + 2) s = .ok (.normal, x) s₁ →
    r.evaluate host (d + 2) s₁ = .ok (.normal, y) s₂ →
    Interrupts (compare.apply host Operator.cmp.actionName [x, y] s₂) →
    node.evaluate host d s = compare.apply host Operator.cmp.actionName [x, y] s₂
  relates : ∀ {x y z s₁ s₂ s₃ c}, l.evaluate host (d + 2) s = .ok (.normal, x) s₁ →
    r.evaluate host (d + 2) s₁ = .ok (.normal, y) s₂ →
    compare.apply host Operator.cmp.actionName [x, y] s₂ = .ok (.normal, z) s₃ →
    z.read s₃.heap .int = .ok c → s₃.settings.allows (d + 1) = true →
    ∃ b h, node.evaluate host d s = .ok (.normal, b) { s₃ with heap := h } ∧ s₃.heap.Grows h ∧
      b.type = .leaf "bool" ∧ b.read h .bool = .ok (op.test (Word.compare .int c 0))

variable {host : Host} {op : Operator} {compare : Action} {l r : Node} {d : Nat}
  {s s₁ s₂ : Store} {x y : Cell}

/-- The three-way comparison of two nodes. -/
def compared (compare : Action) (ordering : TypeDesc) (l r : Node) : Node :=
  .apply ⟨.cmp, Operator.cmp.actionName, compare, ordering, []⟩ [l, r]

/-- The relation of two nodes, by way of their three-way comparison and a literal zero. -/
def related (op : Operator) (compare : Action) (ordering : TypeDesc) (l r : Node) (zero : Cell) :
    Node :=
  .apply ⟨op, op.actionName, Builtin.relates op "int" .int (Word.compare .int), .leaf "bool", []⟩
    [compared compare ordering l r, .literal zero]

/-- A comparison evaluates all of its operands. -/
theorem isConditional_of_isRelational (hop : op.isRelational = true) :
    op.isConditional = false := by
  cases op <;> cases hop <;> rfl

section Compared

variable (ordering : TypeDesc) (hd : s.settings.allows d = true)

include hd

/-- If the left operand does not end normally, that is the end of the comparison. -/
theorem compared_left (h : Interrupts (l.evaluate host (d + 1) s)) :
    (compared compare ordering l r).evaluate host d s = l.evaluate host (d + 1) s :=
  evaluate_of_interrupts rfl hd [] evaluateAll_nil h

/-- If the right operand does not end normally, that is the end of the comparison. -/
theorem compared_right (hl : l.evaluate host (d + 1) s = .ok (.normal, x) s₁)
    (h : Interrupts (r.evaluate host (d + 1) s₁)) :
    (compared compare ordering l r).evaluate host d s = r.evaluate host (d + 1) s₁ :=
  evaluate_of_interrupts rfl hd [l]
    (evaluateAll_cons_eq_ready.mpr ⟨x, s₁, [], hl, evaluateAll_nil, rfl⟩) h

/-- Otherwise the ordering is applied to both. -/
theorem compared_ready (hl : l.evaluate host (d + 1) s = .ok (.normal, x) s₁)
    (hr : r.evaluate host (d + 1) s₁ = .ok (.normal, y) s₂) :
    (compared compare ordering l r).evaluate host d s =
      compare.apply host Operator.cmp.actionName [x, y] s₂ :=
  evaluate_of_ready rfl hd (evaluateAll_cons_eq_ready.mpr ⟨x, s₁, [y], hl,
    evaluateAll_cons_eq_ready.mpr ⟨y, s₂, [], hr, evaluateAll_nil, rfl⟩, rfl⟩)

end Compared

/-- A literal that holds no tuple evaluates to a copy of it. -/
theorem evaluate_scalar {v : Value} (hstores : x.Stores s.heap v) (hscalar : v.tupleId? = none)
    (howned : x.owned = true) (hd : s.settings.allows d = true) :
    (literal x).evaluate host d s = .ok (.normal, (Cell.make s.heap x.type v).1)
      { s with heap := (Cell.make s.heap x.type v).2 } := by
  have hnone : x.tupleId? s.heap = none := hstores.tupleId?_eq.trans hscalar
  rw [literal, evaluate]
  simp only [bind, EStateM.bind, checkDepth_of_allows hd, yieldCell, get, getThe, MonadStateOf.get,
    EStateM.get, hnone, Option.isSome_none, Bool.false_eq_true, if_false]
  simp only [StoreM.onHeap, StoreM.change, Cell.reborrow, Cell.duplicate, hstores.value_eq, howned,
    if_true]
  rfl

/-- A binary operator of the language comes to what it computes, in a new place. -/
theorem apply_binary {name owner arg returns label : String} {a b n : Native}
    {f : a.Carrier → b.Carrier → Except Condition n.Carrier} {u : a.Carrier} {v : b.Carrier}
    {w : n.Carrier} (hx : x.read s.heap a = .ok u) (hy : y.read s.heap b = .ok v)
    (hf : f u v = .ok w) :
    (Builtin.binary name owner arg returns a b n f).apply host label [x, y] s =
      .ok (.normal, (Cell.make s.heap (.leaf returns) (n.wrap w)).1)
        { s with heap := (Cell.make s.heap (.leaf returns) (n.wrap w)).2 } := by
  have hbody : ∀ label, (Builtin.binary name owner arg returns a b n f).body ≠ .host label :=
    fun _ => nofun
  rw [Action.apply_eq hbody]
  refine (Body.effect_binary hx hy).trans ?_
  rw [hf]
  rfl

/-- A relational operator of the language comes to a truth value. -/
theorem apply_relates {type : String} {n : Native} {order : n.Carrier → n.Carrier → Ordering}
    {u v : n.Carrier} (hx : x.read s.heap n = .ok u) (hy : y.read s.heap n = .ok v) :
    (Builtin.relates op type n order).apply host op.actionName [x, y] s =
      .ok (.normal, (Cell.make s.heap (.leaf "bool") (.bool (op.test (order u v)))).1)
        { s with heap := (Cell.make s.heap (.leaf "bool") (.bool (op.test (order u v)))).2 } :=
  apply_binary hx hy rfl

/-- The relation by way of the comparison is evaluated as it should be, as long as its zero is out
of reach. -/
theorem relates_related (hhost : host.Discreet) (hop : op.isRelational = true) {loc : Nat}
    (hs : s.Secludes loc (.int 0)) (hl : l.Forms (fun c => c.loc ≠ loc) fun _ => True)
    (hr : r.Forms (fun c => c.loc ≠ loc) fun _ => True) (ordering : TypeDesc)
    (hd : s.settings.allows (d + 1) = true) :
    (related op compare ordering l r { type := .leaf "int", loc }).Relates
      host op compare l r d s := by
  have hd' : s.settings.allows d = true := by
    simp only [Settings.allows, decide_eq_true_eq] at hd ⊢
    omega
  have hcond := isConditional_of_isRelational hop
  -- the comparison is the first operand, and the zero has no effect
  have hfirst : Interrupts ((compared compare ordering l r).evaluate host (d + 1) s) →
      (related op compare ordering l r { type := .leaf "int", loc }).evaluate host d s =
        (compared compare ordering l r).evaluate host (d + 1) s :=
    evaluate_of_interrupts hcond hd' [] evaluateAll_nil
  refine ⟨fun h => ?_, fun hx h => ?_, fun hx hy h => ?_,
    fun {x y z s₁ s₂ s₃ c} hx hy hz hread hd₃ => ?_⟩
  · rw [hfirst (by rwa [compared_left ordering hd h]), compared_left ordering hd h]
  · rw [hfirst (by rwa [compared_right ordering hd hx h]), compared_right ordering hd hx h]
  · rw [hfirst (by rwa [compared_ready ordering hd hx hy]), compared_ready ordering hd hx hy]
  · obtain ⟨hs₁, hxloc⟩ := hs.evaluate hhost hl hx
    obtain ⟨hs₂, hyloc⟩ := hs₁.evaluate hhost hr hy
    obtain ⟨hs₃, -⟩ := hs₂.apply hhost (by simp [hxloc, hyloc]) hz
    have hgrows := Cell.grows_make s₃.heap (.leaf "int") (.int 0)
    have hzero : Cell.read (Cell.make s₃.heap (.leaf "int") (.int 0)).2
        (Cell.make s₃.heap (.leaf "int") (.int 0)).1 .int = .ok (0 : Int32) :=
      Cell.read_make_native s₃.heap .int 0
    have hready := evaluateAll_cons_eq_ready.mpr
      ⟨z, s₃, _, (compared_ready ordering hd hx hy).trans hz,
        evaluateAll_cons_eq_ready.mpr ⟨_, _, [],
          evaluate_scalar (x := { type := .leaf "int", loc }) hs₃.holds rfl rfl hd₃,
          evaluateAll_nil, rfl⟩, rfl⟩
    rw [related, evaluate_of_ready hcond hd' hready]
    exact ⟨_, _, apply_relates (Cell.read_grows hread hgrows) hzero,
      hgrows.trans (Cell.grows_make _ _ _), rfl, Cell.read_make_native _ .bool _⟩

end Node

namespace Draft

variable {op : Operator} {l r : Node} {p : Parser} {t : Tuple}

section Bind

variable {compare : Action}

/-- A relational operator faces the table as it is. -/
theorem faces_ofOperator (hop : op.isRelational = true) (hconsults : p.store.Consults p.scope t) :
    (ofOperator op [l, r]).Faces p (ofOperator op [l, r]) p t := by
  refine ⟨?_, ?_, hconsults⟩
  · rintro (rfl : op = .call)
    cases hop
  · cases op <;> cases hop <;> rfl

/-- A relational operator without an action is bound to the relation of the comparison to a new
zero. -/
theorem bind_related (hconsults : p.store.Consults p.scope t) (hfurnished : t.Furnished)
    (hop : op.isRelational = true)
    (hnone : t.overloads op.actionName l.type (.ofList [r.type]) = [])
    (hcompare : Choice.Sole (t.overloads Operator.cmp.actionName l.type (.ofList [r.type])) compare)
    (hint : compare.signature.resolveReturn l.type (.ofList [r.type]) = .leaf "int") (span : Span) :
    Parser.bindDraft (ofOperator op [l, r]) span p =
      (some (Node.related op compare (.leaf "int") l r
          { type := .leaf "int", loc := p.store.heap.values.size }),
        { p with store.heap := (Cell.make p.store.heap (.leaf "int") (.int 0)).2 }) := by
  have hfaces := faces_ofOperator (l := l) (r := r) hop hconsults
  have htypes : (ofOperator op [l, r]).operandTypes = (l.type, .ofList [r.type]) := by
    rw [operandTypes, if_neg hfaces.noCall]
    rfl
  -- the sole comparison is what the lookup answers
  have hchosen := (Choice.mostSpecific_eq_one_iff hconsults.tabled.nodup_overloads).mpr hcompare
  -- and for the integer it gives, the table has one test of each relation
  have hcomparison : p.store.comparison? p.scope (ofOperator op [l, r]) l.type (.ofList [r.type]) =
      some (compare, .leaf "int", Builtin.relates op "int" .int (Word.compare .int),
        .leaf "bool") := by
    have hrelation := hfurnished.mostSpecific_relates hconsults.tabled hop
    simp only [Store.comparison?, hconsults.operators_eq, hchosen, hint]
    rw [show (ofOperator op [l, r]).name = op.actionName from rfl, hrelation]
    rfl
  have hrelational : (ofOperator op [l, r]).op.isRelational = true := hop
  have hname : (ofOperator op [l, r]).name = op.actionName := rfl
  -- there is no direct overload, so the draft goes by comparison
  rw [hfaces.bind_eq, htypes, hname, hnone]
  simp only [Choice.mostSpecific, hrelational, if_true, hcomparison]
  rw [compared_eq]
  rfl

/-- A relational operator without an action, on operands with a three-way comparison that gives an
integer, is bound to the relation of this integer to zero, at any scope that is furnished with the
relations between integers. A new store is, whatever actions on other types are registered in it.
The zero of the relation is out of reach then, and as long as it is, the node evaluates the operands
and compares them, and passes on what does not end normally (`Node.Relates`).

So whatever integers the comparison gives, the relational operators are in order, and they relate
the operands as the comparison does. The language's own operators are in order as well on every
type. -/
theorem comparison_rewrite_preserves_meaning (hconsults : p.store.Consults p.scope t)
    (hfurnished : t.Furnished) (hop : op.isRelational = true)
    (hnone : t.overloads op.actionName l.type (.ofList [r.type]) = [])
    (hcompare : Choice.Sole (t.overloads Operator.cmp.actionName l.type (.ofList [r.type])) compare)
    (hint : compare.signature.resolveReturn l.type (.ofList [r.type]) = .leaf "int")
    (hplaces : p.store.arena.Every fun t => ∀ e ∈ t.entries, e.cell.loc < p.store.heap.values.size)
    (hl : l.Forms (fun c => c.loc < p.store.heap.values.size) fun _ => True)
    (hr : r.Forms (fun c => c.loc < p.store.heap.values.size) fun _ => True) (span : Span) :
    (∃ node p', Parser.bindDraft (ofOperator op [l, r]) span p = (some node, p') ∧
      p'.store.Secludes p.store.heap.values.size (.int 0) ∧
      ∀ (host : Host) (d : Nat) (s₀ : Store), host.Discreet →
        s₀.Secludes p.store.heap.values.size (.int 0) → s₀.settings.allows (d + 1) = true →
        node.Relates host op compare l r d s₀) ∧
    (∀ (settings : Settings) {actions : List Action},
      (∀ a ∈ actions, a.signature.owner ≠ .leaf "int") →
      let s := actions.foldl Store.define (Store.withSettings settings)
      ∃ t, s.Consults s.root t ∧ t.Furnished) ∧
    (∀ c : Int32, Operator.Trichotomous fun op => op.test (Word.compare .int c 0)) ∧
    (∀ (op : Operator) (o : Ordering),
      op.test (Word.compare .int (Builtin.orderingCode o) 0) = op.test o) ∧
    ∀ e ∈ Builtin.direct, (∀ u v, Operator.Trichotomous fun op => op.test (e.2.2 u v)) ∧
      ∀ op : Operator, op.isRelational = true → ∀ a ∈ Builtin.catalogue, a.name = op.actionName →
        a.signature.owner = .leaf e.1 → ∀ (host : Host) (x y : Cell) (s : Store) (u v),
          x.read s.heap e.2.1 = .ok u → y.read s.heap e.2.1 = .ok v →
          ∃ b h, a.apply host op.actionName [x, y] s = .ok (.normal, b) { s with heap := h } ∧
            b.read h .bool = .ok (op.test (e.2.2 u v)) := by
  refine ⟨⟨_, _,
    bind_related hconsults hfurnished hop hnone hcompare hint span, ?_, ?_⟩,
    Store.furnished_foldl_define, ?_, ?_, ?_⟩
  · -- the zero is in a place no tuple of the store has
    exact Store.secludes_make hplaces _ _
  · intro host d s₀ hhost hs₀ hd
    -- and neither has an operand: their places are older than it
    exact Node.relates_related hhost hop hs₀ (hl.mono fun _ => Nat.ne_of_lt)
      (hr.mono fun _ => Nat.ne_of_lt) _ hd
  · exact fun c => Operator.trichotomous_test _
  · intro op o
    cases o <;> rfl
  · intro e he
    refine ⟨fun u v => Operator.trichotomous_test _, ?_⟩
    intro op hop a ha hname howner host x y s u v hx hy
    -- the direct relations of a type are the tests of its comparison
    obtain rfl := Builtin.eq_relates_of_owner hop he ha hname howner
    exact ⟨_, _, Node.apply_relates hx hy, Cell.read_make_native _ .bool _⟩

end Bind

/-- A three-way comparison of names, by their lengths. -/
def nameCompare : Action :=
  Builtin.threeWay "name" .name fun (a b : String) => compare a.length b.length

/-- A parser in a root scope that knows how to compare names. -/
def nameParser : Parser where
  store :=
    { arena := { slots := #[⟨0, some (tableOf (Builtin.catalogue ++ [nameCompare]))⟩] }
      heap := ⟨#[.name "x", .name "abc"]⟩
      root := ⟨0, 0⟩ }
  scope := ⟨0, 0⟩
  cursor := .ofTokens []

/-- The name in a place. -/
def nameAt (loc : Nat) : Node := .literal { type := .leaf "name", loc }

/-- The parser looks actions up among those of the language and the ordering of names. -/
theorem nameParser_consults :
    nameParser.store.Consults ⟨0, 0⟩ (tableOf (Builtin.catalogue ++ [nameCompare])) := by
  have hregisters := registers_tableOf (Builtin.catalogue ++ [nameCompare])
  have hroot : nameParser.store.tuple? nameParser.store.root =
      some (tableOf (Builtin.catalogue ++ [nameCompare])) := rfl
  exact ⟨(congrArg _ (Store.rootOf_root hroot hregisters.parent)).trans hroot, hregisters.tabled⟩

/-- The only operator that accepts names and goes by one of two names is the comparison. -/
theorem eq_nameCompare {a : Action} {name : String} (hname : name = "<" ∨ name = "<=>")
    (ha : a ∈ (tableOf (Builtin.catalogue ++ [nameCompare])).overloads name (.leaf "name")
      (.ofList [.leaf "name"])) : a = nameCompare := by
  obtain ⟨hmem, htest⟩ := List.mem_filter.mp ha
  obtain ⟨-, rfl, haccepts⟩ := of_decide_eq_true htest
  have hall : (Builtin.catalogue.all fun a => !((a.name == "<" || a.name == "<=>") &&
      a.signature.owner.compatibleWith (.leaf "name"))) = true := by decide +kernel
  rcases (registers_tableOf _).origin a hmem with hnone | hmem
  · simp at hnone
  · rcases List.mem_append.mp hmem with hown | hnew
    · have hno := List.all_eq_true.mp hall a hown
      have howner := (Bool.and_eq_true _ _ |>.mp haccepts).1
      rcases hname with hname | hname <;> simp [hname, howner] at hno
    · exact List.mem_singleton.mp hnew

/-- The ordering of names is the only action for comparing two names. -/
theorem nameCompare_sole :
    Choice.Sole ((tableOf (Builtin.catalogue ++ [nameCompare])).overloads "<=>" (.leaf "name")
      (.ofList [.leaf "name"])) nameCompare := by
  obtain ⟨a, ha, hkey⟩ := (registers_tableOf (Builtin.catalogue ++ [nameCompare])).registered
    nameCompare (.inr (List.mem_append_right _ (List.mem_singleton_self _)))
  have hsignature : a.signature = nameCompare.signature := Signature.key_injective hkey
  have hoverload : a ∈ (tableOf (Builtin.catalogue ++ [nameCompare])).overloads "<=>" (.leaf "name")
      (.ofList [.leaf "name"]) := by
    refine List.mem_filter.mpr ⟨ha, ?_⟩
    rw [Action.name, hsignature]
    decide
  obtain rfl := eq_nameCompare (.inr rfl) hoverload
  refine ⟨⟨hoverload, fun b hb hne => ?_⟩, fun b hb => eq_nameCompare (.inr rfl) hb.mem⟩
  exact absurd (eq_nameCompare (.inr rfl) hb) hne

/-- `x < abc` for names that are compared by their lengths is true. -/
theorem comparison_rewrite_preserves_meaning_names :
    ∃ node p', Parser.bindDraft (ofOperator .lt [nameAt 0, nameAt 1]) {} nameParser =
        (some node, p') ∧
      ∃ b h, node.evaluate .none 1 p'.store = .ok (.normal, b) { p'.store with heap := h } ∧
        b.read h .bool = .ok true := by
  have hregisters := registers_tableOf (Builtin.catalogue ++ [nameCompare])
  have hfurnished := hregisters.furnished rfl (by
    simp [nameCompare, Builtin.threeWay, Builtin.binary, Builtin.operator, Signature.operator,
      Signature.make])
  have hlt : Operator.lt.isRelational = true := rfl
  have hnone : (tableOf (Builtin.catalogue ++ [nameCompare])).overloads Operator.lt.actionName
      (nameAt 0).type (.ofList [(nameAt 1).type]) = [] := by
    refine List.eq_nil_iff_forall_not_mem.mpr fun a ha => ?_
    have hname : a.name = "<" := (of_decide_eq_true (List.mem_filter.mp ha).2).2.1
    rw [eq_nameCompare (.inl rfl) ha] at hname
    exact absurd hname (by decide)
  have hplaces : nameParser.store.arena.Every fun t => ∀ e ∈ t.entries,
      e.cell.loc < nameParser.store.heap.values.size := by
    intro i n t ht e he
    have hentries : t.entries = [] := by
      match i with
      | 0 =>
        obtain ⟨-, htable⟩ := Slot.mk.inj (Option.some.inj ht)
        exact (congrArg Tuple.entries (Option.some.inj htable)).symm.trans hregisters.entries
      | i + 1 => simp [nameParser] at ht
    simp [hentries] at he
  obtain ⟨⟨node, p', hbind, hsecludes, hrelates⟩, -⟩ := comparison_rewrite_preserves_meaning
    nameParser_consults hfurnished hlt hnone nameCompare_sole rfl hplaces
    (.value (Nat.zero_lt_succ 1)) (.value (Nat.one_lt_succ_succ 0)) {}
  have hbound := bind_related nameParser_consults hfurnished hlt hnone nameCompare_sole rfl {}
  obtain ⟨-, rfl⟩ := Prod.mk.inj (hbind.symm.trans hbound)
  -- the two names are copied to new places, compared there, and the result is related to zero
  obtain ⟨b, h, hrun, -, -, hread⟩ := (hrelates .none 1 _ Host.discreet_none hsecludes rfl).relates
    (Node.evaluate_scalar (v := .name "x") rfl rfl rfl rfl)
    (Node.evaluate_scalar (v := .name "abc") rfl rfl rfl rfl)
    (Node.apply_binary rfl rfl rfl) rfl rfl
  exact ⟨node, _, hbind, b, h, hrun, hread⟩

end Draft

end TupleLang
