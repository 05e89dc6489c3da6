import Mathlib
import TupleLang.Expr.Bind

/-!
# Trees all of whose parts are good

`Node.Forms Leaf Bound` says of a tree that its leaves have one property and its bindings another.
Binding a draft puts its operands in another order at most, so that a tree is good if its operands
and its binding are.
-/

namespace TupleLang

/-- Every leaf of the tree has the property `Leaf`, and every binding the property `Bound`. -/
inductive Node.Forms (Leaf : Cell → Prop) (Bound : Binding → Prop) : Node → Prop
  | value {cell : Cell} {label : Option String} : Leaf cell → Forms Leaf Bound (.value cell label)
  | apply {binding : Binding} {children : List Node} : Bound binding →
      (∀ n ∈ children, Forms Leaf Bound n) → Forms Leaf Bound (.apply binding children)

namespace Node

variable {Leaf Leaf' : Cell → Prop} {Bound : Binding → Prop} {node : Node}

/-- Weaken what is said about leaves. -/
theorem Forms.mono (h : node.Forms Leaf Bound) (hleaf : ∀ c, Leaf c → Leaf' c) :
    node.Forms Leaf' Bound := by
  induction h with
  | value hcell => exact .value (hleaf _ hcell)
  | apply hbound _ ih => exact .apply hbound ih

/-- A cell of several nodes is a cell of one of them. -/
theorem mem_cellsOf {nodes : List Node} {c : Cell} (h : c ∈ cellsOf nodes) :
    ∃ n ∈ nodes, c ∈ n.cells := by
  induction nodes with
  | nil => simp [cellsOf] at h
  | cons node rest ih =>
    rw [cellsOf, List.mem_append] at h
    rcases h with h | h
    · exact ⟨node, List.mem_cons_self, h⟩
    · obtain ⟨n, hn, hc⟩ := ih h
      exact ⟨n, List.mem_cons_of_mem _ hn, hc⟩

/-- The cells of a tree are its leaves. -/
theorem Forms.cells (h : node.Forms Leaf Bound) : ∀ c ∈ node.cells, Leaf c := by
  induction h with
  | value hcell => simpa [Node.cells] using hcell
  | apply _ _ ih =>
    intro c hc
    rw [Node.cells] at hc
    obtain ⟨n, hn, hc⟩ := mem_cellsOf hc
    exact ih n hn c hc

end Node

/-- A bound node has operands of its draft only. -/
theorem Draft.forms_bound {Leaf : Cell → Prop} {Bound : Binding → Prop} {draft : Draft}
    {action : Action} {owner args : TypeDesc} (hchildren : ∀ n ∈ draft.children, n.Forms Leaf Bound)
    (hbound : ∀ argNames, Bound ⟨draft.op, draft.name, action,
      action.signature.resolveReturn owner args, argNames⟩) :
    (draft.bound action owner args).Forms Leaf Bound := by
  unfold Draft.bound
  dsimp only
  refine .apply (hbound _) fun n hn => hchildren n ?_
  -- the order of declaration only picks among the children
  split at hn
  · split at hn
    · simp only [Draft.declaredOrder, List.mem_map, List.mem_filterMap] at hn
      obtain ⟨⟨n, name⟩, ⟨p, -, hlookup⟩, rfl⟩ := hn
      obtain ⟨before, after, hslots, -⟩ := List.lookup_eq_some_iff.mp hlookup
      have hmem := hslots ▸ List.mem_append_right before (List.mem_cons_self (l := after))
      exact (List.of_mem_zip (List.of_mem_zip hmem).2).1
    · exact hn
  · exact hn

end TupleLang
