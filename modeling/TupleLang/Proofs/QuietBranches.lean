import TupleLang.Proofs.Tasks
import TupleLang.Proofs.Temporaries

/-!
# Branches that assign to nothing

Evaluating a tree without assignments, and without bodies of the host, only takes new places: every
value stays where it is (`Node.Quiet.grows`). So a conditional is decided if its branches are such
trees, whatever else goes on around it (`Task.decided_of_quietBranches`).
-/

namespace TupleLang

namespace Store

variable {h : Heap} {w : Unit} {E : Error → Prop}

/-- Stores that have all values of the heap where it has them. -/
def growing (h : Heap) : Regime Store where
  World := Unit
  Later _ _ := True
  refl _ := trivial
  trans _ _ := trivial
  Holds _ s := h.Grows s.heap

theorem keeps_newCell_growing (type : TypeDesc) (v : Value) :
    (growing h).Keeps w (StoreM.newCell type v) (fun _ _ => True) E := fun _ _ s hs =>
  .onHeap ⟨(), trivial, Heap.Grows.trans hs (Cell.grows_make s.heap type v), trivial⟩

/-- What leaves the heap as it is. -/
theorem moves_growing {f : Store → Store} (hf : ∀ s, (f s).heap = s.heap) :
    (growing h).Moves w f := by
  intro _ _ s hs
  refine ⟨(), trivial, ?_⟩
  change h.Grows (f s).heap
  rw [hf s]
  exact hs

/-- Tuples are built and copied in new places. -/
def growingCopying (h : Heap) : TupleLang.Copying (growing h) where
  CellOk _ _ := True
  Open _ _ := True
  cell_lasts _ _ := trivial
  open_lasts _ _ := trivial
  owned _ _ _ := trivial
  insert hs _ _ _ _ := ⟨(), trivial, hs⟩
  adopt _ parent child _ _ := moves_growing fun s => heap_adopt s parent child
  destroy _ id _ := moves_growing fun s => (sameButArena_destroyWithin _ s id).heap
  SourceOk _ _ := True
  source_lasts _ _ := trivial
  entries _ _ _ _ := trivial
  create _ _ _ _ := fun _ _ _ hs => .change ⟨(), trivial, hs, trivial⟩
  reborrow := by
    intro _ c _ _ _ s hs
    refine .onHeap ⟨(), trivial, ?_, trivial⟩
    unfold Cell.reborrow
    split
    · exact Heap.Grows.trans hs (Cell.grows_make s.heap c.type (c.value s.heap))
    · exact hs
  shared _ _ := trivial
  scalar {_ s c} hs _ _ := keeps_newCell_growing (w := ()) (E := Error.OfBuilding) c.type
    (c.value s.heap) () trivial s hs
  tuple _ _ _ _ _ := keeps_newCell_growing _ _

/-- A body that assigns to nothing takes new places only. -/
def growingActing (h : Heap) : Acting (growing h) where
  toCopying := growingCopying h
  Apt b := b.isQuiet
  ValueOk _ _ := True
  value_lasts _ _ := trivial
  source _ := trivial
  own _ _ := trivial
  void _ := keeps_newCell_growing _ _
  native _ _ _ := keeps_newCell_growing _ _
  unary _ _ := keeps_newCell_growing _ _
  binary _ _ := keeps_newCell_growing _ _
  compound hquiet := nomatch hquiet
  assign hquiet := nomatch hquiet
  construct _ _ _ := keeps_newCell_growing _ _

/-- Evaluation without assignments. -/
def growingEvaluating (h : Heap) (host : Host) : Evaluating (growing h) host where
  LeafOk _ _ := True
  ValueOk _ _ := True
  Bound b := b.action.body.isQuiet
  leaf_lasts _ _ := trivial
  value_lasts _ _ := trivial
  yield {_ c} _ := .yieldCell (fun _ _ => trivial) fun _ _ _ s hs _ =>
    keeps_newCell_growing (w := ()) c.type (c.value s.heap) () trivial s hs
  void _ := keeps_newCell_growing _ _
  apply hquiet _ := (growingActing h).apply hquiet
    (fun label hlabel => by rw [hlabel] at hquiet; cases hquiet) host _ fun _ _ => trivial

end Store

variable {host : Host} {node : Node} {t u : Task}

/-- Without assignments, every value stays where it is. -/
theorem Node.Quiet.grows (h : node.Quiet) (host : Host) (d : Nat) (s : Store) :
    s.heap.Grows ((node.evaluate host d).after s).heap := by
  have hkeeps := (Store.growingEvaluating s.heap host).evaluate (w := ()) h d
  obtain ⟨_, -, hgrows⟩ := (hkeeps () trivial s (.refl _)).after
  exact hgrows

/-- The branches of conditionals assign to nothing. -/
def Node.QuietBranches : Node → Prop :=
  Node.Each fun b children => b.op.isConditional = true → ∀ n ∈ children.tail, n.Quiet

/-- What such branches do does not change what a condition reads. -/
theorem Task.decided_of_quietBranches (h : t.node.QuietBranches) : t.Decided host := by
  intro x truth u htakes y s' hrun
  cases htakes with | @intro b c t branch e d s s₁ _ _ hop _ _ hread hchosen =>
  cases h with | apply hquiet _ =>
  have hbranch : branch.Quiet := hquiet hop branch (Node.mem_of_chosen? hchosen)
  -- the branch has only made new places, so the condition still reads as it did
  have hgrows := hbranch.grows host (d + 1) (s₁.atBranch truth)
  simp only [run] at hrun
  simp only [StoreM.after, hrun] at hgrows
  refine Cell.read_grows hread (.trans ?_ hgrows)
  cases truth with
  | true => exact .refl _
  | false => exact Cell.grows_make s₁.heap .void .void

/-- No conditional changes its condition if the branches of conditionals assign to nothing. -/
theorem Expression.Visits.decided {e : Expression} {s : Store} (h : e.Visits host s t)
    (he : ∀ n ∈ e.roots, n.QuietBranches) : t.Decided host :=
  Task.decided_of_quietBranches (h.each he)

end TupleLang
