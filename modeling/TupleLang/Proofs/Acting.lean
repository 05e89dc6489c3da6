import TupleLang.Proofs.Building
import TupleLang.Proofs.Effect
import TupleLang.Proofs.Evaluation

/-!
# What bodies of actions keep

Bodies read their operands, make cells for results, write to places and build tuples. `Acting R`
says what these steps keep, in the words of a regime: which cells bodies may be given, and that
their results may be given to others. Then every body keeps the regime (`Acting.effect`), and so
does every action that is not the host's (`Acting.apply`).
-/

namespace TupleLang

/-- What a regime has to offer for bodies to keep it. -/
structure Acting (R : Regime Store) extends Copying R where
  /-- The bodies in question. -/
  Apt : Body → Prop
  /-- The cells that bodies are given, and that they hand on. -/
  ValueOk : R.World → Cell → Prop
  value_lasts : ∀ {v w c}, R.Later v w → ValueOk v c → ValueOk w c
  source : ∀ {w c}, ValueOk w c → SourceOk w c
  own : ∀ {w c}, ValueOk w c → c.owned = true → CellOk w c
  void : ∀ w, R.Keeps w StoreM.newVoid ValueOk fun _ => True
  native : ∀ w (n : Native) (v : n.Carrier), R.Keeps w (StoreM.newNative n v) ValueOk fun _ => True
  unary : ∀ {w a r type f}, Apt (.unary a r type f) → ∀ v : r.Carrier,
    R.Keeps w (StoreM.newCell (.leaf type) (r.wrap v)) ValueOk fun _ => True
  binary : ∀ {w a b r type f}, Apt (.binary a b r type f) → ∀ v : r.Carrier,
    R.Keeps w (StoreM.newCell (.leaf type) (r.wrap v)) ValueOk fun _ => True
  compound : ∀ {w a b f c}, Apt (.compound a b f) → ValueOk w c → ∀ v : a.Carrier,
    R.Keeps w (StoreM.write c a v) (fun _ _ => True) fun _ => True
  assign : ∀ {w x y}, Apt .assign → ValueOk w x → ValueOk w y →
    R.Keeps w (Body.assignCell x y) ValueOk fun _ => True
  construct : ∀ {w names id}, Apt (.construct names) → Open w id → ∀ type,
    R.Keeps w (StoreM.newCell type (.tuple id)) ValueOk fun _ => True

namespace Acting

variable {R : Regime Store} (A : Acting R) {w : R.World} {cells : List Cell}

/-- A new cell is the result. -/
theorem result {m : StoreM Cell} (signal : Signal) (hm : R.Keeps w m A.ValueOk fun _ => True) :
    R.Keeps w (do return (signal, ← m)) (fun v r => A.ValueOk v r.2) fun _ => True :=
  .bind hm fun _ _ _ hc => .pure fun _ hu => A.value_lasts hu hc

/-- An operand is the result. -/
theorem operand (signal : Signal) {c : Cell} (hc : A.ValueOk w c) :
    R.Keeps w (pure (signal, c) : StoreM (Signal × Cell)) (fun v r => A.ValueOk v r.2)
      fun _ => True :=
  .pure fun _ hv => A.value_lasts hv hc

/-- Raising a condition keeps what holds if its name may be a value. -/
theorem raised (condition : String) :
    R.Keeps w (Body.raised condition) (fun v r => A.ValueOk v r.2) fun _ => True :=
  A.result _ (A.native _ .name condition)

/-- So does completing a computation if its result may be a value. -/
theorem complete {type : String} {n : Native}
    (hnew : ∀ u (v : n.Carrier), R.Keeps u (StoreM.newCell (.leaf type) (n.wrap v)) A.ValueOk
      fun _ => True) (result : Except Condition n.Carrier) :
    R.Keeps w (Body.complete type n result) (fun v r => A.ValueOk v r.2) fun _ => True := by
  cases result with
  | ok v => exact A.result _ (hnew _ v)
  | error condition => exact A.raised _

/-- A condition picks a branch, or a new cell takes its place. -/
theorem pick (truth : Bool) (hcells : ∀ c ∈ cells, A.ValueOk w c) :
    R.Keeps w (Body.pick truth cells) A.ValueOk fun _ => True := by
  unfold Body.pick
  split
  · rename_i c hc
    refine .pure fun _ hv => A.value_lasts hv (hcells c ?_)
    split at hc <;> exact List.mem_of_getElem? hc
  · exact A.void _

/-- Operands that belong to something else are copied, so that all may be put into a tuple. -/
theorem ownOperands {entries : List (Option String × Cell)}
    (hentries : ∀ p ∈ entries, A.ValueOk w p.2) :
    R.Keeps w (Body.ownOperands entries) (fun v entries => ∀ p ∈ entries, A.CellOk v p.2)
      fun _ => True := by
  induction entries generalizing w with
  | nil => exact .pure fun _ _ p hp => by simp at hp
  | cons entry rest ih =>
    obtain ⟨name, cell⟩ := entry
    have hcell := hentries _ List.mem_cons_self
    -- the first operand is its own or a copy; what follows does not care which
    have hrest : ∀ (cell' : Cell) v, R.Later w v → A.CellOk v cell' →
        R.Keeps v (do return (name, cell') :: (← Body.ownOperands rest))
          (fun v entries => ∀ p ∈ entries, A.CellOk v p.2) fun _ => True := by
      intro cell' v hv hcell'
      refine .bind (ih fun p hp => ?_) fun entries' u hu hentries' => .pure fun x hx p hp => ?_
      · exact A.value_lasts hv (hentries p (List.mem_cons_of_mem _ hp))
      · rcases List.mem_cons.mp hp with rfl | hp
        · exact A.cell_lasts (R.trans hu hx) hcell'
        · exact A.cell_lasts hx (hentries' p hp)
    refine .ite (fun howned => .bind (.pure fun v hv => ?_) hrest) fun _ => .bind ?_ hrest
    · exact A.own (A.value_lasts hv hcell) howned
    · exact (A.duplicate (A.source hcell)).mono (fun _ _ _ h => h.1) fun _ _ => trivial

/-- A tuple is built from operands. -/
theorem built {names : List (Option String)} (h : A.Apt (.construct names))
    (hcells : ∀ c ∈ cells, A.ValueOk w c) (name : String) :
    R.Keeps w ((Body.construct names).effect name cells) (fun v r => A.ValueOk v r.2)
      fun _ => True := by
  refine .ite (fun _ => ?_) fun _ => .throw trivial
  refine .bind (A.ownOperands fun p hp => hcells p.2 ?_) fun entries v _ hentries => ?_
  · exact List.mem_of_mem_take (List.mem_reverse.mp (List.of_mem_zip hp).2)
  · refine .get_bind fun u hu s _ => ?_
    have hbuilt := A.createFrom (A.create u .plain {} (some s.root))
      fun p hp => A.cell_lasts hu (hentries p hp)
    refine .bind (hbuilt.mono (fun _ _ _ h => h) fun _ _ => trivial) fun id x _ hid => ?_
    refine .get_bind fun y hy _ _ =>
      .andThen (.ofExcept (fun _ _ _ _ => trivial) fun _ _ => trivial)
      fun type z hz => A.result _ ?_
    exact A.construct h (A.open_lasts (R.trans hy hz) hid) type

/-- A body keeps the regime, and its result may be given to others. -/
theorem effect (name : String) {body : Body} (h : A.Apt body)
    (hcells : ∀ c ∈ cells, A.ValueOk w c) :
    R.Keeps w (body.effect name cells) (fun v r => A.ValueOk v r.2) fun _ => True := by
  -- what is read depends on the store, and the store does not change
  have hlooks : ∀ {α : Type} {x : Store → Except Error α} {n : Native} (f : α → n.Carrier),
      R.Keeps w (do
        let a ← StoreM.ofExcept (x (← get))
        return (Signal.normal, ← StoreM.newNative n (f a))) (fun v r => A.ValueOk v r.2)
        fun _ => True := fun f =>
    .get_bind fun _ _ _ _ => .andThen (.ofExcept (fun _ _ _ _ => trivial) fun _ _ => trivial)
      fun a v _ => A.result _ (A.native v _ (f a))
  cases body with
  | unary a r type f =>
    rcases cells with _ | ⟨x, cells⟩
    · exact .throw trivial
    · exact .andThen (.read _ _) fun _ _ _ => A.complete (fun _ => A.unary h) _
  | binary a b r type f =>
    rcases cells with _ | ⟨y, _ | ⟨x, cells⟩⟩
    · exact .throw trivial
    · exact .throw trivial
    · exact .andThen (.read _ _) fun _ _ _ => .andThen (.read _ _) fun _ _ _ =>
        A.complete (fun _ => A.binary h) _
  | compound a b f =>
    rcases cells with _ | ⟨y, _ | ⟨x, cells⟩⟩
    · exact .throw trivial
    · exact .throw trivial
    · have hx := hcells x (by simp)
      refine .andThen (.read _ _) fun _ v hv => .andThen (.read _ _) fun _ u hu => ?_
      have hx := A.value_lasts (R.trans hv hu) hx
      split
      · exact .andThen (A.compound h hx _) fun _ _ hz => A.operand _ (A.value_lasts hz hx)
      · exact A.raised _
  | assign =>
    rcases cells with _ | ⟨y, _ | ⟨x, cells⟩⟩
    · exact .throw trivial
    · exact .throw trivial
    · exact A.result _ (A.assign h (hcells x (by simp)) (hcells y (by simp)))
  | choose =>
    simp only [Body.effect]
    cases hreverse : cells.reverse with
    | nil => exact .throw trivial
    | cons condition branches =>
      refine .andThen (.read _ _) fun truth v hv => A.result _ (A.pick truth fun c hc => ?_)
      exact A.value_lasts hv (hcells c (List.mem_reverse.mp
        (hreverse ▸ List.mem_cons_of_mem _ hc)))
  | typeTest expected =>
    rcases cells with _ | ⟨y, _ | ⟨x, cells⟩⟩
    · exact .throw trivial
    · exact .throw trivial
    · exact .andThen (.read _ _) fun _ v _ => A.result _ (A.native v .bool _)
  | returns =>
    rcases cells with _ | ⟨x, cells⟩
    · exact .throw trivial
    · exact A.operand _ (hcells x (by simp))
  | raises =>
    rcases cells with _ | ⟨x, cells⟩
    · exact .throw trivial
    · exact .andThen (.read _ _) fun _ _ _ => A.raised _
  | signal s =>
    rcases cells with _ | ⟨x, cells⟩
    · exact A.result _ (A.void w)
    · exact A.operand _ (hcells x (by simp))
  | textOf =>
    rcases cells with _ | ⟨x, cells⟩
    · exact .throw trivial
    · exact hlooks (n := .text) id
  | length =>
    rcases cells with _ | ⟨x, cells⟩
    · exact .throw trivial
    · exact hlooks (n := .unsigned) UInt64.ofNat
  | typeOf =>
    rcases cells with _ | ⟨x, cells⟩
    · exact .throw trivial
    · exact A.result _ (A.native w .type _)
  | construct names => exact A.built h hcells name
  | host label => exact .throw trivial

/-- Applying an action that is not the host's. -/
theorem apply {action : Action} (h : A.Apt action.body)
    (hhost : ∀ label, action.body ≠ .host label) (host : Host) (name : String)
    (hcells : ∀ c ∈ cells, A.ValueOk w c) :
    R.Keeps w (action.apply host name cells) (fun v r => A.ValueOk v r.2) fun _ => True := by
  rw [Action.apply_eq hhost]
  exact A.effect name h fun c hc => hcells c (List.mem_reverse.mp hc)

end Acting

end TupleLang
