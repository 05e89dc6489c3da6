import TupleLang.Proofs.Effect

/-!
# Handles on one place

Several cells may be handles on one storage place, and each of them has a type of its own. A cell is
*readable* when every native type that its type admits can be read from the place. Storing a native
value checks the type and keeps all handles on the place readable. Assigning a cell to another does
not: the value goes to the place of the target, for all handles on it, while the type changes in the
target alone. The cells of a family stay readable as long as every assignment brings a type that
suits the other handles on the target's place (`cells_stay_readable`). Otherwise one of those
handles cannot be read as what its type says (`assignment_through_alias_leaves_owner_unreadable`).
-/

namespace TupleLang

/-! ## Native types of a logical type -/

namespace Native

/-- All native types are listed. -/
theorem mem_all (n : Native) : n ∈ all := by
  cases n <;> decide

@[simp] theorem hinted?_default (n : Native) : n.hinted? .default = some n.typeName := by
  cases n <;> rfl

/-- The logical type that a hint selects is read with the native type that the hint was for. -/
theorem eq_of_hinted? {m n : Native} {hint : Hint} {name : String}
    (hhint : n.hinted? hint = some name) (hm : m.accepts name) : m = n := by
  -- a finite table: the hints, the native types and the names that each hint selects
  have htable : ∀ n ∈ all, ∀ name ∈ n.hinted? hint, ∀ m ∈ all, m.accepts name → m = n := by
    cases hint <;> decide +kernel
  exact htable n n.mem_all name hhint m m.mem_all hm

/-- The word for the stored form stands for the native type. -/
theorem ofKindName?_wrap (n : Native) (v : n.Carrier) :
    ofKindName? (n.wrap v).kindName = some n := by
  cases n <;> rfl

/-- The stored form tells the native types apart. -/
theorem eq_of_wrap_eq {m n : Native} {v : m.Carrier} {w : n.Carrier} (h : m.wrap v = n.wrap w) :
    m = n := by
  have hword := m.ofKindName?_wrap v
  rw [h, n.ofKindName?_wrap w] at hword
  exact (Option.some.inj hword).symm

end Native

namespace Cell

variable {h : Heap} {c : Cell}

/-- Whatever native type the cell's type admits, the place holds such a value, and it is read. -/
def Readable (h : Heap) (c : Cell) : Prop :=
  ∀ n, c.admits n → ∃ v, c.value h = n.wrap v ∧ c.read h n = .ok v

/-- What is read is what the place holds. -/
theorem readable_iff : c.Readable h ↔ ∀ n, c.admits n → ∃ v, c.value h = n.wrap v := by
  refine ⟨fun hc n hn => (hc n hn).imp fun v hv => hv.1, fun hc n hn => ?_⟩
  obtain ⟨v, hv⟩ := hc n hn
  refine ⟨v, hv, ?_⟩
  simp only [read, checkType, hn, if_true, hv, Native.unwrap?_wrap]
  rfl

/-- A readable cell of another type on another place with the same value. -/
theorem Readable.congr {h' : Heap} {d : Cell} (hc : c.Readable h) (htype : d.type = c.type)
    (hvalue : d.value h' = c.value h) : d.Readable h' := by
  rw [readable_iff] at hc ⊢
  intro n hn
  rw [hvalue]
  exact hc n (by rwa [admits, ← htype])

/-- Native types that two readable handles on one place admit are the same. -/
theorem Readable.native_unique {d : Cell} {m n : Native} (hc : c.Readable h) (hd : d.Readable h)
    (hloc : d.loc = c.loc) (hm : d.admits m) (hn : c.admits n) : m = n := by
  obtain ⟨v, hv, -⟩ := hd m hm
  obtain ⟨w, hw, -⟩ := hc n hn
  refine Native.eq_of_wrap_eq (v := v) (w := w) ?_
  rw [← hv, ← hw, value, value, hloc]

/-- A native value is overwritten where the type admits it. -/
theorem overwrite_eq_ok {h' : Heap} {n : Native} {v : n.Carrier}
    (hok : c.overwrite h n v = .ok h') : c.admits n ∧ h' = h.put c.loc (n.wrap v) := by
  simp only [overwrite, read, checkType, bind, Except.bind] at hok
  split at hok
  · cases hok
  · split at hok
    · cases hok
    · rename_i hread
      split at hread
      · cases hread
      · rename_i hcheck
        split at hcheck
        · cases hok
          exact ⟨‹_›, rfl⟩
        · cases hcheck

end Cell

/-! ## Families of cells -/

/-- Cells and the heap that they are handles on. -/
structure CellFamily where
  heap : Heap := {}
  cells : List Cell := []

/-- What can be done with the cells of a family. Cells are named by their positions. -/
inductive CellCall where
  | ofNative (n : Native) (v : n.Carrier)
  | hinted (n : Native) (v : n.Carrier) (hint : Hint)
  | void
  | duplicate (i : Nat)
  | borrow (i : Nat)
  | cloneInto (source target : Nat)
  | set (i : Nat) (n : Native) (v : n.Carrier)
  | overwrite (i : Nat) (n : Native) (v : n.Carrier)

namespace CellFamily

/-- What is left of an outcome that is not an error. -/
theorem eq_ok_of_toOption {α : Type} {x : Except Error α} {a : α} (h : x.toOption = some a) :
    x = .ok a := by
  cases x with
  | error e => cases h
  | ok b =>
    cases h
    rfl

/-- The family with one more cell. -/
def push (f : CellFamily) (new : Cell × Heap) : CellFamily := ⟨new.2, f.cells ++ [new.1]⟩

/-- The family after a call, if that is not refused. -/
def call? (f : CellFamily) : CellCall → Option CellFamily
  | .ofNative n v => some (f.push (Cell.ofNative f.heap n v))
  | .hinted n v hint => (Cell.hinted f.heap n v hint).toOption.map f.push
  | .void => some (f.push (Cell.void f.heap))
  | .duplicate i => f.cells[i]?.map fun c => f.push (c.duplicate f.heap)
  | .borrow i => f.cells[i]?.map fun c => f.push (c.borrow, f.heap)
  | .cloneInto source target => do
    let c ← f.cells[source]?
    let t ← f.cells[target]?
    let (t, heap) ← (c.cloneInto f.heap t).toOption
    return ⟨heap, f.cells.set target t⟩
  | .set i n v => do
    let c ← f.cells[i]?
    let heap ← (c.set f.heap n v).toOption
    return { f with heap }
  | .overwrite i n v => do
    let c ← f.cells[i]?
    let heap ← (c.overwrite f.heap n v).toOption
    return { f with heap }

/-- The family after a call; one that is refused changes nothing. -/
def step (f : CellFamily) (call : CellCall) : CellFamily := (f.call? call).getD f

/-- The family that calls lead to from none. -/
def run (calls : List CellCall) : CellFamily := calls.foldl step {}

/-- Every other handle on the place that the call assigns to suits the type that it brings: what may
be read through the handle may be read from the source. -/
def Minds (f : CellFamily) : CellCall → Prop
  | .cloneInto source target => ∀ c t, f.cells[source]? = some c → f.cells[target]? = some t →
      ∀ k d, k ≠ target → f.cells[k]? = some d → d.loc = t.loc → ∀ n, d.admits n → c.admits n
  | _ => True

/-- All cells are readable handles on existing places and let themselves be written. -/
structure Sound (f : CellFamily) : Prop where
  inBounds : ∀ c ∈ f.cells, c.loc < f.heap.values.size
  writable : ∀ c ∈ f.cells, c.lockedBy = none
  readable : ∀ c ∈ f.cells, c.Readable f.heap

namespace Sound

variable {f f' : CellFamily} {c t : Cell} {call : CellCall}

/-- A new cell that holds what its type says. -/
theorem push_make (h : f.Sound) {type : TypeDesc} {value : Value}
    (hnew : ∀ n : Native, type.leafName?.any n.accepts → ∃ v, value = n.wrap v) :
    (f.push (Cell.make f.heap type value)).Sound := by
  have hsize : (Cell.make f.heap type value).2.values.size = f.heap.values.size + 1 := by
    simp [Cell.make, Heap.alloc]
  refine ⟨fun d hd => ?_, fun d hd => ?_, fun d hd => ?_⟩
  all_goals
    simp only [push, List.mem_append, List.mem_singleton] at hd
  · rcases hd with hd | rfl
    · exact (h.inBounds d hd).trans_le (by simp [push, hsize])
    · simp [push, Cell.make, Heap.alloc]
  · rcases hd with hd | rfl
    · exact h.writable d hd
    · rfl
  · rcases hd with hd | rfl
    · -- a new place leaves the values at the others
      exact (h.readable d hd).congr rfl (Heap.get_alloc_of_lt value (h.inBounds d hd))
    · refine Cell.readable_iff.mpr fun n hn => ?_
      obtain ⟨v, rfl⟩ := hnew n hn
      exact ⟨v, Heap.get_alloc_self f.heap _⟩

/-- A new cell for a native value, under the type that a hint selects. -/
theorem push_hinted (h : f.Sound) {n : Native} {hint : Hint} {name : String}
    (hname : n.hinted? hint = some name) (v : n.Carrier) :
    (f.push (Cell.make f.heap (.leaf name) (n.wrap v))).Sound := by
  refine h.push_make fun m hm => ?_
  obtain rfl := Native.eq_of_hinted? hname hm
  exact ⟨v, rfl⟩

/-- Another handle on the place of a cell. -/
theorem push_borrow (h : f.Sound) (hc : c ∈ f.cells) : (f.push (c.borrow, f.heap)).Sound := by
  refine ⟨fun d hd => ?_, fun d hd => ?_, fun d hd => ?_⟩
  all_goals
    simp only [push, List.mem_append, List.mem_singleton] at hd
    rcases hd with hd | rfl
  · exact h.inBounds d hd
  · exact h.inBounds c hc
  · exact h.writable d hd
  · exact h.writable c hc
  · exact h.readable d hd
  · exact (h.readable c hc).congr rfl rfl

/-- Writing a value to a place that suits every handle on it. -/
theorem put (h : f.Sound) {loc : Nat} {value : Value}
    (hvalue : ∀ d ∈ f.cells, d.loc = loc → ∀ n, d.admits n → ∃ v, value = n.wrap v) :
    ({ f with heap := f.heap.put loc value } : CellFamily).Sound := by
  refine ⟨fun d hd => ?_, h.writable, fun d hd => ?_⟩
  · simpa [Heap.put] using h.inBounds d hd
  · by_cases hloc : d.loc = loc
    · subst hloc
      refine Cell.readable_iff.mpr fun n hn => ?_
      rw [Cell.value, Heap.get_put_self value (h.inBounds d hd)]
      exact hvalue d hd rfl n hn
    · exact (h.readable d hd).congr rfl (Heap.get_put_of_ne value hloc)

/-- Storing a native value that the type of one handle admits suits all others on the place. -/
theorem write (h : f.Sound) (hc : c ∈ f.cells) {n : Native} (hn : c.admits n) (v : n.Carrier) :
    ({ f with heap := f.heap.put c.loc (n.wrap v) } : CellFamily).Sound := by
  -- both handles can be read now, so that they admit one native type between them
  refine h.put fun d hd hloc m hm => ?_
  obtain rfl := (h.readable c hc).native_unique (h.readable d hd) hloc hm hn
  exact ⟨v, rfl⟩

/-- Assigning a cell to another is never refused: it changes the place of the target, and its type.
-/
theorem call?_cloneInto (h : f.Sound) {source target : Nat} (hc : f.cells[source]? = some c)
    (ht : f.cells[target]? = some t) :
    f.call? (.cloneInto source target) =
      some ⟨f.heap.put t.loc (c.value f.heap), f.cells.set target { t with type := c.type }⟩ := by
  have hwritable := h.writable t (List.mem_of_getElem? ht)
  have hassign : c.cloneInto f.heap t =
      .ok ({ t with type := c.type }, f.heap.put t.loc (c.value f.heap)) :=
    Cell.replace_eq_ok_iff.mpr ⟨hwritable, rfl, rfl⟩
  simp [call?, hc, ht, hassign, Except.toOption]

/-- Assigning a cell to another, where its type suits the other handles on the target's place. -/
theorem cloneInto (h : f.Sound) {source target : Nat} (hc : f.cells[source]? = some c)
    (ht : f.cells[target]? = some t) (hminds : f.Minds (.cloneInto source target)) :
    (⟨f.heap.put t.loc (c.value f.heap), f.cells.set target { t with type := c.type }⟩ :
      CellFamily).Sound := by
  have hsource := Cell.readable_iff.mp (h.readable c (List.mem_of_getElem? hc))
  have hbound := h.inBounds t (List.mem_of_getElem? ht)
  have hheld : (f.heap.put t.loc (c.value f.heap)).get t.loc = c.value f.heap :=
    Heap.get_put_self _ hbound
  -- the target is the only handle whose type changes
  have hmem : ∀ d ∈ f.cells.set target { t with type := c.type },
      d = { t with type := c.type } ∨ ∃ k, k ≠ target ∧ f.cells[k]? = some d := by
    intro d hd
    obtain ⟨k, hk⟩ := List.mem_iff_getElem?.mp hd
    rw [List.getElem?_set] at hk
    by_cases htarget : target = k
    · rw [if_pos htarget] at hk
      split at hk
      · exact .inl (Option.some.inj hk).symm
      · cases hk
    · rw [if_neg htarget] at hk
      exact .inr ⟨k, Ne.symm htarget, hk⟩
  refine ⟨fun d hd => ?_, fun d hd => ?_, fun d hd => ?_⟩
  · rw [show (f.heap.put t.loc (c.value f.heap)).values.size = f.heap.values.size by
      simp [Heap.put]]
    rcases hmem d hd with rfl | ⟨k, -, hd⟩
    · exact hbound
    · exact h.inBounds d (List.mem_of_getElem? hd)
  · rcases hmem d hd with rfl | ⟨k, -, hd⟩
    · exact h.writable t (List.mem_of_getElem? ht)
    · exact h.writable d (List.mem_of_getElem? hd)
  · rcases hmem d hd with rfl | ⟨k, hk, hd⟩
    · -- the target has the type of the source along with its value
      exact (h.readable c (List.mem_of_getElem? hc)).congr rfl hheld
    · by_cases hloc : d.loc = t.loc
      · -- another handle on the place keeps its type, which the source suits
        refine Cell.readable_iff.mpr fun n hn => ?_
        rw [Cell.value, hloc, hheld]
        exact hsource n (hminds c t hc ht k d hk hd hloc n hn)
      · exact (h.readable d (List.mem_of_getElem? hd)).congr rfl (Heap.get_put_of_ne _ hloc)

/-- Every call that minds the other handles leads on to a sound family. -/
theorem step (h : f.Sound) (hminds : f.Minds call) : (f.step call).Sound := by
  unfold CellFamily.step
  cases hcall : f.call? call with
  | none => exact h
  | some f' =>
    rw [Option.getD_some]
    cases call with
    | ofNative n v =>
      cases hcall
      exact h.push_hinted n.hinted?_default v
    | hinted n v hint =>
      cases hname : n.hinted? hint with
      | none => simp [call?, Cell.hinted, hname, Except.toOption] at hcall
      | some name =>
        simp only [call?, Cell.hinted, hname, Except.toOption, Option.map_some,
          Option.some.injEq] at hcall
        subst hcall
        exact h.push_hinted hname v
    | void =>
      -- no native type is read from a cell without a value
      cases hcall
      refine h.push_make fun n hn => ?_
      cases n <;> simp [TypeDesc.leafName?, Native.accepts, Native.typeName] at hn
    | duplicate i =>
      -- a new place with the value of the old one, under the same type
      obtain ⟨c, hc, rfl⟩ := Option.map_eq_some_iff.mp hcall
      exact h.push_make (Cell.readable_iff.mp (h.readable c (List.mem_of_getElem? hc)))
    | borrow i =>
      obtain ⟨c, hc, rfl⟩ := Option.map_eq_some_iff.mp hcall
      exact h.push_borrow (List.mem_of_getElem? hc)
    | cloneInto source target =>
      obtain ⟨c, hc, hrest⟩ := Option.bind_eq_some_iff.mp hcall
      obtain ⟨t, ht, -⟩ := Option.bind_eq_some_iff.mp hrest
      rw [h.call?_cloneInto hc ht] at hcall
      cases hcall
      exact h.cloneInto hc ht hminds
    | set i n v =>
      obtain ⟨c, hc, hcall⟩ := Option.bind_eq_some_iff.mp hcall
      obtain ⟨heap, hset, hcall⟩ := Option.bind_eq_some_iff.mp hcall
      cases hcall
      obtain ⟨-, hn, rfl⟩ := Cell.set_eq_ok_iff.mp (eq_ok_of_toOption hset)
      exact h.write (List.mem_of_getElem? hc) hn v
    | overwrite i n v =>
      obtain ⟨c, hc, hcall⟩ := Option.bind_eq_some_iff.mp hcall
      obtain ⟨heap, hset, hcall⟩ := Option.bind_eq_some_iff.mp hcall
      cases hcall
      obtain ⟨hn, rfl⟩ := Cell.overwrite_eq_ok (eq_ok_of_toOption hset)
      exact h.write (List.mem_of_getElem? hc) hn v

/-- A call that does not mind the other handles, though it brings a native type, leaves one of them
that cannot be read as what its type says. -/
theorem not_readable_of_not_minds (h : f.Sound) {source target : Nat}
    (hc : f.cells[source]? = some c) (hnative : ∃ n, c.admits n)
    (hminds : ¬f.Minds (.cloneInto source target)) :
    ∃ d ∈ (f.step (.cloneInto source target)).cells,
      ¬d.Readable (f.step (.cloneInto source target)).heap := by
  simp only [Minds, not_forall] at hminds
  obtain ⟨c', t, hc', ht, k, d, hk, hd, hloc, n, hn, hnot⟩ := hminds
  rw [hc] at hc'
  cases hc'
  rw [CellFamily.step, h.call?_cloneInto hc ht, Option.getD_some]
  refine ⟨d, ?_, fun hreadable => ?_⟩
  · exact List.mem_of_getElem? (i := k) (by rw [List.getElem?_set_ne hk.symm, hd])
  · -- the place now holds a value of the source's native type, which the handle does not admit
    obtain ⟨m, hm⟩ := hnative
    obtain ⟨v, hv, -⟩ := h.readable c (List.mem_of_getElem? hc) m hm
    obtain ⟨w, hw, -⟩ := hreadable n hn
    rw [Cell.value, hloc, Heap.get_put_self _ (h.inBounds t (List.mem_of_getElem? ht)), hv] at hw
    obtain rfl := Native.eq_of_wrap_eq hw
    exact hnot hm

end Sound

/-! ## Runs -/

/-- Every call of the list minds the other handles on the place that it assigns to. -/
inductive Mindful : List CellCall → Prop
  | nil : Mindful []
  | concat {calls : List CellCall} {call : CellCall} :
      Mindful calls → (run calls).Minds call → Mindful (calls ++ [call])

/-- One more call is one more step. -/
theorem run_concat (calls : List CellCall) (call : CellCall) :
    run (calls ++ [call]) = (run calls).step call := by
  rw [run, List.foldl_append]
  rfl

/-- Calls that mind the other handles lead to sound families. -/
theorem Mindful.sound {calls : List CellCall} (h : Mindful calls) : (run calls).Sound := by
  induction h with
  | nil => exact ⟨by simp [run], by simp [run], by simp [run]⟩
  | concat _ hminds ih =>
    rw [run_concat]
    exact ih.step hminds

/-- As long as no assignment brings a cell's place a type that does not suit the other handles on
it, every cell can be read as what its type says. An assignment of a native value that does not mind
this ends it. -/
theorem cells_stay_readable {calls : List CellCall} (h : Mindful calls) :
    (∀ c ∈ (run calls).cells, c.Readable (run calls).heap) ∧
      ∀ source target c, (run calls).cells[source]? = some c → (∃ n, c.admits n) →
        ((run calls).Minds (.cloneInto source target) ↔
          ∀ d ∈ (run (calls ++ [.cloneInto source target])).cells,
            d.Readable (run (calls ++ [.cloneInto source target])).heap) := by
  refine ⟨h.sound.readable, fun source target c hc hnative => ?_⟩
  rw [run_concat]
  constructor
  · exact fun hminds => (h.sound.step hminds).readable
  · intro hreadable
    by_contra hminds
    obtain ⟨d, hd, hnot⟩ := h.sound.not_readable_of_not_minds hc hnative hminds
    exact hnot (hreadable d hd)

/-- A number is assigned through another handle on the place of a number: the first cell reads it. A
text that was assigned instead would leave a cell that cannot be read. -/
theorem cells_stay_readable_number :
    let calls : List CellCall :=
      [.ofNative .int 1, .borrow 0, .ofNative .int 5, .cloneInto 2 1, .ofNative .text "x"]
    Mindful calls ∧
      (∃ c, (run calls).cells[0]? = some c ∧ c.read (run calls).heap .int = .ok (5 : Int32)) ∧
      ∃ d ∈ (run (calls ++ [.cloneInto 3 1])).cells,
        ¬d.Readable (run (calls ++ [.cloneInto 3 1])).heap := by
  intro calls
  have hfirst : Mindful [.ofNative .int 1] := .concat .nil trivial
  have hborrowed : Mindful [.ofNative .int 1, .borrow 0] := .concat hfirst trivial
  have hmade : Mindful [.ofNative .int 1, .borrow 0, .ofNative .int 5] :=
    .concat hborrowed trivial
  have hcalls : Mindful calls := by
    refine .concat (hmade.concat ?_) trivial
    -- the assignment is the only call that has others to mind, and all cells are of numbers
    have htypes : ∀ d ∈ (run [.ofNative .int 1, .borrow 0, .ofNative .int 5]).cells,
        d.type = .leaf "int" := by decide
    intro c t hc _ k d _ hd _ n hn
    rw [Cell.admits, htypes d (List.mem_of_getElem? hd)] at hn
    rwa [Cell.admits, htypes c (List.mem_of_getElem? hc)]
  obtain ⟨-, hexact⟩ := cells_stay_readable hcalls
  refine ⟨hcalls, ⟨_, rfl, rfl⟩, ?_⟩
  -- a text does not suit the first cell, which is another handle on the place
  by_contra hall
  push Not at hall
  have hminds := (hexact 3 1 _ rfl ⟨.text, rfl⟩).mpr hall
  exact absurd (hminds _ _ rfl rfl 0 _ (by decide) rfl rfl .int rfl) (by decide)

/-- A text is assigned through a handle on the place of a number: the cell that owns the place is
still one of a number, but it cannot be read as such. -/
theorem assignment_through_alias_leaves_owner_unreadable :
    let f := run [.ofNative .int 1, .borrow 0, .ofNative .text "x", .cloneInto 2 1]
    ∃ c ∈ f.cells, c.type = .leaf "int" ∧ c.owned ∧ c.admits .int ∧
      c.read f.heap .int = .error (.wrongType "int" (.leaf "int")) ∧ ¬c.Readable f.heap := by
  intro f
  have hread : (⟨.leaf "int", 0, true, none⟩ : Cell).read f.heap .int =
      .error (.wrongType "int" (.leaf "int")) := rfl
  refine ⟨⟨.leaf "int", 0, true, none⟩, List.mem_cons_self, rfl, rfl, rfl, hread, ?_⟩
  intro hreadable
  obtain ⟨v, -, hv⟩ := hreadable .int rfl
  rw [hread] at hv
  cases hv

end CellFamily

end TupleLang
