import TupleLang.Proofs.ParseM
import TupleLang.Proofs.Ownership

/-!
# Linear parsers

A parser is *linear* when it accounts for every cell in its hands: it begins with the cells `pre`,
ends with the cells that its result brings along, and has given all of them up when it fails. Cells
stand for the tuples that they own, so a linear parser neither loses a tuple nor gives one up twice,
and tuples that it does not hold are left as they are.

The rules of this module follow the way parsers are put together. Where a part can fail while its
caller holds cells, `holding` and `holdingCells` give these up (`Linear.holding`).
-/

namespace TupleLang

namespace Node

/-- The cells of several nodes, in no order. -/
def bag (nodes : List Node) : Multiset Cell := (cellsOf nodes : Multiset Cell)

variable (node : Node) (nodes nodes' : List Node)

@[simp] theorem bag_nil : bag [] = 0 := rfl

@[simp] theorem bag_cons : bag (node :: nodes) = (node.cells : Multiset Cell) + bag nodes := rfl

@[simp] theorem cells_literal (cell : Cell) : (literal cell).cells = [cell] := by
  simp [literal, cells]

/-- The bag of a list is the sum of the cells of its nodes. -/
theorem bag_eq_sum : bag nodes = (nodes.map fun n => (n.cells : Multiset Cell)).sum := by
  induction nodes with
  | nil => rfl
  | cons node nodes ih => simp [ih]

@[simp] theorem bag_append : bag (nodes ++ nodes') = bag nodes + bag nodes' := by
  simp [bag_eq_sum]

/-- The order of the nodes does not matter. -/
theorem bag_perm {nodes nodes' : List Node} (h : nodes.Perm nodes') : bag nodes = bag nodes' := by
  rw [bag_eq_sum, bag_eq_sum]
  exact (h.map _).sum_eq

@[simp] theorem bag_reverse : bag nodes.reverse = bag nodes := bag_perm nodes.reverse_perm

/-- The cells of an operator node are those of its operands. -/
@[simp] theorem coe_cells_apply (binding : Binding) :
    ((apply binding nodes).cells : Multiset Cell) = bag nodes := by
  rw [cells, bag]

end Node

namespace Store

variable {s s' s'' : Store} {cells cells' : Multiset Cell} {ids : List TupleId}

/-- From `s`, where `ids` are held, a trade leads to `s'`, where `cells` are held. -/
def Reaches (s : Store) (ids : List TupleId) (s' : Store) (cells : Multiset Cell) : Prop :=
  ∃ ids', s'.Holds cells ids' ∧ s.Trade ids s' ids'

namespace Reaches

/-- What is held is reached without doing anything. -/
protected theorem refl (hs : s.Sound) (h : s.Holds cells ids) : s.Reaches ids s cells :=
  ⟨ids, h, .refl hs ids⟩

/-- Go on from what was reached. -/
theorem andThen (h : s.Reaches ids s' cells)
    (hnext : ∀ ids', s'.Sound → s'.Holds cells ids' → s'.Reaches ids' s'' cells') :
    s.Reaches ids s'' cells' := by
  obtain ⟨ids', hheld, htrade⟩ := h
  obtain ⟨ids'', hheld', htrade'⟩ := hnext ids' htrade.sound hheld
  exact ⟨ids'', hheld', htrade.trans htrade'⟩

/-- What is held besides stays held. -/
theorem frame {i j : List TupleId} {extra : Multiset Cell} (h : s.Reaches i s' cells)
    (hextra : s.Holds extra j) (hperm : ids.Perm (i ++ j)) (hnodup : ids.Nodup) :
    s.Reaches ids s' (cells + extra) := by
  obtain ⟨i', hheld, htrade⟩ := h
  -- the tuples of the frame are none of those that the part works on
  have hdisj : ∀ x ∈ j, x ∉ i := by
    intro x hj hi
    exact (List.nodup_append.mp (hperm.nodup_iff.mp hnodup)).2.2 x hi x hj rfl
  have hkept := hextra.keeps htrade hdisj
  refine ⟨i' ++ j, hheld.add hkept ?_, ?_⟩
  · intro x hi' hj
    obtain ⟨t, ht⟩ := hextra.live x hj
    exact htrade.not_mem_new ht (hdisj x hj) hi'
  · refine (htrade.frame j).congr ?_ ?_
    · intro x
      rw [hperm.mem_iff, List.mem_append, List.mem_append, or_comm]
    · intro x
      rw [List.mem_append, List.mem_append, or_comm]

/-- Held cells can be given up. -/
theorem releaseAll {l : List Cell} (h : s.Reaches ids s' (l + cells)) :
    s.Reaches ids (s'.releaseAll l) cells := by
  refine h.andThen fun ids' hs' hheld => ?_
  obtain ⟨i, j, hperm, hi, hj⟩ := hheld.split
  have htrade := hi.releaseAll hs' rfl
  have hgone : s'.Reaches i (s'.releaseAll l) 0 := by
    refine ⟨[], ?_, htrade⟩
    exact Holds.zero _
  simpa using hgone.frame hj hperm hheld.nodup

/-- A cell without a tuple can be made and held. -/
theorem newCell (hs : s.Sound) (h : s.Holds cells ids) (type : TypeDesc) {v : Value}
    (hv : v.tupleId? = none) :
    s.Reaches ids { s with heap := (Cell.make s.heap type v).2 }
      ((Cell.make s.heap type v).1 ::ₘ cells) := by
  have hgrows := Cell.grows_make s.heap type v
  have htrade : s.Trade ids { s with heap := (Cell.make s.heap type v).2 } ids :=
    { Trade.refl hs ids with
      sound := ⟨hs.arena, hs.root_live⟩
      heap := hgrows }
  -- a new place changes no other, so the cells own what they owned
  have hheld : ({ s with heap := (Cell.make s.heap type v).2 } : Store).Holds cells ids := by
    obtain ⟨l, rfl, hown⟩ := h.owns
    exact ⟨⟨l, rfl, hown.congr (fun _ _ => rfl) hgrows.retains⟩, h.nodup, h.root⟩
  exact ⟨ids, hheld.loose (.inr ⟨v, Cell.stores_make s.heap type v, hv⟩), htrade⟩

end Reaches

end Store

namespace ParseM

variable {α β : Type} {pre pre' : Multiset Cell} {post post' : α → Multiset Cell}

/-- A sequence of two parsers succeeds when both do, one after the other. -/
theorem bind_eq_ok {m : ParseM α} {f : α → ParseM β} {s s'' : ParseState} {b : β} :
    (m >>= f) s = .ok b s'' ↔ ∃ a s', m s = .ok a s' ∧ f a s' = .ok b s'' := by
  change EStateM.bind m f s = .ok b s'' ↔ _
  unfold EStateM.bind
  cases m s with
  | ok a s' => simp
  | error e s' => simp

/-- A parser that cleans up when it fails succeeds as without that. -/
theorem onFailure_eq_ok {m : ParseM α} {f : ParseState → ParseState} {s s' : ParseState} {a : α} :
    onFailure f m s = .ok a s' ↔ m s = .ok a s' := by
  unfold onFailure
  cases m s with
  | ok b t => rfl
  | error e t => exact iff_of_false nofun nofun

/-- Holding nodes changes nothing where the program succeeds. -/
theorem holding_eq_ok {m : ParseM α} {nodes : List Node} {s s' : ParseState} {a : α} :
    holding nodes m s = .ok a s' ↔ m s = .ok a s' :=
  onFailure_eq_ok

/-- All results of the parser have a property. -/
def Ensures (m : ParseM α) (Q : α → Prop) : Prop := ∀ s a s', m s = .ok a s' → Q a

/-- The results of a sequence are those of its last part. -/
theorem Ensures.bind {m : ParseM α} {f : α → ParseM β} {Q : β → Prop}
    (hf : ∀ a, Ensures (f a) Q) : Ensures (m >>= f) Q := by
  intro s b s'' h
  obtain ⟨a, s', -, hb⟩ := bind_eq_ok.mp h
  exact hf a s' b s'' hb

/-- A parser that fails has no results. -/
theorem Ensures.of_fails {m : ParseM α} {Q : α → Prop} (h : ∀ s, ∃ e s', m s = .error e s') :
    Ensures m Q := by
  intro s a s' hrun
  obtain ⟨e, s'', herror⟩ := h s
  simp [herror] at hrun

/-- The parser begins with the cells `pre` in its hands; it ends with `post a` when it gives `a`,
and with nothing when it fails. -/
def Linear (pre : Multiset Cell) (m : ParseM α) (post : α → Multiset Cell) : Prop :=
  ∀ (s : ParseState) (ids : List TupleId), s.store.Sound → s.store.Holds pre ids →
    match m s with
    | .ok a s' => s.store.Reaches ids s'.store (post a)
    | .error _ s' => s.store.Reaches ids s'.store 0

namespace Linear

/-! ## Putting parsers together -/

/-- The same cells in other words. -/
theorem congr {m : ParseM α} (h : Linear pre m post) (hpre : pre' = pre)
    (hpost : ∀ a, post' a = post a) : Linear pre' m post' := by
  have hpost : post' = post := funext hpost
  rw [hpre, hpost]
  exact h

/-- A result with what it brings along. -/
protected theorem pure (a : α) (h : pre = post a) : Linear pre (pure a) post := by
  intro s ids hs hheld
  exact .refl hs (h ▸ hheld)

/-- One parser after the other; `a` is known to be a result of the first. -/
theorem bind_of {m : ParseM α} {f : α → ParseM β} {post' : β → Multiset Cell}
    (hm : Linear pre m post)
    (hf : ∀ a s s', m s = .ok a s' → Linear (post a) (f a) post') :
    Linear pre (m >>= f) post' := by
  intro s ids hs hheld
  have hrun := hm s ids hs hheld
  change match EStateM.bind m f s with
    | .ok b s' => s.store.Reaches ids s'.store (post' b)
    | .error _ s' => s.store.Reaches ids s'.store 0
  unfold EStateM.bind
  cases hres : m s with
  | error e s' =>
    rw [hres] at hrun
    exact hrun
  | ok a s' =>
    rw [hres] at hrun
    -- the second part takes over what the first one has made
    have hnext := hf a s s' hres s'
    dsimp only
    cases hres' : f a s' with
    | ok b s'' =>
      refine hrun.andThen fun ids' hs' hheld' => ?_
      simpa only [hres'] using hnext ids' hs' hheld'
    | error e s'' =>
      refine hrun.andThen fun ids' hs' hheld' => ?_
      simpa only [hres'] using hnext ids' hs' hheld'

/-- One parser after the other. -/
protected theorem bind {m : ParseM α} {f : α → ParseM β} {post' : β → Multiset Cell}
    (hm : Linear pre m post) (hf : ∀ a, Linear (post a) (f a) post') :
    Linear pre (m >>= f) post' :=
  hm.bind_of fun a _ _ _ => hf a

/-- Either of two parsers. -/
protected theorem ite {c : Prop} [Decidable c] {m m' : ParseM α} (h : c → Linear pre m post)
    (h' : ¬c → Linear pre m' post) : Linear pre (if c then m else m') post := by
  split
  · exact h ‹_›
  · exact h' ‹_›

/-- A parser that cannot fail and leaves the store alone keeps everything. -/
theorem idle {m : ParseM α} (h : ∀ s, ∃ a s', m s = .ok a s' ∧ s'.store = s.store) :
    Linear pre m fun _ => pre := by
  intro s ids hs hheld
  obtain ⟨a, s', hrun, hstore⟩ := h s
  rw [hrun]
  dsimp only
  rw [hstore]
  exact .refl hs hheld

/-- Whoever gives cells up when a parser fails may hold them meanwhile. -/
theorem holdingCells {m : ParseM α} (cells : List Cell) (hm : Linear pre m post) :
    Linear (cells + pre) (ParseM.holdingCells cells m) fun a => cells + post a := by
  intro s ids hs hheld
  obtain ⟨i, j, hperm, hi, hj⟩ := hheld.split
  have hrun := hm s j hs hj
  have hperm' : ids.Perm (j ++ i) := hperm.trans List.perm_append_comm
  simp only [ParseM.holdingCells, onFailure]
  cases hres : m s with
  | ok a s' =>
    rw [hres] at hrun
    simpa only [add_comm] using hrun.frame hi hperm' hheld.nodup
  | error e s' =>
    rw [hres] at hrun
    -- the cells are still there when the part has failed, and are given up
    have hkept := hrun.frame hi hperm' hheld.nodup
    rw [add_comm] at hkept
    exact hkept.releaseAll

/-- Whoever gives nodes up when a parser fails may hold them meanwhile. -/
theorem holding {m : ParseM α} (nodes : List Node) (hm : Linear pre m post) :
    Linear (Node.bag nodes + pre) (ParseM.holding nodes m) fun a => Node.bag nodes + post a :=
  holdingCells (Node.cellsOf nodes) hm

end Linear

/-! ## Failing -/

/-- The parser fails and gives up the cells `pre`. -/
def Fails (pre : Multiset Cell) (m : ParseM α) : Prop :=
  ∀ (s : ParseState) (ids : List TupleId), s.store.Sound → s.store.Holds pre ids →
    ∃ e s', m s = .error e s' ∧ s.store.Reaches ids s'.store 0

namespace Fails

/-- A parser that fails is linear, whatever its result would be. -/
theorem linear {m : ParseM α} (h : Fails pre m) : Linear pre m post := by
  intro s ids hs hheld
  obtain ⟨e, s', hrun, hreach⟩ := h s ids hs hheld
  rw [hrun]
  exact hreach

/-- Whoever holds nothing may fail. -/
protected theorem throw (e : ParseFailure) : Fails 0 (throw e : ParseM α) :=
  fun s _ hs hheld => ⟨e, s, rfl, .refl hs hheld⟩

/-- Whoever holds nothing may complain. -/
theorem complain (message : String) (span : Span) :
    Fails 0 (ParseM.complain message span : ParseM α) :=
  .throw _

/-- Whoever holds nothing may complain about the current token. -/
theorem complainHere (message : String) : Fails 0 (ParseM.complainHere message : ParseM α) :=
  fun s _ hs hheld => ⟨_, s, rfl, .refl hs hheld⟩

/-- Whoever holds nothing may complain about too many levels. -/
theorem tooDeep (what : String) : Fails 0 (ParseM.tooDeep what : ParseM α) :=
  fun s _ hs hheld => ⟨_, s, rfl, .refl hs hheld⟩

/-- A failure gives up the cells that are held around it. -/
theorem holdingCells {m : ParseM α} (cells : List Cell) (hm : Fails pre m) :
    Fails (cells + pre) (ParseM.holdingCells cells m) := by
  intro s ids hs hheld
  obtain ⟨i, j, hperm, hi, hj⟩ := hheld.split
  obtain ⟨e, s', hrun, hreach⟩ := hm s j hs hj
  refine ⟨e, { s' with store := s'.store.releaseAll cells }, ?_, ?_⟩
  · simp [ParseM.holdingCells, onFailure, hrun]
  · have hkept := hreach.frame hi (hperm.trans List.perm_append_comm) hheld.nodup
    rw [add_comm] at hkept
    exact hkept.releaseAll

/-- A failure gives up the nodes that are held around it. -/
theorem holding {m : ParseM α} (nodes : List Node) (hm : Fails pre m) :
    Fails (Node.bag nodes + pre) (ParseM.holding nodes m) :=
  holdingCells (Node.cellsOf nodes) hm

end Fails

namespace Linear

/-! ## Tokens and the store -/

/-- Moving the cursor after a failure changes nothing that is held. -/
theorem onFailure_cursor {m : ParseM α} (f : Cursor → Cursor) (hm : Linear pre m post) :
    Linear pre (onFailure (fun s => { s with cursor := f s.cursor }) m) post := by
  intro s ids hs hheld
  have hrun := hm s ids hs hheld
  unfold onFailure
  cases hres : m s with
  | ok a s' => simpa only [hres] using hrun
  | error e s' => simpa only [hres] using hrun

/-- Looking at the token in front holds what is held. -/
theorem current : Linear pre ParseM.current fun _ => pre := idle fun _ => ⟨_, _, rfl, rfl⟩

/-- So does looking further ahead. -/
theorem peek (offset : Nat) : Linear pre (ParseM.peek offset) fun _ => pre :=
  idle fun _ => ⟨_, _, rfl, rfl⟩

/-- So does moving the cursor on. -/
theorem advance (n : Nat) : Linear pre (ParseM.advance n) fun _ => pre :=
  idle fun _ => ⟨_, _, rfl, rfl⟩

/-- So does moving the cursor to a position. -/
theorem seek (position : Nat) : Linear pre (ParseM.seek position) fun _ => pre :=
  idle fun _ => ⟨_, _, rfl, rfl⟩

/-- So does asking for the position. -/
theorem position : Linear pre ParseM.position fun _ => pre := idle fun _ => ⟨_, _, rfl, rfl⟩

/-- So does asking how many rounds are left. -/
theorem rounds : Linear pre ParseM.rounds fun _ => pre := idle fun _ => ⟨_, _, rfl, rfl⟩

/-- So does asking for the store. -/
theorem store : Linear pre ParseM.store fun _ => pre := idle fun _ => ⟨_, _, rfl, rfl⟩

/-- Cells in hand can be given up. -/
theorem releaseAll (cells : List Cell) :
    Linear (cells + pre) (changeStore (·.releaseAll cells)) fun _ => pre :=
  fun _ _ hs hheld => (Store.Reaches.refl hs hheld).releaseAll

/-- A cell that owns nothing can be had for nothing. -/
theorem pure_borrowed (a : α) {c : Cell} (hc : c.owned = false) (hpost : post a = c ::ₘ pre) :
    Linear pre (pure a) post := by
  intro s ids hs hheld
  refine .refl hs ?_
  rw [hpost]
  exact hheld.loose (.inl hc)

/-- A cell without a tuple can be made while others are held. -/
theorem newCell (type : TypeDesc) {v : Value} (hv : v.tupleId? = none) :
    Linear pre (onStore (StoreM.newCell type v)) fun c => c ::ₘ pre :=
  fun _ _ hs hheld => .newCell hs hheld type hv

/-- A cell for a native value can be made while others are held. -/
theorem newNative (n : Native) (v : n.Carrier) :
    Linear pre (onStore (StoreM.newNative n v)) fun c => c ::ₘ pre :=
  newCell (.leaf n.typeName) (by cases n <;> rfl)

end Linear

end ParseM

end TupleLang
