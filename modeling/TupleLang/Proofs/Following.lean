import TupleLang.Proofs.Balance
import TupleLang.Proofs.Building
import TupleLang.Proofs.Destroy
import TupleLang.Proofs.ParserRegime

/-!
# Parsers follow direct ones

A direct parser (`ParseM`) has no list of errors, no sink and no count of levels. `Parser.Follows`
says that a parser with all of them does what a direct one does: it ends with the same result, store
and cursor; the sink and the count of levels are as before; and it has noted one error if it fails,
the complaint of the direct one, and none otherwise. The levels that are open and those that the
direct parser has left make up the limit of the settings, which parsing does not change.

The rules follow the way parsers are put together. This module goes through the reading of values
and the binding of operators.
-/

namespace TupleLang

/-! ## Parsing keeps the settings -/

namespace Store

/-- The settings stay as they are. -/
def settled (settings : Settings) : Regime Store where
  World := Unit
  Later _ _ := True
  refl _ := trivial
  trans _ _ := trivial
  Holds _ s := s.settings = settings

variable {settings : Settings}

/-- A function that keeps the settings. -/
theorem moves_settled {f : Store → Store} (hf : ∀ s, (f s).settings = s.settings) (w : Unit) :
    (settled settings).Moves w f := fun _ _ s hs => ⟨(), trivial, (hf s).trans hs⟩

/-- Tuples are built of any cells. -/
def settledBuilding (settings : Settings) : Building (settled settings) where
  CellOk _ _ := True
  Open _ _ := True
  cell_lasts _ _ := trivial
  open_lasts _ _ := trivial
  owned _ _ _ := trivial
  insert hs _ _ _ _ := ⟨(), trivial, hs⟩
  adopt w parent child _ _ := moves_settled (fun s => by
    simp only [adopt]
    split <;> rfl) w
  destroy w id _ := moves_settled (fun s => (sameButArena_destroyWithin _ s id).settings) w

/-- Building a tuple keeps the settings. -/
theorem keeps_built_settled (w : Unit) (kind : TupleKind) (parent : Option TupleId)
    (entries : List (Option String × Cell)) :
    (settled settings).Keeps w (do
      let id ← StoreM.createFrom kind parent entries
      let type ← StoreM.ofExcept ((← get).typeOf id)
      StoreM.newCell type (.tuple id)) (fun _ _ => True) fun _ => True := by
  have hcreate : (settled settings).Keeps w (StoreM.change (·.create kind parent))
      (settledBuilding settings).Open Error.OfBuilding :=
    fun _ _ _ hs => .change ⟨(), trivial, hs, trivial⟩
  have hentries : ∀ p ∈ entries, (settledBuilding settings).CellOk w p.2 := fun _ _ => trivial
  -- settings never change, so every part of the construction keeps them
  have hmade := (settledBuilding settings).createFrom hcreate hentries
  refine .andThen (hmade.mono (fun _ _ _ _ => trivial) fun _ _ => trivial) fun id _ _ => ?_
  refine .get_bind fun _ _ s' _ =>
    .andThen (.ofExcept (fun _ _ _ _ => trivial) fun _ _ => trivial) ?_
  exact fun type _ _ => fun _ _ _ hs => .onHeap ⟨(), trivial, hs, trivial⟩

end Store

namespace Parser

variable {α β : Type} {scope : TupleId} {levels errors : Nat} {p : Parser}

/-! ## Following -/

/-- The parser without its bookkeeping. -/
def plain (p : Parser) : ParseState := ⟨p.store, p.cursor⟩

/-- The parser with the store and the cursor that a direct one has come to. -/
def moved (p : Parser) (s : ParseState) : Parser := { p with store := s.store, cursor := s.cursor }

/-- The parser when it has noted a failure. -/
def noted (p : Parser) (e : ParseFailure) : Parser :=
  { p with pending := p.pending ++ [(e.diagnostic.message, e.diagnostic.span)] }

/-- The levels of nesting that are left. -/
def levelsLeft (p : Parser) : Nat := p.store.settings.maxDepth - p.depth

/-- The fuel with which a parser begins a part of a statement. -/
def fuel (p : Parser) : Nat := p.levelsLeft + 1

/-- The parser reads for `scope`, `levels` levels of nesting are left, and `errors` errors are
noted. -/
structure At (scope : TupleId) (levels errors : Nat) (p : Parser) : Prop where
  scope : p.scope = scope
  levels : p.levelsLeft = levels
  errors : p.pending.length = errors

/-- Where the settings are the same, as many levels are left. -/
theorem At.moved (hp : p.At scope levels errors) {s : ParseState}
    (hs : s.store.settings = p.store.settings) : (p.moved s).At scope levels errors :=
  ⟨hp.scope, (congrArg (·.maxDepth - p.depth) hs).trans hp.levels, hp.errors⟩

/-- Every parser reads for its scope. -/
theorem At.self (p : Parser) :
    p.At p.scope p.levelsLeft p.pending.length := ⟨rfl, rfl, rfl⟩

/-- The parser does what the direct parser does, and notes its complaint if it fails. -/
def Follows (scope : TupleId) (levels errors : Nat) (m : StateM Parser (Option α))
    (q : ParseM α) : Prop :=
  ∀ p : Parser, p.At scope levels errors →
    match q p.plain with
    | .ok a s => m p = (some a, p.moved s) ∧ s.store.settings = p.store.settings
    | .error e s => m p = (none, (p.moved s).noted e)

/-- The parser does what the direct parser does, which cannot fail. -/
def Matches (scope : TupleId) (levels errors : Nat) (m : StateM Parser α) (q : ParseM α) : Prop :=
  ∀ p : Parser, p.At scope levels errors → ∃ a s, q p.plain = .ok a s ∧ m p = (a, p.moved s) ∧
    s.store.settings = p.store.settings

/-- The parser notes an error, as the direct parser fails at once. -/
def Notes (m : StateM Parser Unit) (q : ParseM α) : Prop :=
  ∀ p : Parser, ∃ e, q p.plain = .error e p.plain ∧ m p = ((), p.noted e)

/-- A complaint is noted where the program fails with it. -/
theorem notes_complain (message : String) (span : Span) :
    Notes (Parser.complain message span) (ParseM.complain message span : ParseM α) :=
  fun _ => ⟨_, rfl, rfl⟩

/-- So is a complaint about the token in front. -/
theorem notes_complainHere (message : String) :
    Notes (Parser.complainHere message) (ParseM.complainHere message : ParseM α) :=
  fun _ => ⟨_, rfl, rfl⟩

/-- Stalling is noted without a complaint. -/
theorem notes_stall : Notes Parser.stall (throw .stalled : ParseM α) := fun _ => ⟨_, rfl, rfl⟩

/-- What a parser does behind a failure: it gives up nodes, cells, or the rest of the statement. -/
def CleansUp (f : ParseState → ParseState) (m : StateM Parser (Option α)) : Prop :=
  ∀ p : Parser, m p = (none, p.moved (f p.plain))

/-- Nothing to clean up. -/
theorem cleansUp_pure : CleansUp id (pure none : StateM Parser (Option α)) := fun _ => rfl

/-- Nodes are given up. -/
theorem cleansUp_giveUp (nodes : List Node) :
    CleansUp (fun s => { s with store := s.store.releaseNodes nodes })
      (do giveUp nodes; return none : StateM Parser (Option α)) := fun _ => rfl

/-- Cells are given up. -/
theorem cleansUp_giveUpCells (cells : List Cell) :
    CleansUp (fun s => { s with store := s.store.releaseAll cells })
      (do giveUpCells cells; return none : StateM Parser (Option α)) := fun _ => rfl

namespace Notes

variable {m : StateM Parser Unit} {q : ParseM α}

/-- An error is noted, and something is cleaned up behind it. -/
theorem cleaning {f : ParseState → ParseState} {k : StateM Parser (Option α)} (hm : Notes m q)
    (hk : CleansUp f k) : Follows scope levels errors (do m; k) (ParseM.onFailure f q) := by
  intro p _
  obtain ⟨e, hq, hrun⟩ := hm p
  have hmk : (do m; k : StateM Parser (Option α)) p = k (m p).2 := rfl
  rw [ParseM.onFailure, hq, hmk, hrun]
  exact hk (p.noted e)

/-- An error is noted. -/
theorem follows (hm : Notes m q) : Follows scope levels errors (do m; return none) q := by
  intro p _
  obtain ⟨e, hq, hrun⟩ := hm p
  have hmk : (do m; return none : StateM Parser (Option α)) p = (none, (m p).2) := rfl
  rw [hq, hmk, hrun]
  rfl

end Notes

namespace Follows

variable {m m' : StateM Parser (Option α)} {q q' : ParseM α} {k : α → StateM Parser (Option β)}
  {g : α → ParseM β}

/-- A result. -/
protected theorem pure (a : α) : Follows scope levels errors (pure (some a)) (pure a) :=
  fun _ _ => ⟨rfl, rfl⟩

/-- Either of two parsers. -/
protected theorem ite {c : Prop} [Decidable c] (h : c → Follows scope levels errors m q)
    (h' : ¬c → Follows scope levels errors m' q') :
    Follows scope levels errors (if c then m else m') (if c then q else q') := by
  split
  · exact h ‹_›
  · exact h' ‹_›

/-- What a parser does where an earlier one has come to. -/
theorem later (hm : Follows scope levels errors m q) (hp : p.At scope levels errors)
    {s : ParseState}
    (hs : s.store.settings = p.store.settings) :
    match q s with
    | .ok a s' => m (p.moved s) = (some a, p.moved s') ∧ s'.store.settings = p.store.settings
    | .error e s' => m (p.moved s) = (none, (p.moved s').noted e) := by
  have hrun := hm (p.moved s) (hp.moved hs)
  have hplain : (p.moved s).plain = s := rfl
  rw [hplain] at hrun
  cases hq : q s with
  | ok a s' =>
    simp only [hq] at hrun ⊢
    exact ⟨hrun.1, hrun.2.trans hs⟩
  | error e s' =>
    simp only [hq] at hrun ⊢
    exact hrun

/-- What the direct parser reads is read. -/
theorem of_ok (hm : Follows scope levels errors m q) (hp : p.At scope levels errors)
    {s s' : ParseState}
    (hs : s.store.settings = p.store.settings) {a : α} (hq : q s = .ok a s') :
    m (p.moved s) = (some a, p.moved s') ∧ s'.store.settings = p.store.settings := by
  have hrun := hm.later hp hs
  rwa [hq] at hrun

/-- What is read is what the direct parser reads. -/
theorem of_some (hm : Follows scope levels errors m q) (hp : p.At scope levels errors)
    {s : ParseState}
    (hs : s.store.settings = p.store.settings) {a : α} {p' : Parser}
    (hrun : m (p.moved s) = (some a, p')) :
    ∃ s', q s = .ok a s' ∧ p' = p.moved s' := by
  have hlater := hm.later hp hs
  cases hq : q s with
  | ok a' s' =>
    simp only [hq, hrun] at hlater
    obtain ⟨ha, hp'⟩ := Prod.mk.inj hlater.1
    obtain rfl := Option.some.inj ha
    exact ⟨s', rfl, hp'⟩
  | error e s' =>
    simp only [hq, hrun] at hlater
    cases (Prod.mk.inj hlater).1

/-- One parser after the other, where something is known about the result of the first. Behind a
failure the first cleans up. -/
theorem bindKnowing {f : ParseState → ParseState} {Q : α → Prop}
    {k : Option α → StateM Parser (Option β)} (hm : Follows scope levels errors m q)
    (hq : ∀ {s a s'}, q s = .ok a s' → Q a)
    (hsome : ∀ a, Q a → Follows scope levels errors (k (some a)) (g a))
    (hnone : CleansUp f (k none)) :
    Follows scope levels errors (m >>= k) (ParseM.onFailure f q >>= g) := by
  intro p hp
  have hrun := hm p hp
  have hmk : (m >>= k) p = k (m p).1 (m p).2 := rfl
  have hqg : (ParseM.onFailure f q >>= g) p.plain =
      EStateM.bind (ParseM.onFailure f q) g p.plain := rfl
  rw [hmk, hqg, EStateM.bind, ParseM.onFailure]
  cases hres : q p.plain with
  | ok a s =>
    simp only [hres] at hrun ⊢
    obtain ⟨hrun, hsettings⟩ := hrun
    rw [hrun]
    exact (hsome a (hq hres)).later hp hsettings
  | error e s =>
    simp only [hres] at hrun ⊢
    rw [hrun]
    -- the error is noted, and what was held is given up in both parsers
    exact hnone ((p.moved s).noted e)

/-- One parser after the other. Behind a failure the first cleans up. -/
theorem bindCleaning {f : ParseState → ParseState} {k : Option α → StateM Parser (Option β)}
    (hm : Follows scope levels errors m q)
    (hsome : ∀ a, Follows scope levels errors (k (some a)) (g a))
    (hnone : CleansUp f (k none)) :
    Follows scope levels errors (m >>= k) (ParseM.onFailure f q >>= g) :=
  hm.bindKnowing (Q := fun _ => True) (fun _ => trivial) (fun a _ => hsome a) hnone

/-- One parser after the other. -/
protected theorem bind {k : Option α → StateM Parser (Option β)}
    (hm : Follows scope levels errors m q)
    (hsome : ∀ a, Follows scope levels errors (k (some a)) (g a)) (hnone : CleansUp id (k none)) :
    Follows scope levels errors (m >>= k) (q >>= g) := by
  have hq : ParseM.onFailure id q = q := by
    funext s
    unfold ParseM.onFailure
    cases q s <;> rfl
  have hboth := hm.bindCleaning hsome hnone
  rwa [hq] at hboth

/-- Behind a failure nodes are given up. -/
theorem bindHolding {nodes : List Node} {k : Option α → StateM Parser (Option β)}
    (hm : Follows scope levels errors m q)
    (hsome : ∀ a, Follows scope levels errors (k (some a)) (g a))
    (hnone : CleansUp (fun s => { s with store := s.store.releaseNodes nodes }) (k none)) :
    Follows scope levels errors (m >>= k) (ParseM.holding nodes q >>= g) :=
  hm.bindCleaning hsome hnone

end Follows

namespace Matches

variable {m : StateM Parser α} {q : ParseM α}

/-- Go on behind a parser that cannot fail. -/
theorem andThen {k : α → StateM Parser (Option β)} {g : α → ParseM β}
    (hm : Matches scope levels errors m q) (hk : ∀ a, Follows scope levels errors (k a) (g a)) :
    Follows scope levels errors (m >>= k) (q >>= g) := by
  intro p hp
  obtain ⟨a, s, hq, hrun, hsettings⟩ := hm p hp
  have hmk : (m >>= k) p = k (m p).1 (m p).2 := rfl
  have hqg : (q >>= g) p.plain = EStateM.bind q g p.plain := rfl
  rw [hmk, hqg, EStateM.bind, hq, hrun]
  exact (hk a).later hp hsettings

/-- Go on behind a parser that cannot fail, with one that cannot either. -/
theorem next {k : α → StateM Parser β} {g : α → ParseM β} (hm : Matches scope levels errors m q)
    (hk : ∀ a, Matches scope levels errors (k a) (g a)) : Matches scope levels errors (m >>= k)
    (q >>= g) := by
  intro p hp
  obtain ⟨a, s, hq, hrun, hsettings⟩ := hm p hp
  obtain ⟨b, s', hg, hrun', hsettings'⟩ := hk a (p.moved s) (hp.moved hsettings)
  refine ⟨b, s', ?_, ?_, hsettings'.trans hsettings⟩
  · change EStateM.bind q g p.plain = _
    rw [EStateM.bind, hq]
    exact hg
  · change k (m p).1 (m p).2 = _
    rw [hrun]
    exact hrun'

/-- Giving a result. -/
protected theorem pure (a : α) : Matches scope levels errors (pure a) (pure a) :=
  fun _ _ => ⟨_, _, rfl, rfl, rfl⟩

/-- Either of two parsers. -/
protected theorem ite {c : Prop} [Decidable c] {m' : StateM Parser α} {q' : ParseM α}
    (h : c → Matches scope levels errors m q) (h' : ¬c → Matches scope levels errors m' q') :
    Matches scope levels errors (if c then m else m') (if c then q else q') := by
  split
  · exact h ‹_›
  · exact h' ‹_›

/-- Where the direct parser cannot fail, nothing is cleaned up. -/
protected theorem onFailure {f : ParseState → ParseState} (hm : Matches scope levels errors m q) :
    Matches scope levels errors m (ParseM.onFailure f q) := by
  intro p hp
  obtain ⟨a, s, hq, hrun⟩ := hm p hp
  exact ⟨a, s, by rw [ParseM.onFailure, hq], hrun⟩

/-- A parser that cannot fail always gives something. -/
theorem some {k : α → β} (hm : Matches scope levels errors m q) :
    Follows scope levels errors (do return Option.some (k (← m))) (do return k (← q)) :=
  hm.andThen fun a => .pure (k a)

end Matches

/-! ## Tokens and the store -/

/-- Looking at the token in front. -/
theorem matches_current : Matches scope levels errors current ParseM.current :=
  fun _ _ => ⟨_, _, rfl, rfl, rfl⟩

/-- Looking further ahead. -/
theorem matches_peek (offset : Nat) :
    Matches scope levels errors (peek offset) (ParseM.peek offset) :=
  fun _ _ => ⟨_, _, rfl, rfl, rfl⟩

/-- Moving the cursor on. -/
theorem matches_advance (n : Nat) : Matches scope levels errors (advance n) (ParseM.advance n) :=
  fun _ _ => ⟨_, _, rfl, rfl, rfl⟩

/-- Asking how many rounds are left. -/
theorem matches_rounds : Matches scope levels errors rounds ParseM.rounds :=
  fun _ _ => ⟨_, _, rfl, rfl, rfl⟩

/-- A place to go back to, with the errors noted there. -/
theorem follows_mark {k : Mark → StateM Parser (Option α)} {g : Nat → ParseM α}
    (h : ∀ position, Follows scope levels errors (k ⟨position, errors⟩) (g position)) :
    Follows scope levels errors (mark >>= k) (ParseM.position >>= g) := by
  rintro p ⟨hscope, hlevels, rfl⟩
  exact h p.cursor.pos p ⟨hscope, hlevels, rfl⟩

/-- Where no errors have been noted since, going back only moves the cursor. -/
theorem matches_rewind (position : Nat) :
    Matches scope levels errors (rewind ⟨position, errors⟩) (ParseM.seek position) := by
  rintro p ⟨-, -, rfl⟩
  refine ⟨(), _, rfl, ?_, rfl⟩
  change ((),
    { p with cursor := p.cursor.seek position, pending := p.pending.take p.pending.length }) = _
  rw [List.take_length]
  rfl

/-- Giving up nodes keeps the settings. -/
theorem matches_giveUp (nodes : List Node) :
    Matches scope levels errors (giveUp nodes)
    (ParseM.changeStore (·.releaseNodes nodes)) := fun _ _ =>
  ⟨_, _, rfl, rfl, (Store.sameButArena_releaseAll _ _).settings⟩

/-- Giving up one node. -/
theorem matches_giveUp_singleton (node : Node) :
    Matches scope levels errors (giveUp [node]) (ParseM.changeStore (·.releaseNode node)) := by
  have hone : ∀ s : Store, s.releaseNodes [node] = s.releaseNode node := fun s =>
    congrArg s.releaseAll (List.append_nil node.cells)
  simpa only [hone] using matches_giveUp [node]

/-- A new cell. -/
theorem matches_newCell (make : Heap → Cell × Heap) :
    Matches scope levels errors (newCell make) (ParseM.onStore (StoreM.onHeap make)) :=
  fun _ _ => ⟨_, _, rfl, rfl, rfl⟩

/-- An operation on the store that succeeds. -/
theorem onStore_of_ok {m : StoreM α} {a : α} {store : Store} (h : m p.store = .ok a store) :
    onStore m p = (some a, { p with store }) := by
  unfold onStore
  simp only [bind, StateT.bind, get, getThe, MonadStateOf.get, StateT.get, pure, h]
  rfl

/-- An operation on the store that fails. -/
theorem onStore_of_error {m : StoreM α} {e : Error} {store : Store}
    (h : m p.store = .error e store) :
    onStore m p = (none,
      { p with store, pending := p.pending ++ [(e.message, p.cursor.current.span)] }) := by
  unfold onStore
  simp only [bind, StateT.bind, get, getThe, MonadStateOf.get, StateT.get, pure, h]
  rfl

/-- An operation on the store, which keeps the settings. -/
theorem follows_onStore {m : StoreM α}
    (hm : ∀ settings, (Store.settled settings).Keeps () m (fun _ _ => True) fun _ => True) :
    Follows scope levels errors (onStore m) (ParseM.onStore m) := by
  intro p _
  have hkeeps := hm _ () trivial p.store rfl
  unfold Regime.Leads at hkeeps
  unfold ParseM.onStore
  cases hres : m p.store with
  | ok a store =>
    rw [hres] at hkeeps
    obtain ⟨_, _, hsettings, _⟩ := hkeeps
    rw [onStore_of_ok hres, show m p.plain.store = _ from hres]
    exact ⟨rfl, hsettings⟩
  | error e store =>
    -- the message is noted at the same token
    rw [onStore_of_error hres, show m p.plain.store = _ from hres]
    rfl

/-- Look at the store. -/
theorem follows_get {k : Parser → StateM Parser (Option α)} {g : Store → ParseM α}
    (h : ∀ p : Parser, p.scope = scope → Follows scope levels errors (k p) (g p.store)) :
    Follows scope levels errors (get >>= k) (ParseM.store >>= g) := fun p hp => h p hp.scope p hp

/-- Asking for the store. -/
theorem matches_get {k : Parser → StateM Parser α} {g : Store → ParseM α}
    (h : ∀ p : Parser, p.scope = scope → Matches scope levels errors (k p) (g p.store)) :
    Matches scope levels errors (get >>= k) (ParseM.store >>= g) := fun p hp => h p hp.scope p hp

/-! ## Levels -/

/-- One level deeper. -/
def deepened (p : Parser) : Parser := { p with depth := p.depth + 1 }

/-- One level up again. -/
def raised (p : Parser) : Parser := { p with depth := p.depth - 1 }

/-- What is a level deeper runs if the limit allows the level. -/
theorem deeper_run (m t : StateM Parser (Option α)) (p : Parser) :
    deeper m t p =
      let run := if p.store.settings.allows (p.depth + 1) then m p.deepened else t p.deepened
      (run.1, run.2.raised) := by
  change (if p.store.settings.allows (p.depth + 1) then _ else _ : StateM Parser (Option α))
    p.deepened = _
  split <;> rfl

/-- A parser that runs one level deeper has one level less. -/
theorem follows_deeper {m t : StateM Parser (Option α)} {q : ParseM α}
    (hm : Follows scope levels errors m q) : Follows scope (levels + 1) errors (deeper m t) q := by
  intro p hp
  have hlevels : p.store.settings.maxDepth - p.depth = _ := hp.levels
  -- as long as levels are left, the settings allow one more
  have hallows : p.store.settings.allows (p.depth + 1) = true := by
    simp only [Settings.allows, decide_eq_true_eq]
    omega
  have hrun := hm p.deepened ⟨hp.scope, by
    change p.store.settings.maxDepth - (p.depth + 1) = levels
    omega, hp.errors⟩
  have hplain : p.deepened.plain = p.plain := rfl
  rw [hplain] at hrun
  rw [deeper_run, if_pos hallows]
  cases hq : q p.plain with
  | ok a s =>
    simp only [hq] at hrun ⊢
    rw [hrun.1]
    exact ⟨rfl, hrun.2⟩
  | error e s =>
    simp only [hq] at hrun ⊢
    rw [hrun]
    rfl

/-- Where no levels are left, a parser that should run one level deeper is replaced. -/
theorem follows_deeper_zero {m t : StateM Parser (Option α)} {q : ParseM α}
    (ht : ∀ p : Parser, ∃ e s, q p.plain = .error e s ∧ t p = (none, (p.moved s).noted e)) :
    Follows scope 0 errors (deeper m t) q := by
  intro p hp
  have hlevels : p.store.settings.maxDepth - p.depth = _ := hp.levels
  -- no level is left, so the settings refuse one more
  have hallows : ¬p.store.settings.allows (p.depth + 1) = true := by
    simp only [Settings.allows, decide_eq_true_eq]
    omega
  obtain ⟨e, s, hq, hrun⟩ := ht p.deepened
  have hplain : p.deepened.plain = p.plain := rfl
  rw [hplain] at hq
  rw [deeper_run, if_neg hallows, hq, hrun]
  rfl

/-! ## Types -/

/-- Reading the name of a field. -/
theorem matches_fieldName : Matches scope levels errors fieldName TypeReader.name := by
  refine matches_current.next fun token => (matches_peek 1).next fun next => ?_
  exact .ite (fun _ => (matches_advance 2).next fun _ => .pure _) fun _ => .pure none

/-- Reading an element of a type. -/
theorem follows_typeElement {nested : StateM Parser (Option TypeDesc)} {direct : ParseM TypeDesc}
    (hnested : Follows scope levels errors nested direct) :
    Follows scope levels errors (typeElement nested) (TypeReader.element direct) := by
  refine matches_current.andThen fun token => ?_
  cases token.kind with
  | lparen | typeOpen => exact (matches_advance 1).andThen fun _ => hnested
  | ident | voidWord => exact (matches_advance 1).andThen fun _ => .pure _
  | _ => exact (notes_complain _ _).follows

/-- Reading the fields of a type. -/
theorem follows_typeFields {nested : StateM Parser (Option TypeDesc)} {direct : ParseM TypeDesc}
    (hnested : Follows scope levels errors nested direct) (rounds : Nat)
    (fields : List TypeDesc.Field)
    (comma : Bool) : Follows scope levels errors (typeFields nested rounds fields comma)
      (TypeReader.elements direct rounds fields comma) := by
  induction rounds generalizing fields comma with
  | zero => exact notes_stall.follows
  | succ rounds ih =>
    unfold typeFields TypeReader.elements
    refine matches_current.andThen fun token => .ite (fun _ => ?_) fun _ => ?_
    · exact (matches_advance 1).andThen fun _ => .pure _
    · refine matches_fieldName.andThen fun name => ?_
      refine (follows_typeElement hnested).bind (fun type => ?_) cleansUp_pure
      refine matches_current.andThen fun token => ?_
      cases token.kind with
      | comma => exact (matches_advance 1).andThen fun _ => ih _ _
      | rparen => exact (matches_advance 1).andThen fun _ => .pure _
      | _ => exact (notes_complainHere _).follows

/-- Reading a type. -/
theorem follows_typeBody (levels : Nat) :
    Follows scope levels errors (typeBody (levels + 1)) (TypeReader.body levels) := by
  induction levels with
  | zero => exact follows_deeper_zero fun p => ⟨_, _, rfl, rfl⟩
  | succ levels ih =>
    exact follows_deeper
      (matches_rounds.andThen fun rounds => follows_typeFields ih rounds [] false)

/-! ## Values -/

/-- Reading a scalar. -/
theorem follows_scalar (token : Token) (negative : Bool) :
    Follows scope levels errors (scalar token negative) (ValueReader.scalar token negative) := by
  unfold scalar ValueReader.scalar
  cases Literal.read token negative with
  | ok typed => exact (matches_newCell _).some
  | error message => exact (notes_complain message token.span).follows

/-- Reading a value. -/
theorem follows_value {tuple : TupleKind → StateM Parser (Option Cell)}
    {direct : TupleKind → ParseM Cell}
    (htuple : ∀ kind, Follows scope levels errors (tuple kind) (direct kind)) :
    Follows scope levels errors (value (levels + 1) tuple) (ValueReader.value levels direct) := by
  refine matches_current.andThen fun token => ?_
  cases token.kind with
  | plainOpen | dynamicOpen | dataOpen => exact (matches_advance 1).andThen fun _ => htuple _
  | typeOpen =>
    refine (matches_advance 1).andThen fun _ =>
      (follows_typeBody levels).bind (fun type => ?_) cleansUp_pure
    exact (matches_newCell _).some
  | ident => exact (matches_advance 1).andThen fun _ => (matches_newCell _).some
  | _ =>
    -- a minus in front of a number, a literal, or neither
    refine .ite (fun _ => (matches_peek 1).andThen fun number => ?_) fun _ => ?_
    · refine .ite (fun _ => ?_) fun _ => (notes_complain _ _).follows
      exact (matches_advance 2).andThen fun _ => follows_scalar number true
    · refine .ite (fun _ => ?_) fun _ => (notes_complain _ _).follows
      exact (matches_advance 1).andThen fun _ => follows_scalar token false

/-- Reading the name of an element. -/
theorem matches_elementName : Matches scope levels errors elementName ValueReader.name := by
  refine matches_current.next fun token => (matches_peek 1).next fun next => ?_
  exact .ite (fun _ => (matches_advance 2).next fun _ => .pure _) fun _ => .pure none

/-- Making a tuple of its entries. -/
theorem follows_build (kind : TupleKind) (entries : List (Option String × Cell)) :
    Follows scope levels errors (build kind entries) (ValueReader.build scope kind entries) := by
  rintro p ⟨rfl, hlevels, herrors⟩
  exact follows_onStore (fun _ => Store.keeps_built_settled () kind _ entries) p
    ⟨rfl, hlevels, herrors⟩

/-- Reading the elements of a tuple. -/
theorem follows_elements {kind : TupleKind} {value nested : StateM Parser (Option Cell)}
    {directValue directNested : ParseM Cell}
    (hvalue : Follows scope levels errors value directValue)
    (hnested : Follows scope levels errors nested directNested) (rounds : Nat)
    (entries : List (Option String × Cell)) :
    Follows scope levels errors (elements kind value nested rounds entries)
      (ValueReader.elements scope kind directValue directNested rounds entries) := by
  -- an element is a tuple behind a bare parenthesis, or a value
  have helement : Follows scope levels errors (element value nested)
      (ValueReader.element directValue directNested) := by
    refine matches_current.andThen fun token => .ite (fun _ => ?_) fun _ => hvalue
    exact (matches_advance 1).andThen fun _ => hnested
  induction rounds generalizing entries with
  | zero => exact notes_stall.cleaning (cleansUp_giveUpCells _)
  | succ rounds ih =>
    unfold elements ValueReader.elements
    refine matches_current.andThen fun token => .ite (fun _ => ?_) fun _ => ?_
    · exact (matches_advance 1).andThen fun _ => follows_build kind entries
    · refine matches_elementName.andThen fun name => ?_
      -- where the element fails both parsers give up those in front of it
      refine helement.bindCleaning (fun cell => ?_) (cleansUp_giveUpCells _)
      refine matches_current.andThen fun token => ?_
      cases token.kind with
      | comma => exact (matches_advance 1).andThen fun _ => ih _
      | rparen => exact (matches_advance 1).andThen fun _ => follows_build _ _
      | _ => exact (notes_complainHere _).cleaning (cleansUp_giveUpCells _)

/-- Reading a tuple. -/
theorem follows_tuple (levels : Nat) (kind : TupleKind) :
    Follows scope levels errors (tuple (levels + 1) kind)
    (ValueReader.tuple scope levels kind) := by
  induction levels generalizing kind with
  | zero => exact follows_deeper_zero fun p => ⟨_, _, rfl, rfl⟩
  | succ levels ih =>
    refine follows_deeper (matches_rounds.andThen fun rounds => ?_)
    exact follows_elements (follows_value ih) (ih kind) rounds []

/-- Reading a value at any depth. -/
theorem follows_read (levels : Nat) :
    Follows scope levels errors (read (levels + 1)) (ValueReader.read scope levels) :=
  follows_value (follows_tuple levels)

/-! ## Binding -/

/-- Coercing the operand of a type test. -/
theorem matches_coerceTypeOperand (draft : Draft) :
    Matches scope levels errors (coerceTypeOperand draft) (draft.coerceTypeOperand scope) := by
  unfold coerceTypeOperand Draft.coerceTypeOperand
  refine .ite (fun _ => matches_get fun p hp => ?_) fun _ => .pure _
  rw [hp]
  cases draft.typeOperand? p.store scope with
  | some type => exact (matches_newCell _).next fun cell => .pure _
  | none => exact .pure _

/-- Comparing by an ordering. -/
theorem matches_compared (draft : Draft) (found : Action × TypeDesc × Action × TypeDesc) :
    Matches scope levels errors (compared draft found) (draft.compared found) :=
  (matches_newCell _).next fun _ => .pure _

/-- Binding a draft. -/
theorem follows_bindDraft (draft : Draft) (span : Span) :
    Follows scope levels errors (bindDraft draft span) (draft.bind scope span) := by
  refine (matches_coerceTypeOperand draft).andThen fun draft => follows_get fun p hp => ?_
  rw [hp]
  -- both parsers see the same candidates
  cases Choice.mostSpecific (p.store.candidates scope draft _ _) with
  | one action => exact .pure _
  | ambiguous count => exact (notes_complain _ _).cleaning (cleansUp_giveUp _)
  | nothing =>
    dsimp only
    cases (if draft.op.isRelational then p.store.comparison? scope draft _ _ else none) with
    | some comparison => exact (matches_compared draft comparison).some
    | none => exact (notes_complain _ _).cleaning (cleansUp_giveUp _)

end Parser

end TupleLang
