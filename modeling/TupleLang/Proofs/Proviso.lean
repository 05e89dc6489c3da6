import TupleLang.Proofs.Ageing
import TupleLang.Proofs.Complaints
import TupleLang.Proofs.Reading

/-!
# Following the grammar under a proviso

Some of what a parser does depends on something that goes wrong only in stores that are very old. A
*proviso* is a property that a store has had before if it has it now. A parser follows the grammar
under a proviso if it does so whenever the store that it leaves behind has the property. All stores
on the way then have had it, since parsing lets stores only grow older.
-/

namespace TupleLang

/-- What a store can lose but not gain by growing older. -/
structure Store.Proviso where
  /-- The store still has it. -/
  Holds : Store → Prop
  early : ∀ {s s' : Store}, s.Ages s' → Holds s' → Holds s

namespace ParseM

variable {α β γ δ : Type} {φ : Store.Proviso} {Q : α → β → Store → Prop} {s : ParseState}

/-- What comes about in a store that has grown older. -/
theorem Follows.aged {m : ParseM α} {o : Option (β × List Lexeme)} (hm : Follows Q m s o)
    (hages : Ages m) : Follows (fun a b t => Q a b t ∧ s.store.Ages t) m s o := by
  have hafter := hages.after s
  unfold Follows at hm ⊢
  unfold after at hafter
  cases hrun : m s with
  | ok a s' =>
    rw [hrun] at hm hafter
    cases o with
    | none => exact hm.elim
    | some r => exact ⟨hm.1, hm.2.1, hm.2.2, hafter⟩
  | error e s' =>
    rw [hrun] at hm
    cases o with
    | none => trivial
    | some r => exact hm.elim

/-- The state that a program leaves. -/
theorem after_of_ok {m : ParseM α} {a : α} {s' : ParseState} (h : m s = .ok a s') :
    m.after s = s' := by
  rw [after, h]

/-- If the store still fulfils the proviso in the end, the parser has done what the grammar says. -/
def FollowsWhile (φ : Store.Proviso) (Q : α → β → Store → Prop) (m : ParseM α) (s : ParseState)
    (o : Option (β × List Lexeme)) : Prop :=
  φ.Holds (m.after s).store → Follows Q m s o

namespace FollowsWhile

variable {m : ParseM α} {o : Option (β × List Lexeme)}

/-- What follows always follows under a proviso. -/
theorem of_follows (h : Follows Q m s o) : FollowsWhile φ Q m s o := fun _ => h

/-- Giving a result. -/
protected theorem pure (hs : s.cursor.Regular) {a : α} {b : β} (h : Q a b s.store) :
    FollowsWhile φ Q (pure a) s (some (b, s.cursor.lexemes)) := of_follows (.pure hs h)

/-- Where the parser gives something, so does the grammar. -/
theorem of_ok {a : α} {s' : ParseState} (h : FollowsWhile φ Q m s o) (hrun : m s = .ok a s')
    (hφ : φ.Holds s'.store) :
    ∃ b, o = some (b, s'.cursor.lexemes) ∧ s'.cursor.Regular ∧ Q a b s'.store :=
  (h ((after_of_ok hrun).symm ▸ hφ)).of_ok hrun

/-- Where a program fails under the proviso, so does what it follows. -/
theorem of_error {e : ParseFailure} {s' : ParseState} (h : FollowsWhile φ Q m s o)
    (hrun : m s = .error e s') (hφ : φ.Holds s'.store) : o = none := by
  refine Follows.of_error (h ?_) hrun
  rwa [after, hrun]

/-- What comes about in a store may be seen in another way. -/
theorem imp {Q' : α → β → Store → Prop} (hm : FollowsWhile φ Q m s o)
    (h : ∀ a b t, Q a b t → Q' a b t) : FollowsWhile φ Q' m s o := fun hp => (hm hp).imp h

/-- What the parser begins with fulfils the proviso. -/
theorem of_start (hages : Ages m) (h : φ.Holds s.store → FollowsWhile φ Q m s o) :
    FollowsWhile φ Q m s o := fun hp => h (φ.early (hages.after s) hp) hp

/-- What all results of a parser have in common is true of the one it gives. -/
theorem finds {P : α → Prop} (hm : FollowsWhile φ Q m s o) (hP : Finds m P) :
    FollowsWhile φ (fun a b t => Q a b t ∧ P a) m s o := by
  intro hp
  have hfollows := hm hp
  cases hrun : m s with
  | ok a s' =>
    obtain ⟨b, rfl, hcursor, hQ⟩ := hfollows.of_ok hrun
    unfold Follows
    rw [hrun]
    exact ⟨hcursor, rfl, hQ, hP.of_ok hrun⟩
  | error e s' =>
    obtain rfl := hfollows.of_error hrun
    unfold Follows
    rw [hrun]
    trivial

/-- What follows a parser knows how that one has come to its result. -/
theorem bind_run {Q' : γ → δ → Store → Prop} {f : α → ParseM γ}
    {g : β × List Lexeme → Option (δ × List Lexeme)} (hm : FollowsWhile φ Q m s o)
    (hages : ∀ a, Ages (f a)) (hf : ∀ a b s', m s = .ok a s' → s'.cursor.Regular → Q a b s'.store →
      FollowsWhile φ Q' (f a) s' (g (b, s'.cursor.lexemes))) :
    FollowsWhile φ Q' (m >>= f) s (o.bind g) := by
  intro hp
  change φ.Holds (ParseM.after (EStateM.bind m f) s).store at hp
  rw [ParseM.after, EStateM.bind] at hp
  -- the store behind the first parser has had the property, since the rest lets it grow older
  have hmid : φ.Holds (m.after s).store := by
    unfold ParseM.after
    cases hrun : m s with
    | ok a s' =>
      rw [hrun] at hp
      exact φ.early ((hages a).after s') hp
    | error e s' =>
      rw [hrun] at hp
      exact hp
  refine (hm hmid).bind_run fun a b s' hrun hcursor hQ => hf a b s' hrun hcursor hQ ?_
  rw [hrun] at hp
  exact hp

/-- What follows a parser sees its result and the lexemes that are left. -/
protected theorem bind {Q' : γ → δ → Store → Prop} {f : α → ParseM γ}
    {g : β × List Lexeme → Option (δ × List Lexeme)} (hm : FollowsWhile φ Q m s o)
    (hages : ∀ a, Ages (f a)) (hf : ∀ a b s', s'.cursor.Regular → Q a b s'.store →
      FollowsWhile φ Q' (f a) s' (g (b, s'.cursor.lexemes))) :
    FollowsWhile φ Q' (m >>= f) s (o.bind g) :=
  hm.bind_run hages fun a b s' _ => hf a b s'

/-- A result is put to use in the same way on both sides. -/
theorem andReturn {Q' : γ → δ → Store → Prop} {f : α → γ} {g : β → δ} (hm : FollowsWhile φ Q m s o)
    (h : ∀ a b t, Q a b t → Q' (f a) (g b) t) :
    FollowsWhile φ Q' (do return f (← m)) s (o.map fun r => (g r.1, r.2)) := by
  rw [Option.map_eq_bind]
  exact hm.bind (fun _ => .pure _) fun a b s' hs' hQ => .pure hs' (h a b _ hQ)

/-- What follows a parser that takes in no lexeme sees the same lexemes. -/
theorem bind_still {Q' : γ → δ → Store → Prop} {f : α → ParseM γ} {o : Option β}
    {g : β → Option δ} (hm : FollowsWhile φ Q m s (o.map (·, s.cursor.lexemes)))
    (hages : ∀ a, Ages (f a)) (hf : ∀ a b s', s'.cursor.Regular → Q a b s'.store →
      FollowsWhile φ Q' (f a) s' ((g b).map (·, s'.cursor.lexemes))) :
    FollowsWhile φ Q' (m >>= f) s ((o.bind g).map (·, s.cursor.lexemes)) := by
  have hshape : (o.bind g).map (·, s.cursor.lexemes) =
      (o.map (·, s.cursor.lexemes)).bind fun r => (g r.1).map (·, r.2) := by
    rw [Option.map_bind, Option.bind_map]
    rfl
  rw [hshape]
  exact hm.bind hages hf

/-- The result of a parser that takes in no lexeme is put to use in the same way on both sides. -/
theorem andReturn_still {Q' : γ → δ → Store → Prop} {f : α → γ} {g : β → δ} {o : Option β}
    (hm : FollowsWhile φ Q m s (o.map (·, s.cursor.lexemes)))
    (h : ∀ a b t, Q a b t → Q' (f a) (g b) t) :
    FollowsWhile φ Q' (do return f (← m)) s (o.map fun b => (g b, s.cursor.lexemes)) := by
  have hshape : (o.map fun b => (g b, s.cursor.lexemes)) =
      (o.map (·, s.cursor.lexemes)).map fun r => (g r.1, r.2) := by
    rw [Option.map_map]
    rfl
  rw [hshape]
  exact hm.andReturn h

/-- Giving something up after a failure does not matter. -/
theorem onFailure {f : ParseState → ParseState} (hm : FollowsWhile φ Q m s o)
    (hf : ∀ s : ParseState, s.store.Ages (f s).store) :
    FollowsWhile φ Q (ParseM.onFailure f m) s o := by
  intro hp
  refine (hm ?_).onFailure f
  unfold ParseM.after ParseM.onFailure at hp
  unfold ParseM.after
  cases hrun : m s with
  | ok a s' =>
    rw [hrun] at hp
    exact hp
  | error e s' =>
    rw [hrun] at hp
    exact φ.early (hf s') hp

/-- Holding nodes follows the same. -/
theorem holding (nodes : List Node) (hm : FollowsWhile φ Q m s o) :
    FollowsWhile φ Q (ParseM.holding nodes m) s o :=
  hm.onFailure fun s : ParseState => .releaseAll s.store _

/-- Skipping after a failure follows the same. -/
theorem skipping (hm : FollowsWhile φ Q m s o) : FollowsWhile φ Q
    (ParseM.onFailure (fun s => { s with cursor := s.cursor.skipStatement }) m) s o :=
  hm.onFailure fun s : ParseState => .refl s.store

/-- A complaint follows what is refused. -/
theorem complain (message : String) (span : Span) :
    FollowsWhile φ Q (ParseM.complain message span) s none := of_follows (.complain _ _)

/-- So does a complaint about the token in front. -/
theorem complainHere (message : String) :
    FollowsWhile φ Q (ParseM.complainHere message) s none := of_follows (.complainHere _)

/-- Looking at the token in front. -/
theorem current_bind {f : Token → ParseM α} (hf : FollowsWhile φ Q (f s.cursor.current) s o) :
    FollowsWhile φ Q (current >>= f) s o := hf

/-- Looking further ahead. -/
theorem peek_bind {n : Nat} {f : Token → ParseM α}
    (hf : FollowsWhile φ Q (f (s.cursor.peek n)) s o) :
    FollowsWhile φ Q (peek n >>= f) s o := hf

/-- Asking for the store. -/
theorem store_bind {f : Store → ParseM α} (hf : FollowsWhile φ Q (f s.store) s o) :
    FollowsWhile φ Q (store >>= f) s o := hf

/-- Asking for the position. -/
theorem position_bind {f : Nat → ParseM α} (hf : FollowsWhile φ Q (f s.cursor.pos) s o) :
    FollowsWhile φ Q (position >>= f) s o := hf

/-- Asking how many rounds are left. -/
theorem rounds_bind {f : Nat → ParseM α}
    (hf : FollowsWhile φ Q (f (s.cursor.lexemes.length + 1)) s o) :
    FollowsWhile φ Q (rounds >>= f) s o := by
  rw [Cursor.length_lexemes] at hf
  exact hf

/-- What follows a step forward sees the lexemes behind it. -/
theorem advance_bind (hs : s.cursor.Regular) (n : Nat) {f : Unit → ParseM α}
    {g : List Lexeme → Option (β × List Lexeme)}
    (hf : ∀ s', s'.store = s.store → s'.cursor.Regular →
      FollowsWhile φ Q (f ()) s' (g s'.cursor.lexemes)) :
    FollowsWhile φ Q (advance n >>= f) s (g (s.cursor.lexemes.drop n)) := by
  have hnext := hf { s with cursor := s.cursor.advance n } rfl (hs.advance n)
  rw [Cursor.lexemes_advance] at hnext
  exact hnext

end FollowsWhile

/-- What follows a parser that leaves the store alone sees the same store. -/
theorem Yields.andWhile {m : ParseM α} {o : Option (α × List Lexeme)} {Q : γ → δ → Store → Prop}
    {f : α → ParseM γ} {g : α × List Lexeme → Option (δ × List Lexeme)} (hm : Yields m s o)
    (hages : ∀ a, Ages (f a)) (hf : ∀ a s', s'.store = s.store → s'.cursor.Regular →
      FollowsWhile φ Q (f a) s' (g (a, s'.cursor.lexemes))) :
    FollowsWhile φ Q (m >>= f) s (o.bind g) :=
  (FollowsWhile.of_follows hm).bind hages fun a _ s' hs' h => h.1 ▸ hf a s' h.2 hs'

end ParseM

end TupleLang
