import Mathlib
import TupleLang.Activation
import TupleLang.Proofs.ParseM

/-!
# Regimes

Many properties of programs on a state have one form. There is something known about the state, a
*world*; a program leads from one world to a later one, and what is known of its result stays known
from then on. A `Regime` says which worlds there are, which of them is later than which, and what a
world says about a state. `Regime.Keeps` is the judgement on programs, with one rule for each way in
which they are put together.

A program can fail, and it keeps the state at the point of failure: a regime is kept on failure too.
-/

namespace TupleLang

/-- What may be known about states, and how it may develop. -/
structure Regime (σ : Type) where
  /-- What is known at some point. -/
  World : Type
  /-- The second world may follow the first. -/
  Later : World → World → Prop
  refl : ∀ w, Later w w
  trans : ∀ {u v w}, Later u v → Later v w → Later u w
  /-- The state is as the world says. -/
  Holds : World → σ → Prop

namespace Regime

variable {σ τ ε ε' α β : Type} (R : Regime σ)

/-- Run from a state of world `v`, the program comes to a later world. Its result has the property
`Q` there; an error that it fails with has the property `E`. -/
def Leads (v : R.World) (s : σ) (m : EStateM ε σ α) (Q : R.World → α → Prop)
    (E : ε → Prop) : Prop :=
  match m s with
  | .ok a s' => ∃ v', R.Later v v' ∧ R.Holds v' s' ∧ Q v' a
  | .error e s' => E e ∧ ∃ v', R.Later v v' ∧ R.Holds v' s'

/-- From world `w` on, the program always comes to a later world. -/
def Keeps (w : R.World) (m : EStateM ε σ α) (Q : R.World → α → Prop) (E : ε → Prop) : Prop :=
  ∀ v, R.Later w v → ∀ s, R.Holds v s → R.Leads v s m Q E

/-- A function on states leads from every state of a world to a state of a later one. -/
def Moves (w : R.World) (f : σ → σ) : Prop :=
  ∀ v, R.Later w v → ∀ s, R.Holds v s → ∃ v', R.Later v v' ∧ R.Holds v' (f s)

/-- What is known about a part of the state. -/
def comap (f : τ → σ) : Regime τ where
  World := R.World
  Later := R.Later
  refl := R.refl
  trans := R.trans
  Holds w t := R.Holds w (f t)

variable {R} {v w : R.World} {s : σ} {m : EStateM ε σ α} {Q Q' : R.World → α → Prop}
  {E E' : ε → Prop}

namespace Leads

/-- Only what the program does in this state matters. -/
theorem congr {m' : EStateM ε σ α} (h : m s = m' s) (hm : R.Leads v s m' Q E) :
    R.Leads v s m Q E := by
  rwa [Leads, h]

/-- Weaken what is said about results and errors. -/
theorem mono (h : R.Leads v s m Q E) (hQ : ∀ v' a, R.Later v v' → Q v' a → Q' v' a)
    (hE : ∀ e, E e → E' e) : R.Leads v s m Q' E' := by
  unfold Leads at *
  split
  · rename_i a s' hrun
    simp only [hrun] at h
    obtain ⟨v', hlater, hholds, ha⟩ := h
    exact ⟨v', hlater, hholds, hQ v' a hlater ha⟩
  · rename_i e s' hrun
    simp only [hrun] at h
    exact ⟨hE e h.1, h.2⟩

/-- A program that began in an earlier world. -/
theorem of_later {u : R.World} (huv : R.Later u v) (h : R.Leads v s m Q E) :
    R.Leads u s m Q E := by
  unfold Leads at *
  split
  · rename_i hrun
    simp only [hrun] at h
    obtain ⟨v', hlater, h⟩ := h
    exact ⟨v', R.trans huv hlater, h⟩
  · rename_i hrun
    simp only [hrun] at h
    obtain ⟨he, v', hlater, h⟩ := h
    exact ⟨he, v', R.trans huv hlater, h⟩

/-- One program after the other. -/
protected theorem bind {f : α → EStateM ε σ β} {P : R.World → β → Prop} (hm : R.Leads v s m Q E)
    (hf : ∀ a v', R.Later v v' → Q v' a → ∀ s', R.Holds v' s' → R.Leads v' s' (f a) P E) :
    R.Leads v s (m >>= f) P E := by
  unfold Leads at hm
  cases hrun : m s with
  | ok a s' =>
    simp only [hrun] at hm
    obtain ⟨v', hlater, hholds, ha⟩ := hm
    -- the second part starts in the world that the first one has led to
    have hnext := (hf a v' hlater ha s' hholds).of_later hlater
    have heq : (m >>= f) s = f a s' := by simp [bind, EStateM.bind, hrun]
    rw [Leads, heq]
    exact hnext
  | error e s' =>
    simp only [hrun] at hm
    have heq : (m >>= f) s = .error e s' := by simp [bind, EStateM.bind, hrun]
    rw [Leads, heq]
    exact hm

end Leads

namespace Keeps

/-! ## Putting programs together -/

/-- A program runs in every later world as well. -/
theorem of_later (h : R.Keeps w m Q E) (hlater : R.Later w v) : R.Keeps v m Q E :=
  fun u hu => h u (R.trans hlater hu)

/-- Weaken what is said about results and errors. -/
theorem mono (h : R.Keeps w m Q E) (hQ : ∀ v a, R.Later w v → Q v a → Q' v a)
    (hE : ∀ e, E e → E' e) : R.Keeps w m Q' E' := fun v hv s hs =>
  (h v hv s hs).mono (fun v' a hv' => hQ v' a (R.trans hv hv')) hE

/-- Weaken what is said about results. -/
theorem weaken (h : R.Keeps w m Q E) (hQ : ∀ v a, R.Later w v → Q v a → Q' v a) :
    R.Keeps w m Q' E := h.mono hQ fun _ he => he

/-- A result. -/
protected theorem pure {a : α} (ha : ∀ v, R.Later w v → Q v a) : R.Keeps w (pure a) Q E :=
  fun v hv _ hs => ⟨v, R.refl v, hs, ha v hv⟩

/-- A failure. -/
protected theorem throw {e : ε} (he : E e) : R.Keeps w (throw e) Q E :=
  fun v _ _ hs => ⟨he, v, R.refl v, hs⟩

/-- One program after the other. -/
protected theorem bind {f : α → EStateM ε σ β} {P : R.World → β → Prop} (hm : R.Keeps w m Q E)
    (hf : ∀ a v, R.Later w v → Q v a → R.Keeps v (f a) P E) : R.Keeps w (m >>= f) P E := by
  intro v hv s hs
  refine (hm v hv s hs).bind fun a v' hlater ha s' hs' => ?_
  exact hf a v' (R.trans hv hlater) ha v' (R.refl v') s' hs'

/-- Look at the state and go on with what lasts. -/
theorem get_bind {f : σ → EStateM ε σ β} {P : R.World → β → Prop}
    (hf : ∀ v, R.Later w v → ∀ s, R.Holds v s → R.Keeps v (f s) P E) :
    R.Keeps w (get >>= f) P E := fun v hv s hs => hf v hv s hs v (R.refl v) s hs

/-- Change the state. -/
protected theorem modify {f : σ → σ} (hf : R.Moves w f) :
    R.Keeps w (modify f : EStateM ε σ Unit) (fun _ _ => True) E := by
  intro v hv s hs
  obtain ⟨v', hlater, hholds⟩ := hf v hv s hs
  exact ⟨v', hlater, hholds, trivial⟩

/-- Either of two programs. -/
protected theorem ite {c : Prop} [Decidable c] {m' : EStateM ε σ α} (h : c → R.Keeps w m Q E)
    (h' : ¬c → R.Keeps w m' Q E) : R.Keeps w (if c then m else m') Q E := by
  split
  · exact h ‹_›
  · exact h' ‹_›

/-- Handle the failure of a program; the state is as the failure left it. -/
protected theorem tryCatch {handle : ε → EStateM ε σ α} (hm : R.Keeps w m Q E)
    (hh : ∀ e v, R.Later w v → E e → R.Keeps v (handle e) Q E') :
    R.Keeps w (tryCatch m handle) Q E' := by
  intro v hv s hs
  have hrun := hm v hv s hs
  unfold Leads at hrun
  cases hres : m s with
  | ok a s' =>
    have heq : tryCatch m handle s = .ok a s' := by
      simp [tryCatch, tryCatchThe, MonadExceptOf.tryCatch, EStateM.tryCatch, hres]
    simp only [hres] at hrun
    rw [Leads, heq]
    exact hrun
  | error e s' =>
    have heq : tryCatch m handle s = handle e s' := by
      simp [tryCatch, tryCatchThe, MonadExceptOf.tryCatch, EStateM.tryCatch, hres]
      rfl
    simp only [hres] at hrun
    obtain ⟨he, v', hlater, hholds⟩ := hrun
    have hnext := hh e v' (R.trans hv hlater) he v' (R.refl v') s' hholds
    rw [Leads, heq]
    exact hnext.of_later hlater

/-- Clean up after the failure of a program. -/
theorem cleanup {f : σ → σ} (hm : R.Keeps w m Q E) (hf : R.Moves w f) :
    R.Keeps w (tryCatch m fun e => do modify f; throw e) Q E := by
  refine .tryCatch hm fun e v hv he => .bind (.modify fun u hu => ?_) fun _ u _ _ => .throw he
  exact hf u (R.trans hv hu)

/-- Do something for its effect alone. -/
theorem andThen {f : α → EStateM ε σ β} {P : R.World → β → Prop}
    (hm : R.Keeps w m (fun _ _ => True) E) (hf : ∀ a v, R.Later w v → R.Keeps v (f a) P E) :
    R.Keeps w (m >>= f) P E := hm.bind fun a v hv _ => hf a v hv

/-- What else is known of the results of a program. -/
theorem also {P : α → Prop} (h : R.Keeps w m Q E) (hP : ∀ s a s', m s = .ok a s' → P a) :
    R.Keeps w m (fun v a => Q v a ∧ P a) E := by
  intro v hv s hs
  have hrun := h v hv s hs
  unfold Leads at *
  split
  · rename_i a s' hres
    simp only [hres] at hrun
    obtain ⟨v', hlater, hholds, ha⟩ := hrun
    exact ⟨v', hlater, hholds, ha, hP s a s' hres⟩
  · rename_i hres
    simpa only [hres] using hrun

/-- A program that cannot fail and does not change what is known. -/
theorem idle {Q : α → Prop} (h : ∀ v, R.Later w v → ∀ s, R.Holds v s →
    ∃ a s', m s = .ok a s' ∧ R.Holds v s' ∧ Q a) : R.Keeps w m (fun _ => Q) E := by
  intro v hv s hs
  obtain ⟨a, s', hrun, hholds, ha⟩ := h v hv s hs
  rw [Leads, hrun]
  exact ⟨v, R.refl v, hholds, ha⟩

end Keeps

/-- Moving on from a later world. -/
theorem Moves.of_later {f : σ → σ} (h : R.Moves w f) (hlater : R.Later w v) : R.Moves v f :=
  fun u hu => h u (R.trans hlater hu)

/-- Changing a state twice. -/
theorem Moves.comp {f g : σ → σ} (hf : R.Moves w f) (hg : R.Moves w g) :
    R.Moves w fun s => g (f s) := by
  intro v hv s hs
  obtain ⟨v', hlater, hs'⟩ := hf v hv s hs
  obtain ⟨v'', hlater', hs''⟩ := hg v' (R.trans hv hlater) (f s) hs'
  exact ⟨v'', R.trans hlater hlater', hs''⟩

/-! ## Programs on a part of the state -/

section Store

variable {R : Regime Store} {w : R.World} {Q : R.World → α → Prop} {E : Error → Prop}

/-- The outcome of a computation on the side. -/
theorem Keeps.ofExcept {x : Except Error α} (hok : ∀ a, x = .ok a → ∀ v, R.Later w v → Q v a)
    (herror : ∀ e, x = .error e → E e) : R.Keeps w (StoreM.ofExcept x) Q E := by
  cases x with
  | ok a => exact .pure (hok a rfl)
  | error e => exact .throw (herror e rfl)

/-- A function that changes the store and cannot fail. -/
theorem Leads.change {v : R.World} {s : Store} {f : Store → α × Store}
    (h : ∃ v', R.Later v v' ∧ R.Holds v' (f s).2 ∧ Q v' (f s).1) :
    R.Leads v s (StoreM.change f) Q E := h

/-- A function that changes the heap and cannot fail. -/
theorem Leads.onHeap {v : R.World} {s : Store} {f : Heap → α × Heap}
    (h : ∃ v', R.Later v v' ∧ R.Holds v' { s with heap := (f s.heap).2 } ∧ Q v' (f s.heap).1) :
    R.Leads v s (StoreM.onHeap f) Q E := h

/-- Changing a tuple fails if it is not live or refuses, and then the store is as it was. -/
theorem Leads.update {v : R.World} {s : Store} {id : TupleId} {f : Tuple → Except Error (α × Tuple)}
    (hs : R.Holds v s) (hok : ∀ t a t', s.tuple? id = some t → f t = .ok (a, t') →
      ∃ v', R.Later v v' ∧ R.Holds v' (s.putTuple id t') ∧ Q v' a)
    (hmissing : E (.notFound (.tuple id))) (herror : ∀ t e, f t = .error e → E e) :
    R.Leads v s (StoreM.update id f) Q E := by
  simp only [Leads, StoreM.update, StoreM.tuple, Store.tuple, bind, EStateM.bind, get, getThe,
    MonadStateOf.get, EStateM.get]
  cases ht : s.tuple? id with
  | none => exact ⟨hmissing, v, R.refl v, hs⟩
  | some t =>
    simp only [StoreM.ofExcept, pure, EStateM.pure]
    cases hf : f t with
    | ok r => exact hok t r.1 r.2 ht hf
    | error e => exact ⟨herror t e hf, v, R.refl v, hs⟩

/-- Changing the heap fails if that is refused, and then the store is as it was. -/
theorem Leads.tryHeap {v : R.World} {s : Store} {f : Heap → Except Error (α × Heap)}
    (hs : R.Holds v s) (hok : ∀ a h, f s.heap = .ok (a, h) →
      ∃ v', R.Later v v' ∧ R.Holds v' { s with heap := h } ∧ Q v' a)
    (herror : ∀ e, f s.heap = .error e → E e) : R.Leads v s (StoreM.tryHeap f) Q E := by
  simp only [Leads, StoreM.tryHeap, bind, EStateM.bind, get, getThe, MonadStateOf.get, EStateM.get]
  cases hf : f s.heap with
  | ok r => exact hok r.1 r.2 hf
  | error e => exact ⟨herror e hf, v, R.refl v, hs⟩

/-- A parser that works on the store. -/
theorem Keeps.parser {m : StoreM α} (h : R.Keeps w m Q E) :
    (R.comap ParseState.store).Keeps w (ParseM.onStore m) Q fun _ => True := by
  intro v hv s hs
  have hrun := h v hv s.store hs
  unfold Leads ParseM.onStore at *
  cases hres : m s.store with
  | ok a s' =>
    simp only [hres] at hrun
    exact hrun
  | error e s' =>
    simp only [hres] at hrun
    exact ⟨trivial, hrun.2⟩

end Store

end Regime

/-! ## Programs that succeed -/

/-- The program succeeds, with a result and a state that pass the test. -/
def passes {σ ε α : Type} (m : EStateM ε σ α) (s : σ) (test : α → σ → Bool) : Bool :=
  match m s with
  | .ok a s' => test a s'
  | .error .. => false

/-- The check passes if the program ends well and its result passes the test. -/
theorem passes_iff {σ ε α : Type} {m : EStateM ε σ α} {s : σ} {test : α → σ → Bool} :
    passes m s test = true ↔ ∃ a s', m s = .ok a s' ∧ test a s' = true := by
  rw [passes]
  cases hrun : m s <;> simp

/-! ## The store in the end -/

/-- The store that a program leaves behind, whether it fails or not. -/
def StoreM.after {α : Type} (m : StoreM α) (s : Store) : Store :=
  match m s with
  | .ok _ s' => s'
  | .error _ s' => s'

namespace StoreM

variable {α β : Type} {m : StoreM α} {f : α → StoreM β} {s s' : Store}

/-- The state behind two programs is that behind the second one. -/
theorem after_bind_ok {a : α} (h : m s = .ok a s') : (m >>= f).after s = (f a).after s' := by
  simp [after, bind, EStateM.bind, h]

/-- The state behind a program that fails is kept. -/
theorem after_bind_error {e : Error} (h : m s = .error e s') : (m >>= f).after s = s' := by
  simp [after, bind, EStateM.bind, h]

end StoreM

/-- A program comes to a later world, whether it fails or not. -/
theorem Regime.Leads.after {α : Type} {R : Regime Store} {v : R.World} {s : Store} {m : StoreM α}
    {Q : R.World → α → Prop} {E : Error → Prop} (h : R.Leads v s m Q E) :
    ∃ v', R.Later v v' ∧ R.Holds v' (m.after s) := by
  unfold Leads StoreM.after at *
  cases hrun : m s with
  | ok a s' =>
    simp only [hrun] at h ⊢
    obtain ⟨v', hlater, hholds, -⟩ := h
    exact ⟨v', hlater, hholds⟩
  | error e s' =>
    simp only [hrun] at h ⊢
    exact h.2

end TupleLang
