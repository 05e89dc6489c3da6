import TupleLang.Proofs.Effect
import TupleLang.Proofs.Relations

/-!
# Exact arithmetic

Arithmetic on integers is checked: it comes to the number that it should come to
(`Arithmetic.exact`), or it raises a condition, because a divisor is zero or because there is no
word for the number (`Word.Exact`). The actions hand this on. An operator makes a new cell for the
number, a compound assignment stores it in its first operand, and where a condition is raised
nothing is stored (`integer_arithmetic_is_exact`).

In one case this does not hold of `%`: it raises an overflow where there is no word for the
quotient, although there is one for the remainder (`remainder_of_least_overflows`).
-/

namespace TupleLang

namespace Word

variable {w : Word} {n a b : Int}

/-! ## Numbers in range -/

/-- There is a word for the number. -/
def Fits (w : Word) (n : Int) : Prop := w.least ≤ n ∧ n ≤ w.greatest

instance : Decidable (w.Fits n) := inferInstanceAs (Decidable (_ ∧ _))

/-- The word of a number in range stands for it. -/
theorem toInt_ofInt (h : w.Fits n) : w.toInt (w.ofInt n) = n := by
  obtain ⟨hleast, hgreatest⟩ := h
  cases w with
  | int => exact Int32.toInt_ofInt_of_le hleast (Int.lt_add_one_of_le hgreatest)
  | long => exact Int64.toInt_ofInt_of_le hleast (Int.lt_add_one_of_le hgreatest)
  | unsigned =>
    simp only [least, greatest] at hleast hgreatest
    rw [ofInt, toInt, UInt64.ofInt, UInt64.toNat_ofNat_of_lt' (by rw [UInt64.size]; omega)]
    omega

/-- Every word stands for a number in range. -/
theorem fits_toInt (x : w.Carrier) : w.Fits (w.toInt x) := by
  cases w with
  | int => exact ⟨Int32.le_toInt x, Int32.toInt_le x⟩
  | long => exact ⟨Int64.le_toInt x, Int64.toInt_le x⟩
  | unsigned =>
    have hlt := UInt64.toNat_lt x
    simp only [Fits, least, greatest, toInt]
    omega

/-- A number in the range is the result. -/
theorem fit_of_fits (h : w.Fits n) : w.fit n = .ok (w.ofInt n) := by
  rw [fit, ofInt?, if_pos (show w.least ≤ n ∧ n ≤ w.greatest from h)]

/-- A number out of the range is an overflow. -/
theorem fit_of_not_fits (h : ¬w.Fits n) : w.fit n = .error .integerOverflow := by
  rw [fit, ofInt?, if_neg (show ¬(w.least ≤ n ∧ n ≤ w.greatest) from h)]

/-- The only quotient out of range is that of the least number by minus one. -/
theorem fits_tdiv (ha : w.Fits a) (hb : w.Fits b) (hzero : b ≠ 0) (h : ¬(a = w.least ∧ b = -1)) :
    w.Fits (a.tdiv b) := by
  have hle : (a.tdiv b).natAbs ≤ a.natAbs := Int.natAbs_tdiv_le_natAbs a b
  -- for all divisors but one and minus one, a quotient is at most half as far from zero
  have hhalf : b ≠ 1 → b ≠ -1 → (a.tdiv b).natAbs ≤ a.natAbs / 2 := fun hone hneg => by
    rw [Int.natAbs_tdiv]
    exact Nat.div_le_div_left (by omega) two_pos
  have hone : b = 1 → a.tdiv b = a := by
    rintro rfl
    exact Int.tdiv_one a
  have hnonneg : 0 ≤ a → 0 ≤ b → 0 ≤ a.tdiv b := Int.tdiv_nonneg
  cases w <;> simp only [Fits, least, greatest] at ha hb h ⊢ <;> omega

end Word

/-! ## Operations -/

/-- An operation on two integers, with an operator and a compound assignment. -/
inductive Arithmetic where
  | sum | difference | product | quotient | remainder

namespace Arithmetic

/-- The operator. -/
def symbol : Arithmetic → String
  | sum => "+"
  | difference => "-"
  | product => "*"
  | quotient => "/"
  | remainder => "%"

/-- The number that the operation should come to. A quotient is truncated towards zero, and a
remainder has the sign of the dividend. -/
def exact : Arithmetic → Int → Int → Int
  | sum, a, b => a + b
  | difference, a, b => a - b
  | product, a, b => a * b
  | quotient, a, b => a.tdiv b
  | remainder, a, b => a.tmod b

/-- The operation has a divisor, and that is zero. -/
def DividesByZero : Arithmetic → Int → Prop
  | quotient, b | remainder, b => b = 0
  | sum, _ | difference, _ | product, _ => False

instance (op : Arithmetic) (b : Int) : Decidable (op.DividesByZero b) :=
  match op with
  | quotient | remainder => inferInstanceAs (Decidable (b = 0))
  | sum | difference | product => inferInstanceAs (Decidable False)

/-- The remainder of the least number by minus one. It is zero, but the quotient that it goes with
is out of range. -/
def Misses (op : Arithmetic) (w : Word) (a b : Int) : Prop :=
  op = remainder ∧ a = w.least ∧ b = -1

/-- What the language computes. -/
def compute (w : Word) : Arithmetic → w.Carrier → w.Carrier → Except Condition w.Carrier
  | sum => w.add
  | difference => w.sub
  | product => w.mul
  | quotient => w.div
  | remainder => w.rem

end Arithmetic

/-- What has been computed is the exact number `n`, if no divisor is zero and there is a word for
it. Otherwise the condition says which of the two is amiss. -/
structure Word.Exact (w : Word) (zeroDivisor : Prop) (n : Int)
    (computed : Except Condition w.Carrier) : Prop where
  exact : ¬zeroDivisor → w.Fits n → ∃ r, computed = .ok r ∧ w.toInt r = n
  division : zeroDivisor → computed = .error .divisionByZero
  overflow : ¬zeroDivisor → ¬w.Fits n → computed = .error .integerOverflow

theorem Word.exact_fit {w : Word} {zeroDivisor : Prop} (h : ¬zeroDivisor) (n : Int) :
    w.Exact zeroDivisor n (w.fit n) where
  exact _ hfits := ⟨_, fit_of_fits hfits, toInt_ofInt hfits⟩
  division hzero := absurd hzero h
  overflow _ hfits := fit_of_not_fits hfits

theorem Word.exact_of_zeroDivisor {w : Word} {zeroDivisor : Prop} (h : zeroDivisor) (n : Int) :
    w.Exact zeroDivisor n (.error .divisionByZero) where
  exact hzero := absurd h hzero
  division _ := rfl
  overflow hzero := absurd h hzero

namespace Arithmetic

variable {op : Arithmetic} {w : Word} {u v : w.Carrier}

/-- Division truncates, and the divisor must not be zero. -/
theorem exact_quotient : w.Exact (w.toInt v = 0) ((w.toInt u).tdiv (w.toInt v)) (w.div u v) := by
  by_cases hzero : w.toInt v = 0
  · rw [Word.div, if_pos hzero]
    exact Word.exact_of_zeroDivisor hzero _
  · rw [Word.div, if_neg hzero]
    exact Word.exact_fit hzero _

/-- Where the quotient is in range, there is a remainder. -/
theorem exact_remainder (h : ¬(w.toInt u = w.least ∧ w.toInt v = -1)) :
    w.Exact (w.toInt v = 0) ((w.toInt u).tmod (w.toInt v)) (w.rem u v) := by
  by_cases hzero : w.toInt v = 0
  · rw [Word.rem, Word.div, if_pos hzero]
    exact Word.exact_of_zeroDivisor hzero _
  · -- the quotient is computed first, and is put aside
    have hquotient : w.div u v = .ok (w.ofInt ((w.toInt u).tdiv (w.toInt v))) := by
      rw [Word.div, if_neg hzero]
      exact Word.fit_of_fits (Word.fits_tdiv (Word.fits_toInt u) (Word.fits_toInt v) hzero h)
    rw [Word.rem, hquotient]
    exact Word.exact_fit hzero _

/-- Every operation is exact, but for a remainder that is missed. -/
theorem exact_compute (h : ¬op.Misses w (w.toInt u) (w.toInt v)) :
    w.Exact (op.DividesByZero (w.toInt v)) (op.exact (w.toInt u) (w.toInt v))
    (op.compute w u v) := by
  cases op with
  | sum | difference | product => exact Word.exact_fit id _
  | quotient => exact exact_quotient
  | remainder => exact exact_remainder fun hleast => h ⟨rfl, hleast⟩

end Arithmetic

/-! ## Actions -/

namespace StoreM

variable {m : StoreM (Signal × Cell)} {s : Store} {w : Word} {n : Int} {x : Cell}
  {condition : Condition}

/-- The program finishes normally with a new cell that holds the number `n` as a value of the type
of `w`, and changes nothing else. -/
def Makes (m : StoreM (Signal × Cell)) (s : Store) (w : Word) (n : Int) : Prop :=
  ∃ c h r, m s = .ok (.normal, c) { s with heap := h } ∧ s.heap.Grows h ∧
    c.type = .leaf w.native.typeName ∧ c.read h w.native = .ok r ∧ w.toInt r = n

/-- The program finishes normally with the cell `x`, in which it has stored the number `n`, and
changes nothing else. -/
def Assigns (m : StoreM (Signal × Cell)) (s : Store) (w : Word) (x : Cell) (n : Int) : Prop :=
  ∃ r, m s = .ok (.normal, x) { s with heap := s.heap.put x.loc (w.native.wrap r) } ∧
    x.read (s.heap.put x.loc (w.native.wrap r)) w.native = .ok r ∧ w.toInt r = n

/-- The program ends with a new cell that names the condition that it has raised, and changes
nothing else. In particular every place still holds the value that it held. -/
def Raises (m : StoreM (Signal × Cell)) (s : Store) (condition : Condition) : Prop :=
  ∃ c h, m s = .ok (.raises, c) { s with heap := h } ∧ s.heap.Grows h ∧
    c.type = raisedType ∧ c.read h .name = .ok condition.name

end StoreM

/-- A program on integers is exact or raises a condition: it finishes if nothing is divided by zero
and the number is in range, and otherwise the condition says which of these is amiss. -/
structure Word.ExactOrRaises (w : Word) (zeroDivisor : Prop) (n : Int) (finishes : Prop)
    (raises : Condition → Prop) : Prop where
  finishes : finishes ↔ ¬zeroDivisor ∧ w.Fits n
  division : raises .divisionByZero ↔ zeroDivisor
  overflow : raises .integerOverflow ↔ ¬zeroDivisor ∧ ¬w.Fits n

/-- Whatever finishes where a word has been computed, and otherwise raises the one condition that is
the reason. -/
theorem Word.Exact.exactOrRaises {w : Word} {zeroDivisor : Prop} {n : Int}
    {computed : Except Condition w.Carrier} {finishes : Prop} {raises : Condition → Prop}
    (h : w.Exact zeroDivisor n computed)
    (hok : ∀ r, computed = .ok r → w.toInt r = n → finishes ∧ ∀ c, ¬raises c)
    (herror : ∀ c, computed = .error c → ¬finishes ∧ ∀ c', raises c' ↔ c = c') :
    w.ExactOrRaises zeroDivisor n finishes raises := by
  by_cases hzero : zeroDivisor
  · -- dividing by zero
    obtain ⟨hno, hraises⟩ := herror _ (h.division hzero)
    refine ⟨iff_of_false hno fun hn => hn.1 hzero, iff_of_true ((hraises _).mpr rfl) hzero,
      iff_of_false ?_ fun hn => hn.1 hzero⟩
    rw [hraises]
    exact nofun
  by_cases hfits : w.Fits n
  · -- the exact result fits
    obtain ⟨r, hr, hn⟩ := h.exact hzero hfits
    obtain ⟨hfinishes, hno⟩ := hok r hr hn
    exact ⟨iff_of_true hfinishes ⟨hzero, hfits⟩, iff_of_false (hno _) hzero,
      iff_of_false (hno _) fun hn => hn.2 hfits⟩
  · -- it does not fit
    obtain ⟨hno, hraises⟩ := herror _ (h.overflow hzero hfits)
    refine ⟨iff_of_false hno fun hn => hfits hn.2, iff_of_false ?_ hzero,
      iff_of_true ((hraises _).mpr rfl) ⟨hzero, hfits⟩⟩
    rw [hraises]
    exact nofun

/-- Conditions go by different names. -/
theorem Condition.name_injective : Function.Injective Condition.name := by
  intro c c' h
  cases c <;> cases c' <;> first | rfl | exact absurd h (by decide)

namespace StoreM

variable {m : StoreM (Signal × Cell)} {s s' : Store} {w : Word} {n : Int} {x : Cell}
  {condition condition' : Condition} {zeroDivisor : Prop} {computed : Except Condition w.Carrier}

/-- The condition that a program raises is the one that it names. -/
theorem raises_iff_of_raised (h : m s = Body.raised condition.name s) :
    m.Raises s condition' ↔ condition = condition' := by
  have hread := Cell.read_make_native s.heap .name condition.name
  constructor
  · rintro ⟨c, heap, hrun, -, -, hname⟩
    rw [h] at hrun
    cases hrun
    exact Condition.name_injective (Except.ok.inj (hread.symm.trans hname))
  · rintro rfl
    exact ⟨_, _, h, Cell.grows_make s.heap raisedType (.name condition.name), rfl, hread⟩

/-- What ends normally raises nothing. -/
theorem not_raises_of_normal (h : m s = .ok (.normal, x) s') : ¬m.Raises s condition := by
  rintro ⟨c, heap, hrun, -⟩
  rw [h] at hrun
  cases hrun

/-- What fails raises nothing. -/
theorem not_raises_of_error {e : Error} (h : m s = .error e s') : ¬m.Raises s condition := by
  rintro ⟨c, heap, hrun, -⟩
  rw [h] at hrun
  cases hrun

/-- A new cell is made for what has been computed. -/
theorem exactOrRaises_of_complete (h : w.Exact zeroDivisor n computed)
    (hrun : m s = Body.complete w.native.typeName w.native computed s) :
    w.ExactOrRaises zeroDivisor n (m.Makes s w n) (m.Raises s) := by
  refine h.exactOrRaises (fun r hr hn => ?_) fun c hc => ?_
  · rw [hr] at hrun
    refine ⟨⟨_, (Cell.make s.heap (.leaf w.native.typeName) (w.native.wrap r)).2, r, hrun,
      Cell.grows_make _ _ _, rfl, Cell.read_make_native _ _ _, hn⟩, fun c => ?_⟩
    exact not_raises_of_normal hrun
  · rw [hc] at hrun
    refine ⟨?_, fun c' => raises_iff_of_raised hrun⟩
    rintro ⟨cell, heap, r, hmake, -⟩
    rw [hrun] at hmake
    cases hmake

/-- A cell without a lock takes what has been computed. -/
theorem deposit_of_unlocked {r : w.Carrier} (hadmits : x.admits w.native = true)
    (hlock : x.lockedBy = none) :
    Body.deposit x w.native (.ok r) s =
      .ok (.normal, x) { s with heap := s.heap.put x.loc (w.native.wrap r) } := by
  have hset : x.set s.heap w.native r = .ok (s.heap.put x.loc (w.native.wrap r)) :=
    Cell.set_eq_ok_iff.mpr ⟨hlock, hadmits, rfl⟩
  simp only [Body.deposit, write, tryHeap, bind, EStateM.bind, get, getThe, MonadStateOf.get,
    EStateM.get, hset]
  rfl

/-- A locked cell refuses what has been computed. -/
theorem deposit_of_locked {r : w.Carrier} {kind : String} (hlock : x.lockedBy = some kind) :
    Body.deposit x w.native (.ok r) s = .error (.accessDenied .modify kind) s := by
  simp only [Body.deposit, write, tryHeap, bind, EStateM.bind, get, getThe, MonadStateOf.get,
    EStateM.get, Cell.set, Cell.checkWritable, hlock]
  rfl

section Deposit

variable {u : w.Carrier} (h : w.Exact zeroDivisor n computed)
  (hrun : m s = Body.deposit x w.native computed s)

include h hrun

/-- What has been computed is stored in the first operand. -/
theorem exactOrRaises_of_unlocked (hlock : x.lockedBy = none)
    (hread : x.read s.heap w.native = .ok u) :
    w.ExactOrRaises zeroDivisor n (m.Assigns s w x n) (m.Raises s) := by
  refine h.exactOrRaises (fun r hr hn => ?_) fun c hc => ?_
  · rw [hr, deposit_of_unlocked (Cell.admits_of_read hread) hlock] at hrun
    exact ⟨⟨r, hrun, Cell.read_put hread r, hn⟩, fun c => not_raises_of_normal hrun⟩
  · rw [hc] at hrun
    refine ⟨?_, fun c' => raises_iff_of_raised hrun⟩
    rintro ⟨r, hassign, -⟩
    rw [hrun] at hassign
    cases hassign

/-- Where nothing is raised, a locked operand refuses what has been computed. -/
theorem exactOrRaises_of_locked {kind : String} (hlock : x.lockedBy = some kind) :
    w.ExactOrRaises zeroDivisor n (m s = .error (.accessDenied .modify kind) s) (m.Raises s) := by
  refine h.exactOrRaises (fun r hr _ => ?_) fun c hc => ?_
  · rw [hr, deposit_of_locked hlock] at hrun
    exact ⟨hrun, fun c => not_raises_of_error hrun⟩
  · rw [hc] at hrun
    refine ⟨fun hrefused => ?_, fun c' => raises_iff_of_raised hrun⟩
    rw [hrun] at hrefused
    cases hrefused

end Deposit

end StoreM

namespace Builtin

/-- Every new store has an action of this signature, and the action has the property. -/
def Provides (signature : Signature) (P : Action → Prop) : Prop :=
  ∀ settings, let s := Store.withSettings settings
    ∃ a, s.action? s.root signature = some a ∧ P a

/-- An action of the catalogue is provided. -/
theorem provides_of_mem {a : Action} {signature : Signature} {P : Action → Prop}
    (ha : a ∈ catalogue) (hsignature : a.signature = signature) (hP : P a) : Provides signature P :=
  fun _ => ⟨a, Store.action?_withSettings.mpr ⟨ha, hsignature⟩, hP⟩

/-- What is weaker is provided as well. -/
theorem Provides.imp {signature : Signature} {P Q : Action → Prop} (h : Provides signature P)
    (hPQ : ∀ a, P a → Q a) : Provides signature Q :=
  fun settings => (h settings).imp fun a ha => ⟨ha.1, hPQ a ha.2⟩

theorem arithmetic_subset_catalogue (w : Word) :
    arithmetic w w.native.typeName ⊆ catalogue := by
  intro a ha
  cases w <;>
    · simp only [catalogue, numeric, List.mem_append]
      tauto

end Builtin

namespace Arithmetic

/-- The signature of the operator on values of the type of `w`. -/
def operator (op : Arithmetic) (w : Word) : Signature :=
  .operator (.leaf w.native.typeName) op.symbol (.leaf w.native.typeName)
    (.leaves [w.native.typeName])

/-- The signature of the compound assignment. -/
def assignment (op : Arithmetic) (w : Word) : Signature :=
  .operator (.leaf w.native.typeName) (op.symbol ++ "=") (.leaf w.native.typeName)
    (.leaves [w.native.typeName])

/-- The arithmetic operators of each word are in the catalogue. -/
theorem binary_mem_catalogue (op : Arithmetic) (w : Word) :
    let type := w.native.typeName
    Builtin.binary op.symbol type type type w.native w.native w.native (op.compute w) ∈
      Builtin.catalogue := by
  apply Builtin.arithmetic_subset_catalogue w
  cases op <;> simp [Builtin.arithmetic, symbol, compute]

/-- So are the compound assignments. -/
theorem compound_mem_catalogue (op : Arithmetic) (w : Word) :
    let type := w.native.typeName
    Builtin.compound (op.symbol ++ "=") type type w.native w.native (op.compute w) ∈
      Builtin.catalogue := by
  apply Builtin.arithmetic_subset_catalogue w
  cases op <;> simp [Builtin.arithmetic, symbol, compute]

end Arithmetic

namespace Word

/-- The signature of unary minus. -/
def negation (w : Word) : Signature :=
  .operator (.leaf w.native.typeName) "-" (.leaf w.native.typeName) (.leaves [])

/-- The signature of the absolute value. -/
def magnitude (w : Word) : Signature :=
  .function "abs" (.leaf w.native.typeName) (.leaves [w.native.typeName])

/-- So is negation, where numbers have signs. -/
theorem negation_mem_catalogue {w : Word} (h : w ≠ .unsigned) :
    Builtin.negation w w.native.typeName ∈ Builtin.catalogue := by
  cases w with
  | int | long => simp [Builtin.catalogue, Builtin.numeric, Native.typeName]
  | unsigned => exact absurd rfl h

/-- So is the magnitude, where numbers have signs. -/
theorem magnitude_mem_catalogue {w : Word} (h : w ≠ .unsigned) :
    Builtin.function1 "abs" w.native.typeName w.native.typeName w.native w.native w.abs ∈
      Builtin.catalogue := by
  cases w with
  | int | long => simp [Builtin.catalogue, Builtin.magnitudes, Native.typeName]
  | unsigned => exact absurd rfl h

end Word

namespace Builtin

variable {w : Word} {zeroDivisor : Prop} {n : Int} {name owner arg label : String} {host : Host}
  {s : Store} {x y : Cell} {u v : w.Carrier}

/-- A unary operator or function is as exact as what it computes. -/
theorem exactOrRaises_unary {a : Action} {f : w.Carrier → Except Condition w.Carrier}
    (hbody : a.body = .unary w.native w.native w.native.typeName f)
    (hx : x.read s.heap w.native = .ok u) (h : w.Exact zeroDivisor n (f u)) :
    w.ExactOrRaises zeroDivisor n ((a.apply host label [x]).Makes s w n)
      ((a.apply host label [x]).Raises s) := by
  refine StoreM.exactOrRaises_of_complete h ?_
  rw [Action.apply_eq (by simp [hbody]), hbody]
  exact Body.effect_unary hx

/-- A binary operator is as exact as what it computes. -/
theorem exactOrRaises_binary {a : Action} {f : w.Carrier → w.Carrier → Except Condition w.Carrier}
    (hbody : a.body = .binary w.native w.native w.native w.native.typeName f)
    (hx : x.read s.heap w.native = .ok u) (hy : y.read s.heap w.native = .ok v)
    (h : w.Exact zeroDivisor n (f u v)) :
    w.ExactOrRaises zeroDivisor n ((a.apply host label [x, y]).Makes s w n)
      ((a.apply host label [x, y]).Raises s) := by
  refine StoreM.exactOrRaises_of_complete h ?_
  rw [Action.apply_eq (by simp [hbody]), hbody]
  exact Body.effect_binary hx hy

/-- A compound assignment is as exact as what it computes, whether it stores that or is refused. -/
theorem exactOrRaises_compound {a : Action}
    {f : w.Carrier → w.Carrier → Except Condition w.Carrier}
    (hbody : a.body = .compound w.native w.native f) (hx : x.read s.heap w.native = .ok u)
    (hy : y.read s.heap w.native = .ok v) (h : w.Exact zeroDivisor n (f u v)) :
    (x.lockedBy = none → w.ExactOrRaises zeroDivisor n
      ((a.apply host label [x, y]).Assigns s w x n) ((a.apply host label [x, y]).Raises s)) ∧
    ∀ kind, x.lockedBy = some kind → w.ExactOrRaises zeroDivisor n
      (a.apply host label [x, y] s = .error (.accessDenied .modify kind) s)
      ((a.apply host label [x, y]).Raises s) := by
  have hrun : a.apply host label [x, y] s = Body.deposit x w.native (f u v) s := by
    rw [Action.apply_eq (by simp [hbody]), hbody]
    exact Body.effect_compound hx hy
  exact ⟨fun hlock => StoreM.exactOrRaises_of_unlocked h hrun hlock hx,
    fun kind hlock => StoreM.exactOrRaises_of_locked h hrun hlock⟩

end Builtin

/-- Arithmetic on integers of each type is exact or raises a condition. An operator, unary minus and
the absolute value make a new cell for the exact number. A compound assignment stores it in its
first operand, unless that is locked, which is an error. The remainder of the least number by minus
one is left out. -/
theorem integer_arithmetic_is_exact (w : Word) :
    (∀ op : Arithmetic, Builtin.Provides (op.operator w) fun a =>
      ∀ (host : Host) (label : String) (s : Store) (x y : Cell) (u v : w.Carrier),
        x.read s.heap w.native = .ok u → y.read s.heap w.native = .ok v →
        ¬op.Misses w (w.toInt u) (w.toInt v) →
        let m := a.apply host label [x, y]
        let n := op.exact (w.toInt u) (w.toInt v)
        w.ExactOrRaises (op.DividesByZero (w.toInt v)) n (m.Makes s w n) (m.Raises s)) ∧
    (∀ op : Arithmetic, Builtin.Provides (op.assignment w) fun a =>
      ∀ (host : Host) (label : String) (s : Store) (x y : Cell) (u v : w.Carrier),
        x.read s.heap w.native = .ok u → y.read s.heap w.native = .ok v →
        ¬op.Misses w (w.toInt u) (w.toInt v) →
        let m := a.apply host label [x, y]
        let n := op.exact (w.toInt u) (w.toInt v)
        (x.lockedBy = none →
          w.ExactOrRaises (op.DividesByZero (w.toInt v)) n (m.Assigns s w x n) (m.Raises s)) ∧
        ∀ kind, x.lockedBy = some kind →
          w.ExactOrRaises (op.DividesByZero (w.toInt v)) n
            (m s = .error (.accessDenied .modify kind) s) (m.Raises s)) ∧
    (w ≠ .unsigned → Builtin.Provides (Word.negation w) fun a =>
      ∀ (host : Host) (label : String) (s : Store) (x : Cell) (u : w.Carrier),
        x.read s.heap w.native = .ok u →
        let m := a.apply host label [x]
        w.ExactOrRaises False (-w.toInt u) (m.Makes s w (-w.toInt u)) (m.Raises s)) ∧
    (w ≠ .unsigned → Builtin.Provides (Word.magnitude w) fun a =>
      ∀ (host : Host) (label : String) (s : Store) (x : Cell) (u : w.Carrier),
        x.read s.heap w.native = .ok u →
        let m := a.apply host label [x]
        w.ExactOrRaises False |w.toInt u| (m.Makes s w |w.toInt u|) (m.Raises s)) := by
  refine ⟨fun op => ?_, fun op => ?_, fun hsigned => ?_, fun hsigned => ?_⟩
  · refine Builtin.provides_of_mem (op.binary_mem_catalogue w) rfl ?_
    intro host label s x y u v hx hy hmisses
    exact Builtin.exactOrRaises_binary rfl hx hy (Arithmetic.exact_compute hmisses)
  · refine Builtin.provides_of_mem (op.compound_mem_catalogue w) rfl ?_
    intro host label s x y u v hx hy hmisses
    exact Builtin.exactOrRaises_compound rfl hx hy (Arithmetic.exact_compute hmisses)
  · refine Builtin.provides_of_mem (Word.negation_mem_catalogue hsigned) rfl ?_
    intro host label s x u hx
    exact Builtin.exactOrRaises_unary rfl hx (Word.exact_fit id _)
  · refine Builtin.provides_of_mem (Word.magnitude_mem_catalogue hsigned) rfl ?_
    intro host label s x u hx
    -- the magnitude is computed as a natural number
    rw [← Int.natCast_natAbs]
    exact Builtin.exactOrRaises_unary rfl hx (Word.exact_fit id _)

/-- A store with five integers. -/
def numberStore : Store where
  heap := ⟨#[.int (-7), .int 2, .int 2147483647, .int (-2147483648), .int (-1)]⟩
  root := ⟨0, 0⟩

/-- One of them. -/
def number (loc : Nat) : Cell := { type := .leaf "int", loc }

/-- The remainder of -7 by 2 is -1. The greatest number cannot be increased in place, nor can the
least one be negated, but -7 has an absolute value. -/
theorem integer_arithmetic_is_exact_edges :
    ((number 0).read numberStore.heap .int = .ok (-7 : Int32) ∧
      (number 1).read numberStore.heap .int = .ok (2 : Int32) ∧
      (number 2).read numberStore.heap .int = .ok (2147483647 : Int32) ∧
      (number 3).read numberStore.heap .int = .ok (-2147483648 : Int32)) ∧
    ((number 2).lockedBy = none ∧ Word.int ≠ .unsigned ∧ ¬Arithmetic.remainder.Misses .int (-7) 2 ∧
      ¬Arithmetic.sum.Misses .int 2147483647 2) ∧
    Builtin.Provides (Arithmetic.remainder.operator .int) (fun a =>
      (a.apply .none "%" [number 0, number 1]).Makes numberStore .int (-1)) ∧
    Builtin.Provides (Arithmetic.sum.assignment .int) (fun a =>
      (a.apply .none "+=" [number 2, number 1]).Raises numberStore .integerOverflow) ∧
    Builtin.Provides (Word.negation .int) (fun a =>
      (a.apply .none "-" [number 3]).Raises numberStore .integerOverflow) ∧
    Builtin.Provides (Word.magnitude .int) (fun a =>
      (a.apply .none "abs" [number 0]).Makes numberStore .int 7) := by
  obtain ⟨hoperators, hassignments, hnegation, hmagnitude⟩ := integer_arithmetic_is_exact .int
  have hremainder : ¬Arithmetic.remainder.Misses .int (-7) 2 := fun h => absurd h.2.2 (by decide)
  have hsum : ¬Arithmetic.sum.Misses .int 2147483647 2 := fun h => nomatch h.1
  refine ⟨⟨rfl, rfl, rfl, rfl⟩, ⟨rfl, nofun, hremainder, hsum⟩, ?_, ?_, ?_, ?_⟩
  · refine (hoperators .remainder).imp fun a ha => ?_
    exact (ha .none "%" numberStore (number 0) (number 1) _ _ rfl rfl hremainder).finishes.mpr
      ⟨by decide, by decide⟩
  · refine (hassignments .sum).imp fun a ha => ?_
    obtain ⟨hunlocked, -⟩ := ha .none "+=" numberStore (number 2) (number 1) _ _ rfl rfl hsum
    exact (hunlocked rfl).overflow.mpr ⟨by decide, by decide⟩
  · refine (hnegation nofun).imp fun a ha => ?_
    exact (ha .none "-" numberStore (number 3) _ rfl).overflow.mpr ⟨by decide, by decide⟩
  · refine (hmagnitude nofun).imp fun a ha => ?_
    exact (ha .none "abs" numberStore (number 0) _ rfl).finishes.mpr ⟨by decide, by decide⟩

/-- The remainder of the least number by minus one is zero, which is in range, but `%` raises an
overflow. -/
theorem remainder_of_least_overflows :
    ((number 3).read numberStore.heap .int = .ok (-2147483648 : Int32) ∧
      (number 4).read numberStore.heap .int = .ok (-1 : Int32)) ∧
    (¬Arithmetic.remainder.DividesByZero (-1) ∧
      Word.int.Fits (Arithmetic.remainder.exact (-2147483648) (-1))) ∧
    Builtin.Provides (Arithmetic.remainder.operator .int) (fun a =>
      (a.apply .none "%" [number 3, number 4]).Raises numberStore .integerOverflow) := by
  refine ⟨⟨rfl, rfl⟩, ⟨by decide, by decide⟩, ?_⟩
  refine Builtin.provides_of_mem (Arithmetic.remainder.binary_mem_catalogue .int) rfl ?_
  have hx : (number 3).read numberStore.heap Word.int.native = .ok (-2147483648 : Int32) := rfl
  have hy : (number 4).read numberStore.heap Word.int.native = .ok (-1 : Int32) := rfl
  have hraised :
    (Builtin.binary "%" "int" "int" "int" .int .int .int (Word.rem .int)).apply .none "%"
      [number 3, number 4] numberStore =
        Body.raised Condition.integerOverflow.name numberStore := by
    rw [Action.apply_eq (by simp [Builtin.binary, Builtin.operator])]
    exact Body.effect_binary hx hy
  exact (StoreM.raises_iff_of_raised hraised).mpr rfl

end TupleLang
