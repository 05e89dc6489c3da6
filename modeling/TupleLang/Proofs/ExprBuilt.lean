import TupleLang.Proofs.DatumText
import TupleLang.Proofs.Nesting

/-!
# What expressions are made of

The trees that the grammar of expressions reads, by the levels of nesting that they take: the
arguments of a call and the inner operands of a conditional or a selection stand one level deeper
than the whole, and everything else stands on its level (`gets_frame`). Each operator is bound to
the operands that it was read with.
-/

namespace TupleLang

open Lexer

/-! ## Literals -/

/-- Literals of an expression, with so many levels of nesting: scalars other than names and negative
numbers, types, and plain tuples. -/
inductive Datum.Spoken : Nat → Datum → Prop
  | scalar {levels : Nat} {type : String} {v : Value} :
      Literal.Stands type v → (Datum.scalar type v).isNegative = false → type ≠ "name" →
      Spoken levels (.scalar type v)
  | float {levels : Nat} (x : Float) : Spoken levels (.scalar "float" (.float x))
  | type {levels : Nat} {t : TypeDesc} :
      t.Readable levels → 0 < levels → Spoken levels (.scalar "type" (.type t))
  | tuple {levels : Nat} {entries : List Entry} :
      (Datum.tuple .plain entries).Readable levels → Spoken levels (.tuple .plain entries)

/-- What has been cut off begins as the whole does. -/
theorem Cut.head?_takeBytes? {n : Nat} {cs : List Char} {c : Char}
    (h : c ∈ ((takeBytes? n cs).getD []).head?) : c ∈ cs.head? := by
  cases n with
  | zero =>
    rw [takeBytes?] at h
    cases h
  | succ n =>
    cases cs with
    | nil => cases h
    | cons d ds =>
      rw [takeBytes?] at h
      split at h
      · cases htake : takeBytes? (n + 1 - d.utf8Size) ds with
        | none =>
          rw [htake] at h
          cases h
        | some rest =>
          rw [htake] at h
          exact h
      · cases h

/-- A text that is cut at its end begins as before. -/
theorem Cut.head?_inside {n : Nat} {text : String} {c : Char}
    (h : c ∈ (inside 0 n text).toList.head?) : c ∈ text.toList.head? := by
  rw [inside] at h
  split at h
  · cases h
  · rw [String.toList_ofList, dropBytes?, Option.bind_some] at h
    exact head?_takeBytes? h

namespace Literal

/-- A numeral that begins with a digit has no sign. -/
theorem nonneg_of_integer? {text : String} {n : Int}
    (htext : ∀ c ∈ text.toList.head?, c.isDigit = true) (h : integer? text false = .ok n) :
    0 ≤ n := by
  rw [integer?] at h
  split at h
  · rename_i m hm
    obtain rfl : m = n := by simpa using h
    rw [Numeral.signed?] at hm
    obtain ⟨hm, -⟩ := Option.filter_eq_some_iff.mp hm
    -- a numeral that begins with a digit has no sign
    split at hm
    · rename_i heq
      exact absurd (htext '-' (by rw [heq]; rfl)) (by decide)
    · rename_i heq
      exact absurd (htext '+' (by rw [heq]; rfl)) (by decide)
    · obtain ⟨k, -, rfl⟩ := Option.map_eq_some_iff.mp hm
      exact Int.natCast_nonneg k
  · cases h

/-- The word of a number that is not negative is not negative. -/
theorem isNegative_of_word? {w : Word} {n : Int} {typed : Typed} (hn : 0 ≤ n)
    (h : word? w n = some typed) :
    (Datum.scalar typed.type typed.value).isNegative = false ∧ typed.type ≠ "name" := by
  obtain ⟨x, hx, rfl⟩ := Option.map_eq_some_iff.mp h
  rw [Word.ofInt?] at hx
  split at hx
  · rename_i hrange
    obtain rfl := Option.some.inj hx
    cases w with
    | int =>
      simp only [Word.least, Word.greatest] at hrange
      -- in range the word stands for the number itself
      have hback : (Int32.ofInt n).toInt = n := Int32.toInt_ofInt_of_le (by omega) (by omega)
      refine ⟨?_, by simp [native, Word.native, Native.typeName]⟩
      change decide ((Int32.ofInt n).toInt < 0) = false
      rw [hback]
      exact decide_eq_false (by omega)
    | long =>
      simp only [Word.least, Word.greatest] at hrange
      have hback : (Int64.ofInt n).toInt = n := Int64.toInt_ofInt_of_le (by omega) (by omega)
      refine ⟨?_, by simp [native, Word.native, Native.typeName]⟩
      change decide ((Int64.ofInt n).toInt < 0) = false
      rw [hback]
      exact decide_eq_false (by omega)
    | unsigned => exact ⟨rfl, by simp [native, Word.native, Native.typeName]⟩
  · cases hx

/-- A literal without a sign in front of it is neither negative nor a name. -/
theorem isNegative_of_read {l : Lexeme} (hl : Fits l) (hkind : l.kind.isLiteral = true)
    {typed : Typed} (h : read ⟨l.kind, l.text, {}⟩ false = .ok typed) :
    (Datum.scalar typed.type typed.value).isNegative = false ∧ typed.type ≠ "name" := by
  obtain ⟨kind, text⟩ := l
  -- a number begins with a digit, so it has no sign of its own
  have hdigit : kind ∈ [.int, .long] → ∀ c ∈ text.toList.head?, c.isDigit = true := by
    intro hnumber c hc
    obtain ⟨d, ds, htext, hd⟩ := hl.number hnumber
    dsimp only at htext
    rw [htext] at hc
    rwa [← Option.some.inj hc]
  cases kind with
  | int =>
    simp only [read, bind, Except.bind] at h
    split at h
    · cases h
    · rename_i n hn
      have hnonneg := nonneg_of_integer? (hdigit (by simp)) hn
      rcases Option.or_eq_some_iff.mp (eq_of_orFail h) with hint | ⟨-, hlong⟩
      · exact isNegative_of_word? hnonneg hint
      · exact isNegative_of_word? hnonneg hlong
  | long =>
    simp only [read, bind, Except.bind] at h
    split at h
    · cases h
    · rename_i n hn
      have hnonneg := nonneg_of_integer?
        (fun c hc => hdigit (by simp) c (Cut.head?_inside hc)) hn
      exact isNegative_of_word? hnonneg (eq_of_orFail h)
  | char =>
    simp only [read] at h
    split at h
    · rw [← Except.ok.inj h]
      exact ⟨rfl, by simp [native, Native.typeName]⟩
    · cases h
  | float | index | bits | byte | bytes =>
    obtain ⟨x, -, rfl⟩ := Option.map_eq_some_iff.mp (eq_of_orFail h)
    exact ⟨rfl, by simp [native, Native.typeName]⟩
  | voidWord | trueWord | falseWord | text | regex | path | namePath | sigil =>
    rw [← Except.ok.inj h]
    exact ⟨rfl, by simp [native, Native.typeName]⟩
  | _ => cases hkind

end Literal

namespace Grammar

/-- A scalar that is read as a literal is one that can be spoken. -/
theorem spoken_scalar {l : Lexeme} (hl : Fits l) (hkind : l.kind.isLiteral = true) {levels : Nat}
    {d : Datum} (h : scalar l false = some d) : d.Spoken levels := by
  rw [scalar] at h
  split at h
  · rename_i typed hread
    obtain rfl := Option.some.inj h
    obtain ⟨hsign, hname⟩ := Literal.isNegative_of_read hl hkind hread
    rcases Literal.stands_of_read hl hread with hstands | ⟨x, rfl⟩
    · exact .scalar hstands hsign hname
    · exact .float x
  · cases h

/-- Elements come to a tuple of their kind. -/
theorem eq_tuple_of_elements {kind : TupleKind} {value nested : Scan Datum} {rounds : Nat}
    {entries : List Datum.Entry} {ls rest : List Lexeme} {d : Datum}
    (h : elements kind value nested rounds entries ls = some (d, rest)) :
    ∃ entries, d = .tuple kind entries := by
  -- the elements end with building the tuple of all of them
  have hbuild : ∀ {entries d ls}, (build kind entries).map (·, ls) = some (d, rest) →
      ∃ entries, d = .tuple kind entries := by
    intro entries d ls h
    obtain ⟨d', hd, hx⟩ := Option.map_eq_some_iff.mp h
    obtain ⟨rfl, -⟩ := Prod.mk.inj hx
    rw [build] at hd
    split at hd
    · exact ⟨_, (Option.some.inj hd).symm⟩
    · cases hd
  induction rounds generalizing entries ls with
  | zero => cases h
  | succ rounds ih =>
    rw [elements] at h
    split at h
    · exact hbuild h
    · obtain ⟨name, -, h⟩ := Option.bind_eq_some_iff.mp h
      obtain ⟨element, -, h⟩ := Option.bind_eq_some_iff.mp h
      dsimp only at h
      split at h
      · exact ih h
      · exact hbuild h
      · cases h

/-- A literal that begins with an opening is a plain tuple or a type. -/
theorem spoken_read {levels : Nat} {ls rest : List Lexeme} {d : Datum} (hls : AllFit ls)
    (hkind : (ahead ls 0).kind ∈ [.plainOpen, .typeOpen]) (h : read levels ls = some (d, rest)) :
    d.Spoken levels := by
  obtain ⟨hreadable, -⟩ := gets_read levels ls d rest hls h
  rcases List.mem_pair.mp hkind with hplain | htype
  · rw [read, value] at h
    simp only [hplain] at h
    cases levels with
    | zero => cases h
    | succ levels =>
      obtain ⟨entries, rfl⟩ := eq_tuple_of_elements h
      exact .tuple hreadable
  · rw [read, value] at h
    simp only [htype] at h
    obtain ⟨⟨t, ls'⟩, ht, hx⟩ := Option.map_eq_some_iff.mp h
    obtain ⟨rfl, rfl⟩ := Prod.mk.inj hx
    obtain ⟨⟨hreadable, hlevels⟩, -⟩ := gets_typeBody levels _ t _ (hls.drop 1) ht
    exact .type hreadable hlevels

end Grammar

/-! ## Trees -/

/-- Operators whose operands all stand on the level of the whole. -/
def Operator.isFlat : Operator → Bool
  | ifThen | ifThenElse | select | call => false
  | _ => true

/-- Trees that are read with so many levels of nesting. -/
inductive Built (Γ : Env) : Nat → Tree → Prop
  | literal {levels : Nat} {d : Datum} : d.Spoken levels → Built Γ (levels + 1) (.literal d)
  | name {levels : Nat} {s : String} :
      IsIdent s → Γ.cell? s = none → Built Γ (levels + 1) (.literal (.scalar "name" (.name s)))
  | named {levels : Nat} {s : String} {cell : Cell} :
      IsIdent s → Γ.cell? s = some cell → Built Γ (levels + 1) (.named cell s)
  | call {levels : Nat} {s : String} {args : List Tree} {names : List (Option String)} {t : Tree} :
      IsIdent s → (∀ x ∈ args, Built Γ levels x) → names.length = args.length →
      Γ.bind .call s args names = some t → Built Γ (levels + 1) t
  | flat {levels : Nat} {op : Operator} {operands : List Tree} {t : Tree} :
      op.isFlat = true → operands.length = op.arity → (∀ x ∈ operands, Built Γ (levels + 1) x) →
      Γ.bind op op.actionName operands [] = some t → Built Γ (levels + 1) t
  | ifThen {levels : Nat} {c x t : Tree} :
      Built Γ levels c → Built Γ levels x →
      Γ.bind .ifThen Operator.ifThen.actionName [c, x] [] = some t → Built Γ (levels + 1) t
  | ifThenElse {levels : Nat} {c x y t : Tree} :
      Built Γ levels c → Built Γ levels x → Built Γ (levels + 1) y →
      Γ.bind .ifThenElse Operator.ifThenElse.actionName [c, x, y] [] = some t →
      Built Γ (levels + 1) t
  | select {levels : Nat} {c x y t : Tree} :
      Built Γ (levels + 1) c → Built Γ levels x → Built Γ (levels + 1) y →
      Γ.bind .select Operator.select.actionName [c, x, y] [] = some t → Built Γ (levels + 1) t

section Frames

variable {Γ : Env} {levels : Nat}

/-- The operator becomes a tree as soon as it has its last operand. -/
inductive TreeWaiting.Built (Γ : Env) (levels : Nat) : TreeWaiting → Prop
  | single {op : Operator} : op.isFlat = true → Built Γ levels (.single op)
  | typeTest {op : Operator} {x : Tree} :
      op ∈ [.is, .isNot] → TupleLang.Built Γ (levels + 1) x → Built Γ levels (.tail op [x])
  | ifThenElse {c x : Tree} :
      TupleLang.Built Γ levels c → TupleLang.Built Γ levels x →
      Built Γ levels (.tail .ifThenElse [c, x])
  | select {c x : Tree} :
      TupleLang.Built Γ (levels + 1) c → TupleLang.Built Γ levels x →
      Built Γ levels (.tail .select [c, x])

/-- All operands are trees that can be read. -/
def OperandsBuilt (Γ : Env) (levels : Nat) (operands : List Tree) : Prop :=
  ∀ t ∈ operands, Built Γ (levels + 1) t

/-- All operators that wait become trees that can be read. -/
def PendingBuilt (Γ : Env) (levels : Nat) (pending : List TreePending) : Prop :=
  ∀ w, .waiting w ∈ pending → w.Built Γ levels

/-- A frame becomes a tree that can be read. -/
structure TreeFrame.Built (Γ : Env) (levels : Nat) (f : TreeFrame) : Prop where
  operands : OperandsBuilt Γ levels f.operands
  pending : PendingBuilt Γ levels f.pending

variable {operands operands' : List Tree} {pending pending' : List TreePending} {f : TreeFrame}

/-- One more tree that can be built. -/
theorem OperandsBuilt.cons {t : Tree} (ht : Built Γ (levels + 1) t)
    (h : OperandsBuilt Γ levels operands) : OperandsBuilt Γ levels (t :: operands) :=
  List.forall_mem_cons.mpr ⟨ht, h⟩

/-- What is pending below can be built. -/
theorem PendingBuilt.tail {p : TreePending} (h : PendingBuilt Γ levels (p :: pending)) :
    PendingBuilt Γ levels pending := fun w hw => h w (List.mem_cons_of_mem p hw)

/-- A frame gets an operand that can be built. -/
theorem TreeFrame.Built.push {t : Tree} (h : f.Built Γ levels)
    (ht : TupleLang.Built Γ (levels + 1) t) :
    (f.push t).Built Γ levels := ⟨h.operands.cons ht, h.pending⟩

/-- A frame gets an operator to wait for. -/
theorem TreeFrame.Built.await {w : TreeWaiting} (h : f.Built Γ levels) (hw : w.Built Γ levels) :
    (f.await w).Built Γ levels := by
  refine ⟨h.operands, fun v hv => ?_⟩
  rcases List.mem_cons.mp hv with heq | hv
  · rw [TreePending.waiting.inj heq]
    exact hw
  · exact h.pending v hv

namespace Env

/-- Reducing an operator gives operands that can be built. -/
theorem built_reduce {w : TreeWaiting} (hw : w.Built Γ levels)
    (hoperands : OperandsBuilt Γ levels operands) (h : Γ.reduce operands w = some operands') :
    OperandsBuilt Γ levels operands' := by
  cases w with
  | single op =>
    obtain ⟨hflat⟩ := hw
    rw [reduce] at h
    split at h
    · cases h
    · rename_i hlen
      obtain ⟨t, ht, rfl⟩ := Option.map_eq_some_iff.mp h
      refine OperandsBuilt.cons (.flat hflat ?_ (fun x hx => ?_) ht) fun x hx => ?_
      · rw [List.length_reverse, List.length_take]
        omega
      · exact hoperands x (List.mem_of_mem_take (List.mem_reverse.mp hx))
      · exact hoperands x (List.mem_of_mem_drop hx)
  | tail op inner =>
    cases operands with
    | nil => cases h
    | cons y operands =>
      obtain ⟨t, ht, rfl⟩ := Option.map_eq_some_iff.mp h
      obtain ⟨hy, hoperands⟩ := List.forall_mem_cons.mp hoperands
      refine OperandsBuilt.cons ?_ hoperands
      -- the operand on top completes what was built for the operator so far
      cases hw with
      | @typeTest _ x hop hx =>
        refine .flat ?_ ?_ (List.forall_mem_cons.mpr ⟨hx, by simpa using hy⟩) ht
        · rcases List.mem_pair.mp hop with rfl | rfl <;> rfl
        · rcases List.mem_pair.mp hop with rfl | rfl <;> rfl
      | ifThenElse hc hx => exact .ifThenElse hc hx hy ht
      | select hc hx => exact .select hc hx hy ht

/-- So does reducing operators of a precedence, and what stays pending can be built. -/
theorem built_reduceWhile {precedence : Nat} (hpending : PendingBuilt Γ levels pending)
    (hoperands : OperandsBuilt Γ levels operands)
    (h : Γ.reduceWhile precedence operands pending = some (operands', pending')) :
    OperandsBuilt Γ levels operands' ∧ PendingBuilt Γ levels pending' := by
  induction pending generalizing operands with
  | nil =>
    rw [reduceWhile] at h
    · obtain ⟨rfl, rfl⟩ := Prod.mk.inj (Option.some.inj h)
      exact ⟨hoperands, hpending⟩
    · exact fun _ _ hp => by cases hp
  | cons p pending ih =>
    cases p with
    | opening =>
      obtain ⟨rfl, rfl⟩ := Prod.mk.inj (Option.some.inj h)
      exact ⟨hoperands, hpending⟩
    | waiting w =>
      rw [reduceWhile] at h
      split at h
      · obtain ⟨reduced, hreduce, h⟩ := Option.bind_eq_some_iff.mp h
        have hw := hpending w List.mem_cons_self
        exact ih hpending.tail (built_reduce hw hoperands hreduce) h
      · obtain ⟨rfl, rfl⟩ := Prod.mk.inj (Option.some.inj h)
        exact ⟨hoperands, hpending⟩

/-- So does closing a group. -/
theorem built_closeGroup (hpending : PendingBuilt Γ levels pending)
    (hoperands : OperandsBuilt Γ levels operands)
    (h : Γ.closeGroup operands pending = some (operands', pending')) :
    OperandsBuilt Γ levels operands' ∧ PendingBuilt Γ levels pending' := by
  induction pending generalizing operands with
  | nil => cases h
  | cons p pending ih =>
    cases p with
    | opening =>
      obtain ⟨rfl, rfl⟩ := Prod.mk.inj (Option.some.inj h)
      exact ⟨hoperands, hpending.tail⟩
    | waiting w =>
      obtain ⟨reduced, hreduce, h⟩ := Option.bind_eq_some_iff.mp h
      have hw := hpending w List.mem_cons_self
      exact ih hpending.tail (built_reduce hw hoperands hreduce) h

/-- So does closing all groups. -/
theorem built_closeAll (hpending : PendingBuilt Γ levels pending)
    (hoperands : OperandsBuilt Γ levels operands)
    (h : Γ.closeAll operands pending = some operands') : OperandsBuilt Γ levels operands' := by
  induction pending generalizing operands with
  | nil =>
    rw [← Option.some.inj h]
    exact hoperands
  | cons p pending ih =>
    cases p with
    | opening => cases h
    | waiting w =>
      obtain ⟨reduced, hreduce, h⟩ := Option.bind_eq_some_iff.mp h
      have hw := hpending w List.mem_cons_self
      exact ih hpending.tail (built_reduce hw hoperands hreduce) h

/-- What a frame comes to in the end can be built. -/
theorem built_finish {t : Tree} (hf : f.Built Γ levels) (h : Γ.finish f = some t) :
    Built Γ (levels + 1) t := by
  obtain ⟨-, hclose⟩ := finish_eq_some h
  exact built_closeAll hf.pending hf.operands hclose t List.mem_cons_self

end Env

end Frames

/-- Operators of one token are flat. -/
theorem Operator.isFlat_of_ofSpelling? {text : String} {leading : Bool} {op : Operator}
    (h : ofSpelling? text leading = some op) : op.isFlat = true := by
  unfold ofSpelling? at h
  split at h <;> split at h <;> cases h <;> rfl

namespace Grammar

section Steps

variable {Γ : Env} {levels : Nat} {ts : List String} {f f' : TreeFrame} {ls ls' : List Lexeme}
  (hinner : ∀ ts, (∀ w ∈ ts, w ∈ stops) → Gets (Built Γ levels) (frame Γ levels ts))
  (hts : ∀ w ∈ ts, w ∈ stops) (hf : f.Built Γ levels) (hls : AllFit ls)

/-- Arguments of a call, each of which has its place among the names. -/
structure ArgsBuilt (Γ : Env) (levels : Nat) (r : List Tree × List (Option String)) : Prop where
  args : ∀ x ∈ r.1, Built Γ levels x
  names : r.2.length = r.1.length

include hinner

/-- The arguments of a call can be built. -/
theorem gets_callArgs (rounds : Nat) {args : List Tree} {names : List (Option String)}
    (h : ArgsBuilt Γ levels (args, names)) :
    Gets (ArgsBuilt Γ levels) (callArgs (frame Γ levels) rounds args names) := by
  induction rounds generalizing args names with
  | zero =>
    intro ls x rest _ h
    cases h
  | succ rounds ih =>
    intro ls x rest hls hargs
    rw [callArgs] at hargs
    obtain ⟨⟨name, ls₁⟩, hname, hargs⟩ := Option.bind_eq_some_iff.mp hargs
    obtain ⟨⟨arg, ls₂⟩, harg, hargs⟩ := Option.bind_eq_some_iff.mp hargs
    obtain ⟨-, hls₁⟩ := gets_name _ ls name ls₁ hls hname
    obtain ⟨hbuilt, hls₂⟩ := hinner [] (by simp) ls₁ arg ls₂ hls₁ harg
    -- the new argument is built like those in front of it
    have hmore : ArgsBuilt Γ levels (args ++ [arg], names ++ [name]) := by
      refine ⟨fun y hy => ?_, by simp [h.names]⟩
      rcases List.mem_append.mp hy with hy | hy
      · exact h.args y hy
      · rwa [List.mem_singleton.mp hy]
    dsimp only at hargs
    split at hargs
    · exact ih hmore _ x rest (hls₂.drop 1) hargs
    · obtain ⟨rfl, rfl⟩ := Prod.mk.inj (Option.some.inj hargs)
      exact ⟨hmore, hls₂.drop 1⟩
    · cases hargs

include hls

/-- A call can be built. -/
theorem gets_call (hkind : (ahead ls 0).kind = .ident) {t : Tree}
    (h : call Γ (frame Γ levels) ls = some (t, ls')) : Built Γ (levels + 1) t ∧ AllFit ls' := by
  rw [call] at h
  obtain ⟨⟨⟨args, names⟩, ls₁⟩, hargs, h⟩ := Option.bind_eq_some_iff.mp h
  obtain ⟨t', hbind, hx⟩ := Option.map_eq_some_iff.mp h
  obtain ⟨rfl, rfl⟩ := Prod.mk.inj hx
  have hbuilt : ArgsBuilt Γ levels (args, names) ∧ AllFit ls₁ := by
    split at hargs
    · obtain ⟨hpair, rfl⟩ := Prod.mk.inj (Option.some.inj hargs)
      obtain ⟨rfl, rfl⟩ := Prod.mk.inj hpair
      exact ⟨⟨by simp, rfl⟩, (hls.drop 2).drop 1⟩
    · exact gets_callArgs hinner _ ⟨by simp, rfl⟩ _ _ _ (hls.drop 2) hargs
  exact ⟨.call ((hls.ahead 0).ident hkind) hbuilt.1.args hbuilt.1.names hbind, hbuilt.2⟩

/-- An operand can be built. -/
theorem gets_operand {t : Tree} (h : operand Γ (frame Γ levels) levels ls = some (t, ls')) :
    Built Γ (levels + 1) t ∧ AllFit ls' := by
  rw [operand] at h
  split at h
  · rename_i hkind
    split at h
    · exact gets_call hinner hls hkind h
    · obtain ⟨rfl, rfl⟩ := Prod.mk.inj (Option.some.inj h)
      have hident : IsIdent (ahead ls 0).text := (hls.ahead 0).ident hkind
      refine ⟨?_, hls.drop 1⟩
      rw [identifier]
      split
      · rename_i cell hcell
        exact .named hident hcell
      · rename_i hcell
        exact .name hident hcell
  · rename_i hkind
    obtain ⟨⟨d, ls₁⟩, hd, hx⟩ := Option.map_eq_some_iff.mp h
    obtain ⟨rfl, rfl⟩ := Prod.mk.inj hx
    exact ⟨.literal (spoken_read hls (by simp [hkind]) hd), (gets_read levels _ _ _ hls hd).2⟩
  · rename_i hkind
    obtain ⟨⟨d, ls₁⟩, hd, hx⟩ := Option.map_eq_some_iff.mp h
    obtain ⟨rfl, rfl⟩ := Prod.mk.inj hx
    exact ⟨.literal (spoken_read hls (by simp [hkind]) hd), (gets_read levels _ _ _ hls hd).2⟩
  · split at h
    · rename_i hkind
      obtain ⟨d, hd, hx⟩ := Option.map_eq_some_iff.mp h
      obtain ⟨rfl, rfl⟩ := Prod.mk.inj hx
      exact ⟨.literal (spoken_scalar (hls.ahead 0) hkind hd), hls.drop 1⟩
    · cases h

include hts hf

/-- Reading an infix operator gives a frame that can be built. -/
theorem built_infixed (h : infixed Γ (frame Γ levels) ts f ls = some (f', ls')) :
    f'.Built Γ levels ∧ AllFit ls' := by
  -- the left operand comes from the frame once the operators before it are completed
  have hresolve : ∀ {precedence : Nat} {resolve : Tree → Scan (Operator × List Tree)},
      (∀ left, Built Γ (levels + 1) left → ∀ r rest, resolve left (ls.drop 1) = some (r, rest) →
        (TreeWaiting.tail r.1 r.2).Built Γ levels ∧ AllFit rest) →
      resolveAfter Γ f precedence resolve ls = some (f', ls') →
      f'.Built Γ levels ∧ AllFit ls' := by
    intro precedence resolve hresolve h
    rw [resolveAfter] at h
    obtain ⟨⟨operands, pending⟩, hreduce, h⟩ := Option.bind_eq_some_iff.mp h
    obtain ⟨hoperands, hpending⟩ := Env.built_reduceWhile hf.pending hf.operands hreduce
    cases operands with
    | nil => cases h
    | cons left operands =>
      obtain ⟨r, hr, hx⟩ := Option.map_eq_some_iff.mp h
      obtain ⟨rfl, rfl⟩ := Prod.mk.inj hx
      obtain ⟨hleft, hoperands⟩ := List.forall_mem_cons.mp hoperands
      obtain ⟨hw, hrest⟩ := hresolve left hleft _ _ hr
      exact ⟨TreeFrame.Built.await ⟨hoperands, hpending⟩ hw, hrest⟩
  rw [infixed] at h
  split at h
  · refine hresolve (fun left hleft r rest hr => ?_) h
    rw [selection] at hr
    obtain ⟨⟨x, ls₁⟩, hx, hr⟩ := Option.bind_eq_some_iff.mp hr
    have hstops : ∀ w ∈ ":" :: ts, w ∈ stops := List.forall_mem_cons.mpr ⟨by decide, hts⟩
    obtain ⟨hbuilt, hls₁⟩ := hinner _ hstops _ _ _ (hls.drop 1) hx
    dsimp only at hr
    split at hr
    · obtain ⟨rfl, rfl⟩ := Prod.mk.inj (Option.some.inj hr)
      exact ⟨.select hleft hbuilt, hls₁.drop 1⟩
    · cases hr
  · split at h
    · refine hresolve (fun left hleft r rest hr => ?_) h
      rw [typeTest] at hr
      split at hr
      · obtain ⟨rfl, rfl⟩ := Prod.mk.inj (Option.some.inj hr)
        exact ⟨.typeTest (by simp) hleft, (hls.drop 1).drop 1⟩
      · obtain ⟨rfl, rfl⟩ := Prod.mk.inj (Option.some.inj hr)
        exact ⟨.typeTest (by simp) hleft, hls.drop 1⟩
    · obtain ⟨op, hop, h⟩ := Option.bind_eq_some_iff.mp h
      obtain ⟨⟨operands, pending⟩, hreduce, hx⟩ := Option.map_eq_some_iff.mp h
      obtain ⟨rfl, rfl⟩ := Prod.mk.inj hx
      obtain ⟨hoperands, hpending⟩ := Env.built_reduceWhile hf.pending hf.operands hreduce
      exact ⟨TreeFrame.Built.await ⟨hoperands, hpending⟩
        (.single (Operator.isFlat_of_ofSpelling? hop)), hls.drop 1⟩

/-- A conditional without `else` waits for the operand that has been read in vain. -/
def AwaitsBranch (Γ : Env) (levels : Nat) (ts : List String) (f f' : TreeFrame) (ls : List Lexeme) :
    Prop :=
  ∃ c x rest, f' = f.await (.tail .ifThen [c]) ∧ frame Γ levels ("else" :: ts) ls = some (x, rest) ∧
    (ahead rest 0).isWord "else" = false ∧ Built Γ levels c ∧ Built Γ levels x ∧ AllFit rest

/-- So does reading a prefix operator, or the frame awaits a branch. -/
theorem built_prefixed (h : prefixed Γ (frame Γ levels) ts f ls = some (f', ls')) :
    f'.Built Γ levels ∧ AllFit ls' ∨ AwaitsBranch Γ levels ts f f' ls' := by
  rw [prefixed] at h
  split at h
  · obtain ⟨r, hr, hx⟩ := Option.map_eq_some_iff.mp h
    obtain ⟨rfl, rfl⟩ := Prod.mk.inj hx
    rw [conditional] at hr
    obtain ⟨⟨c, ls₁⟩, hc, hr⟩ := Option.bind_eq_some_iff.mp hr
    have hthens : ∀ w ∈ "then" :: "then" :: ts, w ∈ stops :=
      List.forall_mem_cons.mpr ⟨by decide, List.forall_mem_cons.mpr ⟨by decide, hts⟩⟩
    obtain ⟨hcond, hls₁⟩ := hinner _ hthens _ _ _ (hls.drop 1) hc
    dsimp only at hr
    split at hr
    · obtain ⟨⟨x, ls₂⟩, htrial, hr⟩ := Option.bind_eq_some_iff.mp hr
      have helses : ∀ w ∈ "else" :: ts, w ∈ stops := List.forall_mem_cons.mpr ⟨by decide, hts⟩
      obtain ⟨hbranch, hls₂⟩ := hinner _ helses _ _ _ (hls₁.drop 1) htrial
      dsimp only at hr
      split at hr
      · obtain rfl := Option.some.inj hr
        exact .inl ⟨hf.await (.ifThenElse hcond hbranch), hls₂.drop 1⟩
      · rename_i helse
        obtain rfl := Option.some.inj hr
        -- without an `else` the branch was a trial, and is read again
        exact .inr ⟨c, x, ls₂, rfl, htrial, by simpa using helse, hcond, hbranch, hls₂⟩
    · cases hr
  · left
    obtain ⟨op, hop, h⟩ := Option.bind_eq_some_iff.mp h
    have hflat := Operator.isFlat_of_ofSpelling? hop
    split at h
    · rename_i harity
      obtain ⟨t, ht, hx⟩ := Option.map_eq_some_iff.mp h
      obtain ⟨rfl, rfl⟩ := Prod.mk.inj hx
      have hnone : ([] : List Tree).length = op.arity := harity.symm
      exact ⟨hf.push (.flat hflat hnone (by simp) ht), hls.drop 1⟩
    · obtain ⟨rfl, rfl⟩ := Prod.mk.inj (Option.some.inj h)
      exact ⟨hf.await (.single hflat), hls.drop 1⟩

/-- So does each step of a frame. -/
theorem built_step (h : step Γ (frame Γ levels) ts f levels ls = some (f', ls')) :
    f'.Built Γ levels ∧ AllFit ls' ∨ AwaitsBranch Γ levels ts f f' ls' := by
  -- only an operator in front of its operand may leave a branch to be read again
  have hoperator : (if f.lastOperand = true then infixed Γ (frame Γ levels) ts f ls
      else prefixed Γ (frame Γ levels) ts f ls) = some (f', ls') →
        f'.Built Γ levels ∧ AllFit ls' ∨ AwaitsBranch Γ levels ts f f' ls' := by
    intro h
    split at h
    · exact .inl (built_infixed hinner hts hf hls h)
    · exact built_prefixed hinner hts hf hls h
  rw [step] at h
  split at h
  · left
    split at h
    · obtain ⟨⟨operands, pending⟩, hclose, hx⟩ := Option.map_eq_some_iff.mp h
      obtain ⟨rfl, rfl⟩ := Prod.mk.inj hx
      obtain ⟨hoperands, hpending⟩ := Env.built_closeGroup hf.pending hf.operands hclose
      exact ⟨⟨hoperands, hpending⟩, hls.drop 1⟩
    · cases h
  · left
    split at h
    · cases h
    · obtain ⟨rfl, rfl⟩ := Prod.mk.inj (Option.some.inj h)
      refine ⟨⟨hf.operands, fun w hw => ?_⟩, hls.drop 1⟩
      rcases List.mem_cons.mp hw with heq | hw
      · cases heq
      · exact hf.pending w hw
  · exact hoperator h
  · exact hoperator h
  · left
    split at h
    · cases h
    · obtain ⟨⟨t, ls₁⟩, ht, hx⟩ := Option.map_eq_some_iff.mp h
      obtain ⟨rfl, rfl⟩ := Prod.mk.inj hx
      obtain ⟨hbuilt, hrest⟩ := gets_operand hinner hls ht
      exact ⟨hf.push hbuilt, hrest⟩

/-- A frame becomes a tree that can be read, whatever it takes in. -/
theorem built_runs {t : Tree} {rest : List Lexeme} (h : runs Γ levels ts f ls = some (t, rest)) :
    Built Γ (levels + 1) t ∧ AllFit rest := by
  induction hn : ls.length using Nat.strong_induction_on generalizing f ls with
  | _ n ih =>
    cases hend : f.endsAt ts (ahead ls 0) with
    | true =>
      rw [runs_of_endsAt hend] at h
      obtain ⟨t', hfinish, hx⟩ := Option.map_eq_some_iff.mp h
      obtain ⟨rfl, rfl⟩ := Prod.mk.inj hx
      exact ⟨Env.built_finish hf hfinish, hls⟩
    | false =>
      have hne : ls ≠ [] := by
        rintro rfl
        rw [endsAt_nil] at hend
        cases hend
      have hpos := List.length_pos_of_ne_nil hne
      rw [runs_of_not_endsAt hend] at h
      obtain ⟨⟨f', ls'⟩, hstep, h⟩ := Option.bind_eq_some_iff.mp h
      have hle := passes_step (passes_frame Γ levels) ts f levels _ _ _ hstep
      rcases built_step hinner hts hf hls hstep with ⟨hf', hls'⟩ | hawaits
      · exact ih ls'.length (by omega) hf' hls' h rfl
      · -- the branch is completed at once, so that it is known to stand one level deeper
        obtain ⟨c, x, ls₂, rfl, hx, helse, hc, hbranch, hls₂⟩ := hawaits
        have hle₂ := passes_frame Γ levels _ _ _ _ hx
        rw [runs_ifThen hts hx helse] at h
        obtain ⟨t', hbind, h⟩ := Option.bind_eq_some_iff.mp h
        exact ih ls₂.length (by omega) (hf.push (.ifThen hc hbranch hbind)) hls₂ h rfl

end Steps

/-- A frame gives a tree that is read with as many levels of nesting as the frame has. -/
theorem gets_frame (Γ : Env) (levels : Nat) {ts : List String} (hts : ∀ w ∈ ts, w ∈ stops) :
    Gets (Built Γ levels) (frame Γ levels ts) := by
  induction levels generalizing ts with
  | zero =>
    intro ls x rest _ h
    cases h
  | succ levels ih =>
    intro ls x rest hls h
    have hempty : ({} : TreeFrame).Built Γ levels :=
      ⟨fun t ht => absurd ht List.not_mem_nil, fun w hw => absurd hw List.not_mem_nil⟩
    exact built_runs (fun ts hts => ih hts) hts hempty hls h

end Grammar

end TupleLang
