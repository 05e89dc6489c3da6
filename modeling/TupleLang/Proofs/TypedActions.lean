import TupleLang.Proofs.Conditionals
import TupleLang.Proofs.HeapTyping
import TupleLang.Proofs.Relations
import TupleLang.Proofs.Wildcard

/-!
# Types of actions

A body asks for operands of certain types, and where it ends normally its result has a type that
follows from theirs (`Body.Types`). The signatures of the language's own actions say the same: an
action that accepts operands of some types has a body for these types, and the result has the type
that the signature resolves to (`Action.types_of_operator`, `Action.types_of_function`).

Applied to operands of such types, in a store with typed places, a body comes to a result of the
expected type or fails in one of few ways; none of them is a misread operand or a missing one
(`leads_apply_typing`). Only the number of elements cannot be told of every value.
-/

namespace TupleLang

/-! ## Bodies -/

/-- From operands of the types `types` the body makes a value of type `type` if it ends normally. -/
inductive Body.Types : Body → (types : List TypeDesc) → (type : TypeDesc) → Prop
  | unary {a r : Native} {returns : String} {f : a.Carrier → Except Condition r.Carrier}
      {x : TypeDesc} : x.leafName?.any a.accepts → r.accepts returns →
      Types (.unary a r returns f) [x] (.leaf returns)
  | binary {a b r : Native} {returns : String}
      {f : a.Carrier → b.Carrier → Except Condition r.Carrier} {x y : TypeDesc} :
      x.leafName?.any a.accepts → y.leafName?.any b.accepts → r.accepts returns →
      Types (.binary a b r returns f) [x, y] (.leaf returns)
  | compound {a b : Native} {f : a.Carrier → b.Carrier → Except Condition a.Carrier}
      {x y : TypeDesc} : x.leafName?.any a.accepts → y.leafName?.any b.accepts →
      Types (.compound a b f) [x, y] x
  | assign {x y : TypeDesc} : Types .assign [x, y] x
  | choose {t : TypeDesc} {rest : List TypeDesc} : Types .choose (.leaf "bool" :: t :: rest) t
  | typeTest {expected : Bool} {x : TypeDesc} :
      Types (.typeTest expected) [x, .leaf "type"] (.leaf "bool")
  | returns {x type : TypeDesc} : Types .returns [x] type
  | raises {type : TypeDesc} : Types .raises [.leaf "name"] type
  | signal {s : Signal} {types : List TypeDesc} {type : TypeDesc} : s ≠ .normal →
      Types (.signal s) types type
  | textOf {x : TypeDesc} : Types .textOf [x] (.leaf "text")
  | length {x : TypeDesc} : Types .length [x] (.leaf "index")
  | typeOf {x : TypeDesc} : Types .typeOf [x] (.leaf "type")

namespace Signature

/-- Declared types of all operands: an operator has its owner in front of its arguments. -/
def operands (s : Signature) : List TypeDesc :=
  if s.category = operatorCategory then s.owner :: s.args.fields.map (·.2)
  else s.args.fields.map (·.2)

/-- Type of the result for operands of the given types. The wildcard stands for the type of the
first operand that is declared as one. -/
def result (s : Signature) (types : List TypeDesc) : TypeDesc :=
  if s.returns.isAny then
    (((s.operands.zip types).find? (·.1.isAny)).map (·.2)).getD .any
  else s.returns

end Signature

/-- Whether the body is one for operands of the declared types and for the declared result. -/
def Action.isFitting (a : Action) : Bool :=
  match a.body, a.signature.operands with
  | .unary n r returns _, [x] =>
    x.leafName?.any n.accepts && r.accepts returns && a.signature.returns == .leaf returns
  | .binary m n r returns _, [x, y] =>
    x.leafName?.any m.accepts && y.leafName?.any n.accepts && r.accepts returns &&
      a.signature.returns == .leaf returns
  | .compound m n _, [x, y] =>
    x.leafName?.any m.accepts && y.leafName?.any n.accepts && a.signature.returns == x
  | .assign, [x, _] => x.isAny && a.signature.returns.isAny
  | .choose, x :: y :: _ => x == .leaf "bool" && y.isAny && a.signature.returns.isAny
  | .typeTest _, [_, y] => y == .leaf "type" && a.signature.returns == .leaf "bool"
  | .returns, [_] => true
  | .raises, [x] => x == .leaf "name"
  | .signal s, _ => s != .normal
  | .textOf, [_] => a.signature.returns == .leaf "text"
  | .length, [_] => a.signature.returns == .leaf "index"
  | .typeOf, [_] => a.signature.returns == .leaf "type"
  | _, _ => false

/-- The bodies of the language's own actions are for what their signatures declare. -/
theorem Builtin.isFitting_of_mem_catalogue {a : Action} (h : a ∈ Builtin.catalogue) :
    a.isFitting = true := by
  have hall : Builtin.catalogue.all Action.isFitting = true := by decide +kernel
  exact List.all_eq_true.mp hall a h

namespace Action

variable {a : Action} {types : List TypeDesc}

/-- A type that is read with a native type is not the wildcard, and compatible with itself only. -/
theorem isAny_of_admits {n : Native} {x : TypeDesc} (hx : x.leafName?.any n.accepts = true) :
    x.isAny = false ∧ ∀ t, x.compatibleWith t = true → t = x := by
  cases x with
  | tree fields => cases hx
  | leaf name =>
    have hany : name ≠ "any" := (Native.ne_of_accepts (n := n) hx).2
    refine ⟨?_, fun t ht => (TypeDesc.leaf_compatibleWith_iff.mp ht).resolve_left hany⟩
    simpa [TypeDesc.isAny, TypeDesc.isNamed, TypeDesc.leafName?] using hany

/-- A result that is no wildcard has the declared type. -/
theorem result_eq_of_returns {s : Signature} {type : TypeDesc} (h : s.returns = type)
    (hany : type.isAny = false) : s.result types = type := by
  rw [Signature.result, h, hany]
  rfl

/-- A fitting body is for operands that are compatible with the declared ones, and for the type that
the signature gives the result. -/
theorem types_of_isFitting (h : a.isFitting = true)
    (htypes : List.Forall₂ (fun x t => x.compatibleWith t = true) a.signature.operands types) :
    a.body.Types types (a.signature.result types) := by
  -- what a native type accepts is brought as it is declared
  have hsame : ∀ {n : Native} {x t : TypeDesc}, x.leafName?.any n.accepts = true →
      x.compatibleWith t = true → t.leafName?.any n.accepts = true := by
    intro n x t hx ht
    rwa [(isAny_of_admits hx).2 t ht]
  have hnamed : ∀ {name : String} {t : TypeDesc}, name ≠ "any" →
      (TypeDesc.leaf name).compatibleWith t = true → t = .leaf name :=
    fun hname ht => (TypeDesc.leaf_compatibleWith_iff.mp ht).resolve_left hname
  unfold isFitting at h
  split at h
  case h_1 hbody hops =>
    simp only [Bool.and_eq_true, beq_iff_eq] at h
    rw [hops] at htypes
    rcases htypes with _ | ⟨hx, _ | _⟩
    rw [hbody, result_eq_of_returns h.2 (isAny_of_admits (x := .leaf _) h.1.2).1]
    exact .unary (hsame h.1.1 hx) h.1.2
  case h_2 hbody hops =>
    simp only [Bool.and_eq_true, beq_iff_eq] at h
    rw [hops] at htypes
    rcases htypes with _ | ⟨hx, _ | ⟨hy, _ | _⟩⟩
    obtain ⟨⟨⟨hm, hn⟩, hr⟩, hreturns⟩ := h
    rw [hbody, result_eq_of_returns hreturns (isAny_of_admits (x := .leaf _) hr).1]
    exact .binary (hsame hm hx) (hsame hn hy) hr
  case h_3 hbody hops =>
    simp only [Bool.and_eq_true, beq_iff_eq] at h
    rw [hops] at htypes
    rcases htypes with _ | ⟨hx, _ | ⟨hy, _ | _⟩⟩
    obtain ⟨⟨hm, hn⟩, hreturns⟩ := h
    rw [hbody, result_eq_of_returns hreturns (isAny_of_admits hm).1, ← (isAny_of_admits hm).2 _ hx]
    exact .compound (hsame hm hx) (hsame hn hy)
  case h_4 hbody hops =>
    simp only [Bool.and_eq_true] at h
    rw [hops] at htypes
    rcases htypes with _ | ⟨hx, _ | ⟨hy, _ | _⟩⟩
    rw [hbody, Signature.result, if_pos h.2, hops, List.zip_cons_cons,
      List.find?_cons_of_pos (by exact h.1)]
    exact .assign
  case h_5 hbody hops =>
    simp only [Bool.and_eq_true, beq_iff_eq] at h
    rw [hops] at htypes
    rcases htypes with _ | ⟨hx, _ | ⟨hy, _⟩⟩
    obtain ⟨⟨rfl, hany⟩, hreturns⟩ := h
    obtain rfl := hnamed (by decide) hx
    rw [hbody, Signature.result, if_pos hreturns, hops, List.zip_cons_cons, List.zip_cons_cons,
      List.find?_cons_of_neg (by decide), List.find?_cons_of_pos (by exact hany)]
    exact .choose
  case h_6 hbody hops =>
    simp only [Bool.and_eq_true, beq_iff_eq] at h
    rw [hops] at htypes
    rcases htypes with _ | ⟨hx, _ | ⟨hy, _ | _⟩⟩
    obtain ⟨rfl, hreturns⟩ := h
    obtain rfl := hnamed (by decide) hy
    rw [hbody, result_eq_of_returns hreturns rfl]
    exact .typeTest
  case h_7 hbody hops =>
    rw [hops] at htypes
    rcases htypes with _ | ⟨hx, _ | _⟩
    rw [hbody]
    exact .returns
  case h_8 hbody hops =>
    rw [hops] at htypes
    rcases htypes with _ | ⟨hx, _ | _⟩
    obtain rfl := beq_iff_eq.mp h
    obtain rfl := hnamed (by decide) hx
    rw [hbody]
    exact .raises
  case h_9 hbody =>
    rw [hbody]
    exact .signal (bne_iff_ne.mp h)
  case h_10 hbody hops =>
    rw [hops] at htypes
    rcases htypes with _ | ⟨hx, _ | _⟩
    rw [hbody, result_eq_of_returns (beq_iff_eq.mp h) rfl]
    exact .textOf
  case h_11 hbody hops =>
    rw [hops] at htypes
    rcases htypes with _ | ⟨hx, _ | _⟩
    rw [hbody, result_eq_of_returns (beq_iff_eq.mp h) rfl]
    exact .length
  case h_12 hbody hops =>
    rw [hops] at htypes
    rcases htypes with _ | ⟨hx, _ | _⟩
    rw [hbody, result_eq_of_returns (beq_iff_eq.mp h) rfl]
    exact .typeOf
  case h_13 => cases h

end Action

/-! ## Operands that are accepted -/

/-- A function of the language has no owner. -/
theorem Builtin.owner_of_mem_catalogue {a : Action} (h : a ∈ Builtin.catalogue)
    (hcategory : a.signature.category ≠ Signature.operatorCategory) :
    a.signature.owner = .void := by
  have hall : (Builtin.catalogue.all fun a => a.signature.category == Signature.operatorCategory ||
      a.signature.owner == .void) = true := by decide +kernel
  have hown := List.all_eq_true.mp hall a h
  rw [Bool.or_eq_true, beq_iff_eq, beq_iff_eq] at hown
  exact hown.resolve_left hcategory

namespace Signature

variable {s : Signature} {owner : TypeDesc} {types : List TypeDesc}

/-- Arguments without names that are accepted are compatible with the declared ones, in order. -/
theorem forall₂_of_accepts (h : s.accepts owner (.ofList types) = true) :
    s.owner.compatibleWith owner = true ∧
      List.Forall₂ (fun x t => x.compatibleWith t = true) (s.args.fields.map (·.2)) types := by
  obtain ⟨howner, hargs⟩ := Bool.and_eq_true _ _ |>.mp h
  obtain ⟨positions, hpositions⟩ := Option.isSome_iff_exists.mp hargs
  obtain ⟨hsize, hbind⟩ := declaredPositions_eq_some.mp hpositions
  have hlength : s.args.fields.length = types.length := by
    simpa [TypeDesc.size, TypeDesc.ofList, TypeDesc.fields] using hsize
  refine ⟨howner, List.forall₂_iff_get.mpr ⟨by simpa using hlength, fun i hi hi' => ?_⟩⟩
  have hi : i < s.args.fields.length := by simpa using hi
  have hcompatible := declares_of_bindArgs (by simp [TypeDesc.ofList, TypeDesc.fields]) hbind
    (j := i) (d := s.args.fields[i]) (e := (none, types[i])) (by simp [hi])
    (by simp [TypeDesc.ofList, TypeDesc.fields, hi'])
  simpa using hcompatible

/-- The type of a result is told from the declared arguments and the actual ones, in order. -/
theorem find?_zip_fields : ((s.args.fields.zip (TypeDesc.ofList types).fields).find?
    fun p => p.1.2.isAny).map (·.2.2) =
      (((s.args.fields.map (·.2)).zip types).find? (·.1.isAny)).map (·.2) := by
  change ((s.args.fields.zip (types.map (none, ·))).find? _).map _ = _
  rw [List.zip_map_left, List.zip_map_right, List.find?_map, List.find?_map, Option.map_map,
    Option.map_map]
  rfl

theorem resolveReturn_operator (h : s.category = operatorCategory) :
    s.resolveReturn owner (.ofList types) = s.result (owner :: types) := by
  unfold resolveReturn result operands
  rw [if_pos h, List.zip_cons_cons]
  cases hreturns : s.returns.isAny with
  | false => rfl
  | true =>
    cases howner : s.owner.isAny with
    | true => rw [List.find?_cons_of_pos (by exact howner)]; rfl
    | false =>
      rw [List.find?_cons_of_neg (by simp [howner]), ← find?_zip_fields]
      cases (s.args.fields.zip (TypeDesc.ofList types).fields).find? fun p => p.1.2.isAny <;> rfl

theorem resolveReturn_function (h : s.category ≠ operatorCategory) (howner : s.owner = .void) :
    s.resolveReturn owner (.ofList types) = s.result types := by
  unfold resolveReturn result operands
  rw [if_neg h, howner, ← find?_zip_fields]
  cases hreturns : s.returns.isAny with
  | false => rfl
  | true =>
    cases (s.args.fields.zip (TypeDesc.ofList types).fields).find? fun p => p.1.2.isAny <;> rfl

end Signature

/-- An operator of the language that accepts an owner and arguments has a body for these. -/
theorem Action.types_of_operator {a : Action} {owner : TypeDesc} {types : List TypeDesc}
    (ha : a ∈ Builtin.catalogue) (hcategory : a.signature.category = Signature.operatorCategory)
    (haccepts : a.signature.accepts owner (.ofList types) = true) :
    a.body.Types (owner :: types) (a.signature.resolveReturn owner (.ofList types)) := by
  obtain ⟨howner, hargs⟩ := Signature.forall₂_of_accepts haccepts
  rw [Signature.resolveReturn_operator hcategory]
  refine types_of_isFitting (Builtin.isFitting_of_mem_catalogue ha) ?_
  rw [Signature.operands, if_pos hcategory]
  exact .cons howner hargs

/-- A function of the language that accepts arguments has a body for these. -/
theorem Action.types_of_function {a : Action} {owner : TypeDesc} {types : List TypeDesc}
    (ha : a ∈ Builtin.catalogue) (hcategory : a.signature.category ≠ Signature.operatorCategory)
    (haccepts : a.signature.accepts owner (.ofList types) = true) :
    a.body.Types types (a.signature.resolveReturn owner (.ofList types)) := by
  rw [Signature.resolveReturn_function hcategory (Builtin.owner_of_mem_catalogue ha hcategory)]
  refine types_of_isFitting (Builtin.isFitting_of_mem_catalogue ha) ?_
  rw [Signature.operands, if_neg hcategory]
  exact (Signature.forall₂_of_accepts haccepts).2

/-! ## Bodies on operands -/

/-- Of two computations in a row one has failed. -/
theorem error_of_bind {ε α β : Type} {x : Except ε α} {f : α → Except ε β} {e : ε}
    (h : (x >>= f) = .error e) : x = .error e ∨ ∃ a, f a = .error e := by
  cases x with
  | error e' =>
    cases h
    exact .inl rfl
  | ok a => exact .inr ⟨a, h⟩

namespace Store

variable {s : Store}

/-- A tuple has no text if it is gone, or if it contains itself. -/
theorem ofEvaluation_of_tuplePieces {fuel : Nat} {enclosing : Option TupleKind} {id : TupleId}
    {e : Error} (h : s.tuplePieces fuel enclosing id = .error e) : e.OfEvaluation := by
  induction fuel generalizing enclosing id e with
  | zero =>
    cases h
    trivial
  | succ fuel ih =>
    have hentries : ∀ (entries : List Attribute) (kind : Option TupleKind) first state e,
        s.entriesPieces (s.tuplePieces fuel kind) first state entries = .error e →
          e.OfEvaluation := by
      intro entries kind
      induction entries with
      | nil => exact fun _ _ _ h => nomatch h
      | cons entry rest ihrest =>
        intro first state e h
        rcases error_of_bind h with hentry | ⟨_, h⟩
        · unfold entryPieces at hentry
          split at hentry
          · rcases error_of_bind hentry with hnested | ⟨_, hdone⟩
            · exact ih hnested
            · cases hdone
          · cases hentry
        · rcases error_of_bind h with hrest | ⟨_, hdone⟩
          · exact ihrest _ _ _ hrest
          · cases hdone
    rcases error_of_bind h with htuple | ⟨t, h⟩
    · unfold Store.tuple at htuple
      split at htuple
      · cases htuple
      · cases htuple
        trivial
    · rcases error_of_bind h with hinner | ⟨_, hdone⟩
      · exact hentries _ _ _ _ _ hinner
      · cases hdone

theorem ofEvaluation_of_textIn {c : Cell} {e : Error} (h : Body.textIn s c = .error e) :
    e.OfEvaluation := by
  unfold Body.textIn cellText at h
  split at h
  · cases h
  · split at h
    · rcases error_of_bind h with hpieces | ⟨_, hdone⟩
      · exact ofEvaluation_of_tuplePieces hpieces
      · cases hdone
    · cases h

/-- The outcome is in a place of its own type, and that is `type` where control goes on normally. -/
def ResultOf (type : TypeDesc) (w : PlaceTypes) (r : Signal × Cell) : Prop :=
  r.2.Placed w ∧ (r.1 = .normal → r.2.type = type)

variable {w : PlaceTypes} {type : TypeDesc} {types : List TypeDesc} {E : Error → Prop}

theorem keeps_raised_typing (condition : String) :
    typing.Keeps w (Body.raised condition) (ResultOf type) E :=
  .bind (keeps_newNative_typing .name condition) fun _ _ _ hc => .pure fun _ hu =>
    ⟨placed_lasts hu hc.1, nofun⟩

theorem keeps_complete_typing {n : Native} {returns : String} (hn : n.accepts returns = true)
    (result : Except Condition n.Carrier) :
    typing.Keeps w (Body.complete returns n result) (ResultOf (.leaf returns)) E := by
  cases result with
  | error condition => exact keeps_raised_typing _
  | ok x =>
    refine .bind (keeps_newCell_typing (Value.suits_leaf hn x)) ?_
    exact fun _ _ _ hc => .pure fun _ hu => ⟨placed_lasts hu hc.1, fun _ => hc.2⟩

/-- A body, on operands that it is for, comes to a result of the type that is expected, or fails for
a reason that types say nothing of. -/
theorem keeps_effect_typing {body : Body} {operands : List Cell} (name : String)
    (h : body.Types types type) (hchoose : body ≠ .choose) (hlength : body ≠ .length)
    (hplaced : ∀ c ∈ operands, c.Placed w) (htypes : operands.map Cell.type = types) :
    typing.Keeps w (body.effect name operands.reverse) (ResultOf type) Error.OfEvaluation := by
  -- a cell that is made anew for the result
  have hnew : ∀ {v : PlaceTypes} {m : StoreM Cell} {type : TypeDesc},
      typing.Keeps v m (fun u c => c.Placed u ∧ c.type = type) Error.OfEvaluation →
      typing.Keeps v (do return (Signal.normal, ← m)) (ResultOf type) Error.OfEvaluation :=
    fun hm => .bind hm fun _ _ _ hc => .pure fun _ hu => ⟨placed_lasts hu hc.1, fun _ => hc.2⟩
  have hreads : ∀ {v : PlaceTypes} {c : Cell} {n : Native}, typing.Later w v → c.Placed w →
      c.type.leafName?.any n.accepts = true →
      typing.Keeps v (StoreM.read c n) (fun _ _ => True) Error.OfEvaluation :=
    fun hv hc hn => keeps_read_typing (placed_lasts hv hc) hn
  -- the operands, as many as there are types
  have hone : ∀ {x : TypeDesc}, types = [x] → ∃ c, operands = [c] ∧ c.Placed w ∧ c.type = x := by
    rintro x rfl
    obtain ⟨c, rfl, rfl⟩ := List.map_eq_singleton_iff.mp htypes
    exact ⟨c, rfl, hplaced c List.mem_cons_self, rfl⟩
  have htwo : ∀ {x y : TypeDesc}, types = [x, y] → ∃ c d, operands = [c, d] ∧
      (c.Placed w ∧ c.type = x) ∧ d.Placed w ∧ d.type = y := by
    rintro x y rfl
    obtain ⟨c, rest, rfl, rfl, hrest⟩ := List.map_eq_cons_iff.mp htypes
    obtain ⟨d, rfl, rfl⟩ := List.map_eq_singleton_iff.mp hrest
    exact ⟨c, d, rfl, ⟨hplaced c (by simp), rfl⟩, hplaced d (by simp), rfl⟩
  cases h with
  | unary hx hr =>
    obtain ⟨c, rfl, hc, rfl⟩ := hone rfl
    exact .andThen (hreads (typing.refl w) hc hx) fun _ _ _ => keeps_complete_typing hr _
  | binary hx hy hr =>
    obtain ⟨c, d, rfl, ⟨hc, rfl⟩, hd, rfl⟩ := htwo rfl
    refine .andThen (hreads (typing.refl w) hc hx) fun _ v hv => ?_
    exact .andThen (hreads hv hd hy) fun _ _ _ => keeps_complete_typing hr _
  | compound hx hy =>
    obtain ⟨c, d, rfl, ⟨hc, rfl⟩, hd, rfl⟩ := htwo rfl
    refine .andThen (hreads (typing.refl w) hc hx) fun _ v hv => ?_
    refine .andThen (hreads hv hd hy) fun _ u hu => ?_
    have hlater := typing.trans hv hu
    split
    · refine .andThen (keeps_write_typing (placed_lasts hlater hc) hx _) fun _ x hx => ?_
      exact .pure fun y hy =>
        ⟨placed_lasts (typing.trans hlater (typing.trans hx hy)) hc, fun _ => rfl⟩
    · exact keeps_raised_typing _
  | assign =>
    obtain ⟨c, d, rfl, ⟨hc, rfl⟩, hd, rfl⟩ := htwo rfl
    exact hnew (keeps_assignCell_typing hc hd)
  | choose => exact absurd rfl hchoose
  | typeTest =>
    obtain ⟨c, d, rfl, ⟨hc, rfl⟩, hd, htype⟩ := htwo rfl
    refine .andThen (hreads (n := .type) (typing.refl w) hd (by rw [htype]; rfl)) ?_
    exact fun _ v _ => hnew (keeps_newNative_typing .bool _)
  | returns =>
    obtain ⟨c, rfl, hc, rfl⟩ := hone rfl
    exact .pure fun v hv => ⟨placed_lasts hv hc, nofun⟩
  | raises =>
    obtain ⟨c, rfl, hc, htype⟩ := hone rfl
    refine .andThen (hreads (n := .name) (typing.refl w) hc (by rw [htype]; rfl)) ?_
    exact fun _ _ _ => keeps_raised_typing _
  | signal hsignal =>
    -- the last operand goes on with the signal, or a new cell does if there is none
    cases hlast : operands.reverse with
    | nil =>
      exact .bind keeps_newVoid_typing fun _ _ _ hc => .pure fun _ hu =>
        ⟨placed_lasts hu hc.1, fun h => absurd h hsignal⟩
    | cons c rest =>
      have hc : c ∈ operands := List.mem_reverse.mp (hlast ▸ List.mem_cons_self)
      exact .pure fun v hv => ⟨placed_lasts hv (hplaced c hc), fun h => absurd h hsignal⟩
  | textOf =>
    obtain ⟨c, rfl, -⟩ := hone rfl
    refine .get_bind fun _ _ _ _ => .andThen ?_ fun _ _ _ => hnew (keeps_newNative_typing .text _)
    exact .ofExcept (fun _ _ _ _ => trivial) fun _ => ofEvaluation_of_textIn
  | length => exact absurd rfl hlength
  | typeOf =>
    obtain ⟨c, rfl, -⟩ := hone rfl
    exact hnew (keeps_newNative_typing .type _)

/-- Applying an action, other than that of a conditional, to operands that it is for. The number of
elements is the one thing that may not be there for operands of the right types. -/
theorem leads_apply_typing {action : Action} {operands : List Cell} (host : Host) (name : String)
    (h : action.body.Types types type) (hchoose : action.body ≠ .choose) (hs : s.Typed w)
    (hplaced : ∀ c ∈ operands, c.Placed w) (htypes : operands.map Cell.type = types) :
    typing.Leads w s (action.apply host name operands) (ResultOf type) fun e => e.OfEvaluation ∨
      action.body = .length ∧ ∃ c, operands = [c] ∧ Body.lengthOf s c = .error e := by
  rw [Action.apply_eq fun label hbody => by rw [hbody] at h; cases h]
  by_cases hlength : action.body = .length
  · rw [hlength] at h ⊢
    cases h
    obtain ⟨c, rfl, -⟩ := List.map_eq_singleton_iff.mp htypes
    -- the number is asked for in the store at hand
    change typing.Leads w s (do
      let n ← StoreM.ofExcept (Body.lengthOf s c)
      return (.normal, ← StoreM.newNative .unsigned (UInt64.ofNat n)) : StoreM (Signal × Cell)) _ _
    refine Regime.Keeps.andThen (R := typing) (.ofExcept (fun _ _ _ _ => trivial) fun e he => ?_)
      (fun n v _ => ?_) w (typing.refl w) s hs
    · exact .inr ⟨rfl, c, rfl, he⟩
    · exact .bind (keeps_newNative_typing .unsigned _) fun _ _ _ hc => .pure fun _ hu =>
        ⟨placed_lasts hu hc.1, fun _ => hc.2⟩
  · exact (keeps_effect_typing name h hchoose hlength hplaced htypes w (typing.refl w) s hs).mono
      (fun _ _ _ h => h) fun _ => .inl

/-! ## Bodies on any operands -/

theorem keeps_write_placed {c : Cell} (hc : c.Placed w) (n : Native) (x : n.Carrier) :
    typing.Keeps w (StoreM.write c n x) (fun _ _ => True) fun _ => True := by
  intro v hv s hs
  refine .tryHeap hs (fun _ h hrun => ?_) fun _ _ => trivial
  cases hset : c.set s.heap n x with
  | error e => simp [hset, bind, Except.bind] at hrun
  | ok h' =>
    obtain rfl : h' = h := by simpa [hset, bind, Except.bind, pure, Except.pure] using hrun
    obtain ⟨-, hn, rfl⟩ := Cell.set_eq_ok_iff.mp hset
    exact ⟨v, typing.refl v, Typed.put hs (placed_lasts hv hc) (Value.suits_wrap hn x), trivial⟩

/-- Whatever the operands are, the result of a body is in a place of its own type: what is read and
written is looked at first. -/
def typingActing : Acting typing where
  toCopying := typingCopying
  Apt b := ∃ types type, b.Types types type
  ValueOk w c := c.Placed w
  value_lasts := placed_lasts
  source hc := hc
  own hc _ := hc
  void _ := keeps_newVoid_typing.weaken fun _ _ _ hc => hc.1
  native _ n x := (keeps_newNative_typing n x).weaken fun _ _ _ hc => hc.1
  unary := by
    rintro w a r returns f ⟨types, type, h⟩ x
    cases h with | unary _ hr =>
    exact (keeps_newCell_typing (Value.suits_leaf hr x)).weaken fun _ _ _ hc => hc.1
  binary := by
    rintro w a b r returns f ⟨types, type, h⟩ x
    cases h with | binary _ _ hr =>
    exact (keeps_newCell_typing (Value.suits_leaf hr x)).weaken fun _ _ _ hc => hc.1
  compound _ hc x := keeps_write_placed hc _ x
  assign _ hx hy := (keeps_assignCell_typing hx hy).mono (fun _ _ _ hc => hc.1) fun _ _ => trivial
  construct := by
    rintro w names id ⟨types, type, h⟩
    cases h

/-- An action of the language on placed operands has a result of its type. -/
theorem keeps_apply_placed {host : Host} {action : Action} {operands : List Cell}
    (h : action.body.Types types type) (hplaced : ∀ c ∈ operands, c.Placed w) (name : String) :
    typing.Keeps w (action.apply host name operands) (fun v r => r.2.Placed v) fun _ => True := by
  have hhost : ∀ label, action.body ≠ .host label := by
    intro label hbody
    rw [hbody] at h
    cases h
  exact typingActing.apply ⟨types, type, h⟩ hhost host name hplaced

end Store

end TupleLang
