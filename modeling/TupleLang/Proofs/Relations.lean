import TupleLang.Builtin.Catalogue
import TupleLang.Proofs.Flight
import TupleLang.Proofs.Overload
import TupleLang.Proofs.Ownership

/-!
# Relations

A relational operator asks one question of how two values compare (`Operator.test`). The language's
own relational operators ask it of the order of their type, all operators of a type of the same
order (`Builtin.direct`), and so do the relations between an integer and zero of the order of
integers.

At a scope that knows the language's own actions and none besides for integers (`Tuple.Furnished`),
a relation between integers is bound to the language's own action.
-/

namespace TupleLang

/-! ## Questions about an order -/

namespace Operator

/-- What a relational operator asks of how two values compare. -/
def test : Operator → Ordering → Bool
  | eq => Ordering.isEq
  | ne => Ordering.isNe
  | lt => Ordering.isLT
  | le => Ordering.isLE
  | gt => Ordering.isGT
  | ge => Ordering.isGE
  | _ => fun _ => false

/-- What the relational operators answer is in order: of `<`, `==` and `>` exactly one holds, and
the others are negations of these. -/
structure Trichotomous (answer : Operator → Bool) : Prop where
  one : [lt, eq, gt].countP answer = 1
  le : answer le = !answer gt
  ge : answer ge = !answer lt
  ne : answer ne = !answer eq

/-- The answers about one and the same order are in order. -/
theorem trichotomous_test (o : Ordering) : Trichotomous fun op => op.test o := by
  cases o <;> exact ⟨by decide, by decide, by decide, by decide⟩

/-- Relational operators go by different names. -/
theorem eq_of_actionName {op op' : Operator} (hop : op.isRelational = true)
    (hop' : op'.isRelational = true) (h : op.actionName = op'.actionName) : op = op' := by
  cases op <;> cases hop <;> cases op' <;> cases hop' <;> first | rfl | exact absurd h (by decide)

end Operator

namespace Builtin

/-- A relational operator on values of a type. -/
def relates (op : Operator) (type : String) (n : Native)
    (order : n.Carrier → n.Carrier → Ordering) : Action :=
  relation op.actionName type n order op.test

/-- The language's own actions have different signatures. -/
theorem nodup_signatures : (catalogue.map Action.signature).Nodup := by decide +kernel

/-- The relational operators of a type that has them all. -/
theorem relates_mem_comparisons {op : Operator} (hop : op.isRelational = true) (type : String)
    (n : Native) (order : n.Carrier → n.Carrier → Ordering) :
    relates op type n order ∈ comparisons type n order := by
  cases op <;> cases hop <;> simp [relates, comparisons, equality, Operator.actionName,
    Operator.spelling, Operator.test]

/-- The relations between integers are among the language's own actions. -/
theorem relates_int_mem_catalogue {op : Operator} (hop : op.isRelational = true) :
    relates op "int" .int (Word.compare .int) ∈ catalogue := by
  have hmem := relates_mem_comparisons hop "int" .int (Word.compare .int)
  simp only [catalogue, numeric, List.mem_append]
  tauto

/-- The types with relational operators of their own, and the orders that these ask about. -/
def direct : List (String × (n : Native) × (n.Carrier → n.Carrier → Ordering)) :=
  [("byte", ⟨.byte, fun (a b : UInt8) => compare a.toNat b.toNat⟩),
   ("char", ⟨.char, fun (a b : Char) => compare a.toNat b.toNat⟩),
   ("int", ⟨.int, Word.compare .int⟩),
   ("long", ⟨.long, Word.compare .long⟩),
   ("index", ⟨.unsigned, Word.compare .unsigned⟩),
   ("bits", ⟨.unsigned, Word.compare .unsigned⟩),
   ("text", ⟨.text, fun (a b : String) => compare a b⟩),
   ("bool", ⟨.bool, fun (a b : Bool) => compare a b⟩)]

/-- The language's own actions but for comparisons. -/
def others : List Action :=
  arithmetic .int "int" ++ arithmetic .long "long" ++ arithmetic .unsigned "index"
    ++ [negation .int "int", negation .long "long"]
    ++ bitwise .int "int" ++ bitwise .long "long" ++ bitwise .unsigned "bits" ++ floats
    ++ logic ++ texts ++ conversions ++ magnitudes ++ generic ++ control

/-- Every action of the language is a comparison on one of the types or none at all. -/
theorem mem_catalogue_cases {a : Action} (h : a ∈ catalogue) :
    (∃ e ∈ direct, a ∈ comparisons e.1 e.2.1 e.2.2) ∨ a ∈ others := by
  have hbool : ∀ a ∈ equality "bool" .bool (fun (a b : Bool) => compare a b),
      a ∈ comparisons "bool" .bool (fun (a b : Bool) => compare a b) :=
    fun a ha => List.mem_append_left _ ha
  simp only [catalogue, numeric, List.mem_append] at h
  simp only [direct, List.exists_mem_cons_iff, others, List.mem_append]
  grind

/-- The comparisons of a type are its relational operators and the three-way comparison. -/
theorem mem_comparisons {a : Action} {type : String} {n : Native}
    {order : n.Carrier → n.Carrier → Ordering} (h : a ∈ comparisons type n order) :
    (∃ op : Operator, op.isRelational = true ∧ a = relates op type n order) ∨
      a = threeWay type n order := by
  simp only [comparisons, equality, List.cons_append, List.nil_append, List.mem_cons,
    List.not_mem_nil, or_false] at h
  rcases h with rfl | rfl | rfl | rfl | rfl | rfl | rfl
  · exact .inl ⟨.eq, rfl, rfl⟩
  · exact .inl ⟨.ne, rfl, rfl⟩
  · exact .inl ⟨.lt, rfl, rfl⟩
  · exact .inl ⟨.le, rfl, rfl⟩
  · exact .inl ⟨.gt, rfl, rfl⟩
  · exact .inl ⟨.ge, rfl, rfl⟩
  · exact .inr rfl

/-- A relation among the comparisons of a type is told by its operator. -/
theorem eq_relates_of_mem_comparisons {a : Action} {op : Operator} (hop : op.isRelational = true)
    {type : String} {n : Native} {order : n.Carrier → n.Carrier → Ordering}
    (ha : a ∈ comparisons type n order) (hname : a.name = op.actionName) :
    a = relates op type n order := by
  rcases mem_comparisons ha with ⟨op', hop', rfl⟩ | rfl
  · rw [Operator.eq_of_actionName hop' hop hname]
  · have hcmp : Operator.cmp.actionName = op.actionName := hname
    cases op <;> cases hop <;> exact absurd hcmp (by decide)

/-- The language's own relational operators are those on the types with operators of their own. -/
theorem eq_relates_of_mem_catalogue {a : Action} {op : Operator} (hop : op.isRelational = true)
    (ha : a ∈ catalogue) (hname : a.name = op.actionName) :
    ∃ e ∈ direct, a = relates op e.1 e.2.1 e.2.2 := by
  rcases mem_catalogue_cases ha with ⟨e, he, hmem⟩ | hother
  · exact ⟨e, he, eq_relates_of_mem_comparisons hop hmem hname⟩
  · have hall : (others.all fun a => a.name != op.actionName) = true := by
      cases op <;> cases hop <;> decide +kernel
    have hne := List.all_eq_true.mp hall a hother
    simp [hname] at hne

/-- A type has one relational operator of a name. -/
theorem eq_relates_of_owner {a : Action} {op : Operator} (hop : op.isRelational = true)
    {e : String × (n : Native) × (n.Carrier → n.Carrier → Ordering)} (he : e ∈ direct)
    (ha : a ∈ catalogue) (hname : a.name = op.actionName) (howner : a.signature.owner = .leaf e.1) :
    a = relates op e.1 e.2.1 e.2.2 := by
  obtain ⟨e', he', rfl⟩ := eq_relates_of_mem_catalogue hop ha hname
  have htype : e'.1 = e.1 := by
    have howner : TypeDesc.leaf e'.1 = .leaf e.1 := howner
    simpa using howner
  have hnodup : (direct.map (·.1)).Nodup := by decide
  rw [List.inj_on_of_nodup_map hnodup he' he htype]

/-- The only relation on integers of a name is the language's own. -/
theorem eq_relates_int {a : Action} {op : Operator} (hop : op.isRelational = true)
    (ha : a ∈ catalogue) (hname : a.name = op.actionName)
    (howner : a.signature.owner = .leaf "int") : a = relates op "int" .int (Word.compare .int) := by
  have hint : ("int", ⟨Native.int, Word.compare .int⟩) ∈ direct := by simp [direct]
  exact eq_relates_of_owner hop hint ha hname howner

end Builtin

/-! ## Relations between integers -/

namespace Signature

variable {s o : Signature}

/-- The key is all there is to a signature. -/
theorem key_injective (h : s.key = o.key) : s = o := by
  cases s
  cases o
  simpa [key] using h

/-- In a call without names every argument is bound to the declared one in its own place. -/
theorem declares_of_bindArgs {declared actual : List TypeDesc.Field} {i : Nat}
    {taken positions : List Nat} (hnames : ∀ f ∈ actual, f.1 = none)
    (h : bindArgs declared i taken actual = some positions) {j : Nat} {d e : TypeDesc.Field}
    (hd : declared[i + j]? = some d) (he : actual[j]? = some e) :
    d.2.compatibleWith e.2 = true := by
  induction actual generalizing i j taken positions with
  | nil => simp at he
  | cons f rest ih =>
    obtain ⟨name, type⟩ := f
    obtain rfl : name = none := hnames _ List.mem_cons_self
    simp only [bindArgs, declaredPosition?] at h
    obtain ⟨hfree, hrest⟩ := Option.ite_none_right_eq_some.mp h
    obtain ⟨ps, hps, rfl⟩ := Option.map_eq_some_iff.mp hrest
    cases j with
    | zero =>
      obtain rfl : (none, type) = e := by simpa using he
      simp only [Nat.add_zero] at hd
      simpa [hd] using (Bool.and_eq_true _ _ |>.mp hfree).2
    | succ j =>
      refine ih (fun f hf => hnames f (List.mem_cons_of_mem _ hf)) hps (j := j) ?_ ?_
      rotate_left
      · simpa using he
      rwa [show i + 1 + j = i + (j + 1) by omega]

/-- A signature that declares what a call without names brings refines all that accept the call. -/
theorem refines_of_accepts (hnames : ∀ f ∈ s.args.fields, f.1 = none)
    (h : o.accepts s.owner s.args = true) : s.refines o = true := by
  obtain ⟨howner, hsome⟩ := Bool.and_eq_true _ _ |>.mp h
  obtain ⟨positions, hpos⟩ := Option.isSome_iff_exists.mp hsome
  unfold declaredPositions at hpos
  obtain ⟨hsize, hbind⟩ := Option.ite_none_right_eq_some.mp hpos
  refine refines_iff.mpr ⟨howner, hsize, fun i d e hd he => ?_⟩
  exact declares_of_bindArgs hnames hbind (by rwa [Nat.zero_add]) he

end Signature

namespace Tuple

variable {t t' : Tuple} {op : Operator} {a : Action}

/-- The language's own relations between integers are registered, and no actions on integers but the
language's own. -/
structure Furnished (t : Tuple) : Prop where
  own : ∀ {op : Operator}, op.isRelational = true →
    Builtin.relates op "int" .int (Word.compare .int) ∈ t.actions.map (·.2)
  foreign : ∀ a ∈ t.actions.map (·.2), a.signature.owner = .leaf "int" → a ∈ Builtin.catalogue

/-- A relation between integers is bound to the language's own action: it refines whatever else
accepts integers, and nothing that is not on integers refines it. -/
theorem Furnished.mostSpecific_relates (h : t.Furnished) (htabled : t.Tabled)
    (hop : op.isRelational = true) :
    Choice.mostSpecific (t.overloads op.actionName (.leaf "int") (.leaves ["int"])) =
      .one (Builtin.relates op "int" .int (Word.compare .int)) := by
  have hown : Builtin.relates op "int" .int (Word.compare .int) ∈
      t.overloads op.actionName (.leaf "int") (.leaves ["int"]) :=
    List.mem_filter.mpr ⟨h.own hop, by cases op <;> cases hop <;> rfl⟩
  have hmem : ∀ b, b ∈ t.overloads op.actionName (.leaf "int") (.leaves ["int"]) →
      b ∈ t.actions.map (·.2) ∧ b.name = op.actionName ∧
        b.signature.accepts (.leaf "int") (.leaves ["int"]) = true := by
    intro b hb
    obtain ⟨hreg, htest⟩ := List.mem_filter.mp hb
    obtain ⟨-, hname, haccepts⟩ := of_decide_eq_true htest
    exact ⟨hreg, hname, haccepts⟩
  have hrefines : ∀ b ∈ t.overloads op.actionName (.leaf "int") (.leaves ["int"]),
      (Builtin.relates op "int" .int (Word.compare .int)).signature.refines b.signature = true := by
    intro b hb
    refine Signature.refines_of_accepts (fun f hf => ?_) (hmem b hb).2.2
    rw [List.mem_singleton.mp hf]
  refine (Choice.mostSpecific_eq_one_iff htabled.nodup_overloads).mpr ⟨⟨?_, ?_⟩, ?_⟩
  · exact hown
  · exact fun b hb _ => hrefines b hb
  · intro b hb
    by_contra hne
    -- an action that refines the one on integers is on integers itself
    obtain ⟨hreg, hname, -⟩ := hmem b hb.mem
    have howner := (Signature.refines_iff.mp (hb.refines _ hown (Ne.symm hne))).1
    have howner : b.signature.owner = .leaf "int" := by
      have hcompat : TypeDesc.compatibleWith (.leaf "int") b.signature.owner = true := howner
      cases hb : b.signature.owner <;>
        simp_all [TypeDesc.compatibleWith, TypeDesc.isNamed, TypeDesc.leafName?]
    exact hne (Builtin.eq_relates_int hop (h.foreign b hreg howner) hname howner)

/-- The table `t'` has come about from `t` by registering actions: there is one of each signature.
-/
structure Registers (t : Tuple) (actions : List Action) (t' : Tuple) : Prop where
  tabled : t'.Tabled
  permissions : t'.permissions = t.permissions
  parent : t'.parent = t.parent
  entries : t'.entries = t.entries
  registered : ∀ a, a ∈ t.actions.map (·.2) ∨ a ∈ actions →
    ∃ b ∈ t'.actions.map (·.2), b.signature.key = a.signature.key
  origin : ∀ b ∈ t'.actions.map (·.2), b ∈ t.actions.map (·.2) ∨ b ∈ actions

/-- Registering an action whose signature is taken changes nothing. -/
theorem registers_after (htabled : t.Tabled) (hpermitted : t.permissions.actions = true)
    (a : Action) : t.Registers [a] (Change.after t (.insertAction a)) := by
  cases hfound : t.action? a.signature with
  | none =>
    have hafter : Change.after t (.insertAction a) = { t with
        actions := t.actions ++ [(a.signature.key, a)]
        byName := pushKey t.byName a.name a.signature.key } := by
      rw [Change.after, Change.make, Tuple.insertAction, require, if_pos hpermitted, hfound]
      rfl
    refine ⟨.foldl htabled [.insertAction a], by rw [hafter], by rw [hafter], by rw [hafter],
      fun b hb => ?_, fun b hb => ?_⟩
    · exact ⟨b, by simpa [hafter] using hb, rfl⟩
    · simpa [hafter] using hb
  | some b =>
    have hafter : Change.after t (.insertAction a) = t := by
      rw [Change.after, Change.make, Tuple.insertAction, require, if_pos hpermitted, hfound]
      rfl
    have hb := (lookup_eq_some_iff_mem htabled.keys).mp hfound
    rw [hafter]
    refine ⟨htabled, rfl, rfl, rfl, fun c hc => ?_, fun c hc => .inl hc⟩
    rcases hc with hc | hc
    · exact ⟨c, hc, rfl⟩
    · rw [List.mem_singleton.mp hc]
      exact ⟨b, List.mem_map_of_mem hb, (htabled.signatures _ hb).symm⟩

/-- Actions are registered one after the other. -/
theorem registers_foldl (htabled : t.Tabled) (hpermitted : t.permissions.actions = true)
    (actions : List Action) :
    t.Registers actions ((actions.map Change.insertAction).foldl Change.after t) := by
  induction actions generalizing t with
  | nil =>
    exact ⟨htabled, rfl, rfl, rfl, fun a ha => ⟨a, by simpa using ha, rfl⟩, fun b hb => .inl hb⟩
  | cons a rest ih =>
    have hfirst := registers_after htabled hpermitted a
    have hrest := ih hfirst.tabled (hfirst.permissions ▸ hpermitted)
    refine ⟨hrest.tabled, hrest.permissions.trans hfirst.permissions,
      hrest.parent.trans hfirst.parent, hrest.entries.trans hfirst.entries, fun b hb => ?_,
      fun b hb => ?_⟩
    · by_cases hlater : b ∈ rest
      · exact hrest.registered b (.inr hlater)
      · obtain ⟨c, hc, hkey⟩ := hfirst.registered b (by simpa [hlater] using hb)
        obtain ⟨d, hd, hkey'⟩ := hrest.registered c (.inl hc)
        exact ⟨d, hd, hkey'.trans hkey⟩
    · rcases hrest.origin b hb with hb | hb
      · rcases hfirst.origin b hb with hb | hb
        · exact .inl hb
        · exact .inr (List.mem_singleton.mp hb ▸ List.mem_cons_self)
      · exact .inr (List.mem_cons_of_mem _ hb)

/-- Registering all of the language's own actions, and further ones that are not on integers,
furnishes an empty table. An action that has the signature of a relation between integers is that
relation. -/
theorem Registers.furnished {actions : List Action}
    (h : t.Registers (Builtin.catalogue ++ actions) t') (hempty : t.actions = [])
    (hactions : ∀ a ∈ actions, a.signature.owner ≠ .leaf "int") : t'.Furnished := by
  have horigin : ∀ b ∈ t'.actions.map (·.2), b.signature.owner = .leaf "int" →
      b ∈ Builtin.catalogue := by
    intro b hb howner
    rcases h.origin b hb with hb | hb
    · simp [hempty] at hb
    · exact (List.mem_append.mp hb).resolve_right fun hb => hactions b hb howner
  refine ⟨fun {op} hop => ?_, horigin⟩
  have hown := List.mem_append_left actions (Builtin.relates_int_mem_catalogue hop)
  obtain ⟨b, hb, hkey⟩ := h.registered _ (.inr hown)
  have hsignature := Signature.key_injective hkey
  have howner : b.signature.owner = .leaf "int" := congrArg Signature.owner hsignature
  have hname : b.name = op.actionName := congrArg Signature.name hsignature
  rwa [← Builtin.eq_relates_int hop (horigin b hb howner) hname howner]

end Tuple

/-- A table that is made of actions registers them. -/
theorem Draft.registers_tableOf (actions : List Action) :
    Tuple.Registers { kind := .custom "global", permissions := .all, parent := none } actions
      (tableOf actions) :=
  Tuple.registers_foldl (.empty rfl rfl rfl rfl) rfl actions

namespace Store

variable {s : Store} {t : Tuple}

/-- Registering actions at the root changes the table of the root, as far as they are not refused.
-/
theorem tuple?_foldl_define (actions : List Action) (ht : s.tuple? s.root = some t) :
    (actions.foldl define s).tuple? s.root =
        some ((actions.map Tuple.Change.insertAction).foldl Tuple.Change.after t) ∧
      (actions.foldl define s).root = s.root := by
  induction actions generalizing s t with
  | nil => exact ⟨ht, rfl⟩
  | cons a rest ih =>
    have hdefine : (s.define a).tuple? s.root = some (Tuple.Change.after t (.insertAction a)) ∧
        (s.define a).root = s.root := by
      have hafter :
          Tuple.Change.after t (.insertAction a) = (t.insertAction a).toOption.getD t := rfl
      rw [hafter]
      cases hinsert : t.insertAction a with
      | ok t' =>
        have hrun : StoreM.registerAction s.root a s = .ok () (s.putTuple s.root t') :=
          StoreM.update_eq_ok.mpr ⟨t, t', ht, by rw [hinsert]; rfl, rfl⟩
        rw [define, hrun]
        exact ⟨(tuple?_putTuple ht t' s.root).trans (if_pos rfl), rfl⟩
      | error e =>
        have hrun : StoreM.registerAction s.root a s = .error e s := by
          simp only [StoreM.registerAction, StoreM.update, StoreM.tuple, tuple, bind, EStateM.bind,
            get, getThe, MonadStateOf.get, EStateM.get, ht, hinsert, StoreM.ofExcept, pure,
            EStateM.pure]
          rfl
        rw [define, hrun]
        exact ⟨ht, rfl⟩
    obtain ⟨htuple, hroot⟩ := hdefine
    rw [List.foldl_cons, List.map_cons, List.foldl_cons, ← hroot]
    exact ih (hroot ▸ htuple)

/-- The outermost scope around the root is the root. -/
theorem rootOf_root (ht : s.tuple? s.root = some t) (hparent : t.parent = none) :
    s.rootOf s.root = s.root := by
  unfold rootOf scopeChain
  cases s.arena.slots.size with
  | zero => rfl
  | succ n => simp [chainWithin, ht, hparent]

/-- Actions are looked for in the table of the language's own actions and those registered in a new
store since. -/
theorem consults_foldl_define (settings : Settings) (actions : List Action) :
    (actions.foldl define (withSettings settings)).Consults
      (actions.foldl define (withSettings settings)).root
      (Draft.tableOf (Builtin.catalogue ++ actions)) := by
  -- said of any store, so that nothing is computed from this one
  have hregister : ∀ s : Store, s.tuple? s.root = some (Draft.tableOf Builtin.catalogue) →
      (actions.foldl define { s with settings }).Consults
        (actions.foldl define { s with settings }).root
        (Draft.tableOf (Builtin.catalogue ++ actions)) := by
    intro s hs
    obtain ⟨htuple, hroot⟩ := tuple?_foldl_define (s := { s with settings }) actions hs
    have hregisters := Draft.registers_tableOf (Builtin.catalogue ++ actions)
    have htable : Draft.tableOf (Builtin.catalogue ++ actions) =
        (actions.map Tuple.Change.insertAction).foldl Tuple.Change.after
          (Draft.tableOf Builtin.catalogue) := by
      rw [Draft.tableOf, List.map_append, List.foldl_append]
      rfl
    rw [← htable] at htuple
    generalize actions.foldl define { s with settings } = s' at htuple hroot ⊢
    rw [← hroot] at htuple
    exact ⟨(congrArg _ (rootOf_root htuple hregisters.parent)).trans htuple, hregisters.tabled⟩
  obtain ⟨htuple, hroot⟩ := tuple?_foldl_define (s := bare {}) Builtin.catalogue rfl
  rw [withSettings]
  refine hregister standard ?_
  rw [standard, hroot]
  exact htuple

/-- A new store in which further actions are registered, none of them on integers, is furnished. -/
theorem furnished_foldl_define (settings : Settings) {actions : List Action}
    (hactions : ∀ a ∈ actions, a.signature.owner ≠ .leaf "int") :
    let s := actions.foldl define (withSettings settings)
    ∃ t, s.Consults s.root t ∧ t.Furnished :=
  ⟨_, consults_foldl_define settings actions, (Draft.registers_tableOf _).furnished rfl hactions⟩

/-- The actions of a new store are the language's own, each under its signature. -/
theorem action?_withSettings {settings : Settings} {signature : Signature} {a : Action} :
    (withSettings settings).action? (withSettings settings).root signature = some a ↔
      a ∈ Builtin.catalogue ∧ a.signature = signature := by
  have hconsults := consults_foldl_define settings []
  rw [List.append_nil] at hconsults
  have hregisters := Draft.registers_tableOf Builtin.catalogue
  have horigin : ∀ b ∈ (Draft.tableOf Builtin.catalogue).actions.map (·.2),
      b ∈ Builtin.catalogue := fun b hb => (hregisters.origin b hb).resolve_left nofun
  generalize Draft.tableOf Builtin.catalogue = t at hconsults hregisters horigin
  have htable : (withSettings settings).tuple?
      ((withSettings settings).rootOf (withSettings settings).root) = some t := hconsults.root
  have hfound : (withSettings settings).action? (withSettings settings).root signature = some a ↔
      (signature.key, a) ∈ t.actions := by
    rw [action?, htable, Option.bind_some, Tuple.action?,
      Tuple.lookup_eq_some_iff_mem hregisters.tabled.keys]
  rw [hfound]
  constructor
  · intro hmem
    have hkey : signature.key = a.signature.key := hregisters.tabled.signatures _ hmem
    exact ⟨horigin a (List.mem_map_of_mem hmem), (Signature.key_injective hkey).symm⟩
  · rintro ⟨hmem, rfl⟩
    obtain ⟨b, hb, hkey⟩ := hregisters.registered a (.inr hmem)
    -- no two of the language's own actions have the same signature
    obtain rfl := List.inj_on_of_nodup_map Builtin.nodup_signatures (horigin b hb) hmem
      (Signature.key_injective hkey)
    obtain ⟨⟨key, c⟩, hentry, rfl⟩ := List.mem_map.mp hb
    obtain rfl : key = c.signature.key := hregisters.tabled.signatures _ hentry
    exact hentry

end Store

end TupleLang
