import TupleLang.Proofs.Compatibility

/-!
# The order of types

Descriptors are ordered by three rules (`Before`): leaves by the bytes of their names, leaves before
trees, and trees like words in a dictionary, where the letters are the children, each with its name
and its type. A missing name comes before all others, and a tree before those that go on behind it.

Names are compared character by character. The order of their bytes is the same one, since the bytes
of a smaller character are smaller where they first differ from those of a greater one
(`nameBytes_lt_iff`).

The comparison tells which of two descriptors comes before the other (`orders_compare`), and the
rules make an order (`Before.trans`, `Before.irrefl`). So the comparison is a total order, and what
a list of descriptors is sorted to does not depend on where they stood in it
(`compare_is_a_total_order`).
-/

namespace TupleLang.TypeDesc

/-! ## Names by their bytes -/

section Names

variable {a b : String} {cs ds : List Char}

/-- The bytes that encode a name. -/
def nameBytes (name : String) : List UInt8 := name.toUTF8.data.toList

theorem nameBytes_eq_flatMap (name : String) :
    nameBytes name = name.toList.flatMap String.utf8EncodeChar := by
  rw [nameBytes, String.toUTF8, ← String.utf8Encode_toList, List.utf8Encode,
    List.toList_data_toByteArray]

/-- Lists of bytes are ordered by the numbers that stand first in them. -/
theorem ofNat_cons_lt_iff {m n : ℕ} (hm : m < 256) (hn : n < 256) {us vs : List UInt8} :
    UInt8.ofNat m :: us < UInt8.ofNat n :: vs ↔ m < n ∨ m = n ∧ us < vs := by
  rw [List.cons_lt_cons_iff, UInt8.lt_iff_toNat_lt, ← UInt8.toNat_inj,
    UInt8.toNat_ofNat_of_lt' hm, UInt8.toNat_ofNat_of_lt' hn]

/-- The bytes of a smaller character are smaller, whatever stands behind. -/
theorem utf8EncodeChar_append_lt {c d : Char} (h : c < d) (us vs : List UInt8) :
    String.utf8EncodeChar c ++ us < String.utf8EncodeChar d ++ vs := by
  have hcd : c.val.toNat < d.val.toNat := h
  have hd : d.val.toNat < 0x110000 := by
    rcases d.valid with hd | hd <;> omega
  have hdigits : ∀ n : ℕ, n / 4096 = n / 64 / 64 ∧ n / 262144 = n / 64 / 64 / 64 := by omega
  simp only [String.utf8EncodeChar, (hdigits _).1, (hdigits _).2]
  -- encodings of different lengths differ in the first byte, and those of one length are numbers of
  -- base 64, whose digits have marks added to them
  split_ifs <;>
    simp (disch := omega) only [List.cons_append, List.nil_append, ofNat_cons_lt_iff] <;> omega

/-- Encoding keeps the order of texts. -/
theorem flatMap_utf8EncodeChar_lt (h : cs < ds) :
    cs.flatMap String.utf8EncodeChar < ds.flatMap String.utf8EncodeChar := by
  induction h with
  | @nil d ds =>
    obtain ⟨u, us, hus⟩ := List.exists_cons_of_ne_nil (String.utf8EncodeChar_ne_nil (c := d))
    rw [List.flatMap_nil, List.flatMap_cons, hus, List.cons_append]
    exact List.nil_lt_cons u _
  | rel hcd => exact utf8EncodeChar_append_lt hcd _ _
  | cons _ ih => exact List.append_left_lt ih

/-- Names are ordered as their bytes are. -/
theorem nameBytes_lt_iff : nameBytes a < nameBytes b ↔ a < b := by
  have hmono : ∀ {a b : String}, a < b → nameBytes a < nameBytes b := by
    intro a b hab
    rw [nameBytes_eq_flatMap, nameBytes_eq_flatMap]
    exact flatMap_utf8EncodeChar_lt (String.lt_iff_toList_lt.mp hab)
  refine ⟨fun h => ?_, hmono⟩
  rcases lt_trichotomy a b with hab | rfl | hba
  · exact hab
  · exact absurd h (List.lt_irrefl _)
  · exact absurd h (List.lt_asymm (hmono hba))

end Names

/-! ## The rules of the order -/

/-- Names come in the order of their bytes, behind a missing one. -/
inductive NameBefore : Option String → Option String → Prop
  | missing (name : String) : NameBefore none (some name)
  | bytes {a b : String} : nameBytes a < nameBytes b → NameBefore (some a) (some b)

mutual

/-- The first descriptor comes before the second one. -/
inductive Before : TypeDesc → TypeDesc → Prop
  | leaf {a b : String} : nameBytes a < nameBytes b → Before (leaf a) (leaf b)
  | leaf_tree (a : String) (gs : List Field) : Before (leaf a) (tree gs)
  | tree {fs gs : List Field} : FieldsBefore fs gs → Before (tree fs) (tree gs)

/-- The first list of children comes before the second one. -/
inductive FieldsBefore : List Field → List Field → Prop
  | done (g : Field) (gs : List Field) : FieldsBefore [] (g :: gs)
  | name {m n : Option String} {a b : TypeDesc} {fs gs : List Field} : NameBefore m n →
      FieldsBefore ((m, a) :: fs) ((n, b) :: gs)
  | type {n : Option String} {a b : TypeDesc} {fs gs : List Field} : Before a b →
      FieldsBefore ((n, a) :: fs) ((n, b) :: gs)
  | rest {f : Field} {fs gs : List Field} : FieldsBefore fs gs →
      FieldsBefore (f :: fs) (f :: gs)

end

section Rules

variable {m n k : Option String} {fs : List Field}

/-- The order of names is transitive. -/
theorem NameBefore.trans : NameBefore m n → NameBefore n k → NameBefore m k
  | .missing _, .bytes _ => .missing _
  | .bytes h, .bytes h' => .bytes (List.lt_trans h h')

theorem NameBefore.irrefl : ¬NameBefore n n
  | .bytes h => List.lt_irrefl _ h

mutual

/-- The order of descriptors is transitive. -/
theorem Before.trans {a b c : TypeDesc} : Before a b → Before b c → Before a c
  | .leaf h, .leaf h' => .leaf (List.lt_trans h h')
  | .leaf _, .leaf_tree _ _ => .leaf_tree _ _
  | .leaf_tree _ _, .tree _ => .leaf_tree _ _
  | .tree h, .tree h' => .tree (h.trans h')

/-- Where two lists first differ from a third one decides, and at one place the name goes first. -/
theorem FieldsBefore.trans {fs gs hs : List Field} :
    FieldsBefore fs gs → FieldsBefore gs hs → FieldsBefore fs hs
  | .done _ _, .name _ => .done _ _
  | .done _ _, .type _ => .done _ _
  | .done _ _, .rest _ => .done _ _
  | .name h, .name h' => .name (h.trans h')
  | .name h, .type _ => .name h
  | .name h, .rest _ => .name h
  | .type _, .name h' => .name h'
  | .type h, .type h' => .type (h.trans h')
  | .type h, .rest _ => .type h
  | .rest _, .name h' => .name h'
  | .rest _, .type h' => .type h'
  | .rest h, .rest h' => .rest (h.trans h')

end

/-- A list of children does not come before itself if none of their types does. -/
theorem FieldsBefore.irrefl (h : ∀ f ∈ fs, ¬Before f.2 f.2) : ¬FieldsBefore fs fs := by
  induction fs with
  | nil => exact nofun
  | cons f fs ih =>
    intro hbefore
    cases hbefore with
    | name hname => exact hname.irrefl
    | type htype => exact h _ List.mem_cons_self htype
    | rest hrest => exact ih (fun g hg => h g (List.mem_cons_of_mem f hg)) hrest

/-- No descriptor comes before itself. -/
theorem Before.irrefl (t : TypeDesc) : ¬Before t t := by
  induction t using childInduction with
  | leaf name => exact fun | .leaf h => List.lt_irrefl _ h
  | tree fields ih => exact fun | .tree h => FieldsBefore.irrefl ih h

end Rules

/-! ## The comparison follows the rules -/

section Comparison

variable {α β : Type} {r : α → α → Prop} {s : β → β → Prop} {x y : α} {p q : β} {o o' : Ordering}

/-- The outcome of a comparison tells which of two values comes before the other in the order `r`.
-/
abbrev Orders (r : α → α → Prop) (o : Ordering) (x y : α) : Prop := @Ordering.Compares α ⟨r⟩ o x y

/-- The outcome tells the same of what is made of the values, if that keeps the order. -/
theorem Orders.map {f : α → β} (h : Orders r o x y) (hf : ∀ {x y}, r x y → s (f x) (f y)) :
    Orders s o (f x) (f y) := by
  cases o with
  | lt => exact hf h
  | eq => exact congrArg f h
  | gt => exact hf h

/-- The outcome for one part of two values decides unless the part is the same in both. -/
theorem Orders.then (h : Orders r o x y) (hlt : r x y → s p q) (hgt : r y x → s q p)
    (heq : x = y → Orders s o' p q) : Orders s (o.then o') p q := by
  cases o with
  | lt => exact hlt h
  | eq => exact heq h
  | gt => exact hgt h

theorem orders_compare_string (a b : String) :
    Orders (fun a b => nameBytes a < nameBytes b) (Ord.compare a b) a b := by
  have hlt : ∀ {a b : String}, Ord.compare a b = .lt → nameBytes a < nameBytes b := fun h =>
    nameBytes_lt_iff.mpr (compareOfLessAndEq_eq_lt.mp h)
  cases h : Ord.compare a b with
  | lt => exact hlt h
  | eq => exact Std.LawfulEqOrd.eq_of_compare h
  | gt => exact hlt (Std.OrientedCmp.gt_iff_lt.mp h)

theorem orders_compareName : (m n : Option String) → Orders NameBefore (compareName m n) m n
  | none, none => rfl
  | none, some b => .missing b
  | some a, none => .missing a
  | some a, some b => (orders_compare_string a b).map .bytes

mutual

theorem orders_compare : (a b : TypeDesc) → Orders Before (compare a b) a b
  | .leaf a, .leaf b => (orders_compare_string a b).map .leaf
  | .leaf a, .tree gs => .leaf_tree a gs
  | .tree fs, .leaf b => .leaf_tree b fs
  | .tree fs, .tree gs => (orders_compareFields fs gs).map .tree

theorem orders_compareFields : (fs gs : List Field) →
    Orders FieldsBefore (compareFields fs gs) fs gs
  | [], [] => rfl
  | [], g :: gs => .done g gs
  | f :: fs, [] => .done f fs
  | (m, a) :: fs, (n, b) :: gs => by
    rw [compareFields, Ordering.then_assoc]
    refine (orders_compareName m n).then .name .name ?_
    rintro rfl
    refine (orders_compare a b).then .type .type ?_
    rintro rfl
    exact (orders_compareFields fs gs).map .rest

end

end Comparison

/-! ## A total order -/

/-- The rules as an order. -/
instance : PartialOrder TypeDesc where
  le a b := a = b ∨ Before a b
  lt := Before
  le_refl _ := .inl rfl
  le_trans a b c := by
    rintro (rfl | hab) (rfl | hbc)
    · exact .inl rfl
    · exact .inr hbc
    · exact .inr hab
    · exact .inr (hab.trans hbc)
  lt_iff_le_not_ge a b := by
    refine ⟨fun hab => ⟨.inr hab, ?_⟩, fun ⟨hab, hba⟩ => hab.resolve_left fun h =>
      hba (.inl h.symm)⟩
    rintro (rfl | hba)
    · exact Before.irrefl _ hab
    · exact Before.irrefl a (hab.trans hba)
  le_antisymm a b := by
    rintro (rfl | hab) (hba | hba)
    · rfl
    · rfl
    · exact hba.symm
    · exact absurd (hab.trans hba) (Before.irrefl a)

/-- Of two descriptors the comparison tells which is the smaller one. -/
theorem compares_compare (a b : TypeDesc) : (compare a b).Compares a b := orders_compare a b

theorem isLE_compare {a b : TypeDesc} : (compare a b).isLE = true ↔ a ≤ b := by
  rw [Ordering.isLE_iff_ne_gt]
  exact (compares_compare a b).ne_gt

/-- Sorted lists are in ascending order. -/
theorem pairwise_sort (ts : List TypeDesc) :
    (sort ts).Pairwise fun a b => (compare a b).isLE = true := by
  refine List.pairwise_mergeSort (fun a b c => ?_) (fun a b => ?_) ts
  · simp only [isLE_compare]
    exact le_trans
  · simp only [Bool.or_eq_true, isLE_compare]
    exact (compares_compare a b).le_total

/-- What a list is sorted to does not depend on the places of its members. -/
theorem sort_eq_of_perm {ts us : List TypeDesc} (h : ts.Perm us) : sort ts = sort us := by
  have hperm : (sort ts).Perm (sort us) :=
    ((List.mergeSort_perm ts _).trans h).trans (List.mergeSort_perm us _).symm
  refine hperm.eq_of_pairwise (fun a b _ _ hab hba => ?_) (pairwise_sort ts) (pairwise_sort us)
  exact le_antisymm (isLE_compare.mp hab) (isLE_compare.mp hba)

/-- The comparison follows the rules of the order, and tells descriptors apart that are not equal.
It is reflexive, antisymmetric, transitive and total. Sorting brings the members of a list into this
order, and the same members are always sorted to the same list. -/
theorem compare_is_a_total_order (a b c : TypeDesc) (ts us : List TypeDesc) :
    (compare a b = .lt ↔ Before a b) ∧ (compare a b = .gt ↔ Before b a) ∧
    (compare a b = .eq ↔ a = b) ∧
      (compare a a).isLE = true ∧
      ((compare a b).isLE = true → (compare b a).isLE = true → a = b) ∧
      ((compare a b).isLE = true → (compare b c).isLE = true → (compare a c).isLE = true) ∧
      ((compare a b).isLE = true ∨ (compare b a).isLE = true) ∧
      (sort ts).Perm ts ∧ (sort ts).Pairwise (fun a b => (compare a b).isLE = true) ∧
      (ts.Perm us → sort ts = sort us) := by
  have hcompares := compares_compare a b
  simp only [isLE_compare]
  exact ⟨hcompares.eq_lt, hcompares.eq_gt, hcompares.eq_eq, le_rfl, le_antisymm, le_trans,
    hcompares.le_total, List.mergeSort_perm ts _,
    by simpa only [isLE_compare] using pairwise_sort ts,
    sort_eq_of_perm⟩

/-- A leaf, a tree and a tree that goes on behind it, in this order and in two others. -/
theorem compare_is_a_total_order_chain :
    let a := leaf "text"
    let b := leaves ["int", "text"]
    let c := tree [(none, leaf "int"), (none, leaf "text"), (some "x", b)]
    let b' := (leaf "int").push a
    (compare b b').isLE = true ∧ (compare b' b).isLE = true ∧ b = b' ∧
      (compare a b).isLE = true ∧ (compare b c).isLE = true ∧ (compare a c).isLE = true ∧
      [c, a, b].Perm [b, c, a] ∧ sort [c, a, b] = sort [b, c, a] := by
  intro a b c b'
  have hbb' : (compare b b').isLE = true := by decide
  have hb'b : (compare b' b).isLE = true := by decide
  have hab : (compare a b).isLE = true := by decide
  have hbc : (compare b c).isLE = true := by decide
  have hperm : [c, a, b].Perm [b, c, a] := by decide
  obtain ⟨-, -, -, -, hantisymm, -⟩ := compare_is_a_total_order b b' c [] []
  obtain ⟨-, -, -, -, -, htrans, -, -, -, hsort⟩ :=
    compare_is_a_total_order a b c [c, a, b] [b, c, a]
  exact ⟨hbb', hb'b, hantisymm hbb' hb'b, hab, hbc, htrans hab hbc, hperm, hsort hperm⟩

/-- A name of two bytes stands behind all names of one, and a longer name behind its beginning. -/
example :
    compare (leaf "z") (leaf "é") = .lt ∧ compare (leaf "int") (leaf "int8") = .lt ∧
      compare (leaf "zz") (tree []) = .lt := by
  decide

end TupleLang.TypeDesc
