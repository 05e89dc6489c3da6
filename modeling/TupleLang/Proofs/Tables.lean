import TupleLang.Proofs.Build

/-!
# The tables of a tuple

A tuple keeps two tables beside its data: the name index gives the position of every named
attribute, and the table of keys gives, for every name, the keys of the actions of that name. Both
can be computed from the attributes and the actions; `Tuple.Tabled` says that they are what this
computation would give. A new tuple has empty tables, and every change keeps them in step with the
data, also the removal of an attribute, which moves all later ones to another position
(`reindex_positions`).

So whatever was done to a tuple, names and actions are found exactly where they are
(`tables_agree_with_contents`).
-/

namespace TupleLang.Tuple

variable {t t' : Tuple}

/-! ## Looking up -/

section Lookup

variable {α β : Type} [DecidableEq α] {table : List (α × β)} {key k : α} {b c : β}

theorem lookup_cons_eq_ite :
    ((k, b) :: table).lookup key = if key = k then some b else table.lookup key := by
  by_cases hkey : key = k
  · simp [hkey]
  · rw [List.lookup_cons, beq_false_of_ne hkey, if_neg hkey]

/-- In a table without repeated keys, looking up a key finds what is stored under it. -/
theorem lookup_eq_some_iff_mem (hnodup : (table.map (·.1)).Nodup) :
    table.lookup key = some b ↔ (key, b) ∈ table := by
  induction table with
  | nil => simp
  | cons entry rest ih =>
    obtain ⟨k, c⟩ := entry
    rw [List.map_cons, List.nodup_cons] at hnodup
    rw [lookup_cons_eq_ite, List.mem_cons, Prod.mk.injEq]
    by_cases hkey : key = k
    · -- the key does not occur again further down
      have hrest : (k, b) ∉ rest := fun h => hnodup.1 (List.mem_map.mpr ⟨(k, b), h, rfl⟩)
      simp [hkey, hrest, eq_comm]
    · simp [hkey, ih hnodup.2]

end Lookup

/-! ## Names -/

/-- The names of attributes with their positions, of which the first is `start`. -/
def positions (start : Nat) (entries : List Attribute) : List (String × Nat) :=
  (entries.zipIdx start).filterMap fun (entry, pos) => entry.name.map (·, pos)

/-- The names of attributes, in order. -/
def namesOf (entries : List Attribute) : List String := entries.filterMap (·.name)

theorem positions_cons (start : Nat) (entry : Attribute) (rest : List Attribute) :
    positions start (entry :: rest) =
      (entry.name.map (·, start)).toList ++ positions (start + 1) rest := by
  cases h : entry.name <;> simp [positions, h]

theorem positions_append (start : Nat) (entries : List Attribute) (name : Option String)
    (cell : Cell) :
    positions start (entries ++ [⟨name, cell⟩]) =
      positions start entries ++ (name.map (·, start + entries.length)).toList := by
  cases name <;> simp [positions, List.zipIdx_append]

theorem map_positions (start : Nat) (entries : List Attribute) :
    (positions start entries).map (·.1) = namesOf entries := by
  induction entries generalizing start with
  | nil => rfl
  | cons entry rest ih =>
    rw [positions_cons, List.map_append, ih]
    cases h : entry.name <;> simp [namesOf, h]

/-- A name is listed with a position if the attribute there has that name. -/
theorem mem_positions {entries : List Attribute} {n : String} {p : Nat} :
    (n, p) ∈ positions 0 entries ↔ entries[p]?.bind (·.name) = some n := by
  simp only [positions, List.mem_filterMap, Prod.exists, List.mk_mem_zipIdx_iff_getElem?,
    Option.map_eq_some_iff, Prod.mk.injEq, Option.bind_eq_some_iff]
  constructor
  · rintro ⟨entry, q, hentry, m, hname, rfl, rfl⟩
    exact ⟨entry, hentry, hname⟩
  · rintro ⟨entry, hentry, hname⟩
    exact ⟨entry, p, hentry, n, hname, rfl, rfl⟩

/-- All positions are counted from the first one. -/
theorem start_le_of_mem {start : Nat} {entries : List Attribute} {e : String × Nat}
    (h : e ∈ positions start entries) : start ≤ e.2 := by
  simp only [positions, List.mem_filterMap, Prod.exists, Option.map_eq_some_iff] at h
  obtain ⟨entry, pos, hentry, n, -, rfl⟩ := h
  exact (List.le_snd_of_mem_zipIdx hentry :)

/-- Counting from the next position adds one to every position. -/
theorem positions_succ (start : Nat) (entries : List Attribute) :
    positions (start + 1) entries = (positions start entries).map fun e => (e.1, e.2 + 1) := by
  induction entries generalizing start with
  | nil => rfl
  | cons entry rest ih =>
    rw [positions_cons, positions_cons, ih (start + 1), List.map_append]
    cases entry.name <;> rfl

/-- Taking an attribute away renumbers the index. The names are unique, so that no other attribute
loses its name along with it. -/
theorem reindex_positions {entries : List Attribute} (hnodup : (namesOf entries).Nodup) {pos : Nat}
    {entry : Attribute} (hentry : entries[pos]? = some entry) (start : Nat) :
    reindex (positions start entries) entry.name (start + pos) =
      positions start (entries.eraseIdx pos) := by
  induction entries generalizing pos start with
  | nil => simp at hentry
  | cons first rest ih =>
    have hrest : (namesOf rest).Nodup := by
      refine hnodup.sublist ?_
      exact (List.sublist_cons_self first rest).filterMap _
    cases pos with
    | zero =>
      obtain rfl : first = entry := by simpa using hentry
      have hfirst : reindex (first.name.map (·, start)).toList first.name start = [] := by
        cases h : first.name <;> simp [reindex]
      -- no later attribute has the name, and all of them move down by one
      have hlater : ∀ e ∈ positions (start + 1) rest, (first.name != some e.1) = true := by
        intro e he
        have hmem : e.1 ∈ namesOf rest := map_positions (start + 1) rest ▸ List.mem_map_of_mem he
        cases h : first.name with
        | none => rfl
        | some n =>
          have hnew : n ∉ namesOf rest := by
            simp only [namesOf, List.filterMap_cons, h, List.nodup_cons] at hnodup
            exact hnodup.1
          have hne : n ≠ e.1 := fun heq => hnew (heq ▸ hmem)
          simpa using hne
      rw [positions_cons, List.eraseIdx_cons_zero, reindex, List.filter_append, List.map_append]
      rw [Nat.add_zero, show ((first.name.map (·, start)).toList.filter _).map _ = [] from hfirst,
        List.nil_append, List.filter_eq_self.mpr hlater, positions_succ, List.map_map]
      conv_rhs => rw [← List.map_id (positions start rest)]
      refine List.map_congr_left fun e he => ?_
      have hle := start_le_of_mem he
      simp only [Function.comp_apply, id]
      rw [if_pos (by omega), Nat.add_sub_cancel]
    | succ pos =>
      have hentry : rest[pos]? = some entry := by simpa using hentry
      have hfirst : reindex (first.name.map (·, start)).toList entry.name (start + (pos + 1)) =
          (first.name.map (·, start)).toList := by
        cases h : first.name with
        | none => rfl
        | some n =>
          have hne : entry.name ≠ some n := by
            intro hname
            have hmem : n ∈ namesOf rest :=
              List.mem_filterMap.mpr ⟨entry, List.mem_of_getElem? hentry, hname⟩
            simp only [namesOf, List.filterMap_cons, h, List.nodup_cons] at hnodup
            exact hnodup.1 hmem
          simp [reindex, hne]
      have hlater := ih hrest hentry (start + 1)
      rw [show start + 1 + pos = start + (pos + 1) by omega] at hlater
      rw [List.eraseIdx_cons_succ, positions_cons, positions_cons, ← hlater]
      rw [reindex, List.filter_append, List.map_append]
      exact congrArg (· ++ _) hfirst

/-! ## Keys -/

/-- Keys of the actions of a name, in the order of registration. -/
def keysNamed (actions : List (TypeDesc × Action)) (name : String) : List TypeDesc :=
  (actions.filter (·.2.name = name)).map (·.1)

/-- One more key is the last one of its name. -/
theorem lookup_pushKey (table : List (String × List TypeDesc)) (name : String) (key : TypeDesc)
    (n : String) :
    ((pushKey table name key).lookup n).getD [] =
      (table.lookup n).getD [] ++ if n = name then [key] else [] := by
  induction table with
  | nil => by_cases hn : n = name <;> simp [pushKey, lookup_cons_eq_ite, hn]
  | cons entry rest ih =>
    obtain ⟨m, keys⟩ := entry
    by_cases hm : m = name
    · by_cases hn : n = name <;> simp [pushKey, lookup_cons_eq_ite, hm, hn]
    · by_cases hn : n = m
      · simp [pushKey, hm, hn]
      · simp [pushKey, lookup_cons_eq_ite, hm, hn, ih]

/-! ## Tables in step with the data -/

/-- Both tables are what the attributes and the actions make them: every name stands once in the
index, with its position, and the keys of the actions, which are those of their signatures and
differ from each other, stand in the order of registration under the names of the actions. -/
structure Tabled (t : Tuple) : Prop where
  index : t.index = positions 0 t.entries
  names : (namesOf t.entries).Nodup
  signatures : ∀ p ∈ t.actions, p.1 = p.2.signature.key
  keys : (t.actions.map (·.1)).Nodup
  byName : ∀ name, (t.byName.lookup name).getD [] = keysNamed t.actions name

namespace Tabled

/-- A tuple without attributes and actions. -/
theorem empty (hentries : t.entries = []) (hindex : t.index = []) (hactions : t.actions = [])
    (hbyName : t.byName = []) : t.Tabled where
  index := by simp [hindex, hentries, positions]
  names := by simp [hentries, namesOf]
  signatures := by simp [hactions]
  keys := by simp [hactions]
  byName := by simp [hbyName, hactions, keysNamed]

/-- The index leads to the attributes of the given name. -/
theorem lookup_index (h : t.Tabled) (n : String) (p : Nat) :
    t.index.lookup n = some p ↔ t.nameAt? p = some n := by
  have hnodup : (t.index.map (·.1)).Nodup := by
    rw [h.index, map_positions]
    exact h.names
  rw [lookup_eq_some_iff_mem hnodup, h.index, mem_positions, nameAt?]

theorem contains_iff_mem (h : t.Tabled) (n : String) :
    t.contains n = true ↔ ∃ e ∈ t.entries, e.name = some n := by
  rw [contains, Option.isSome_iff_exists]
  simp only [h.lookup_index, nameAt?, Option.bind_eq_some_iff, List.mem_iff_getElem?]
  grind

/-- A name is found at its position. -/
theorem position_name (h : t.Tabled) (n : String) (p : Nat) :
    t.position (.name n) = .ok p ↔ t.nameAt? p = some n := by
  rw [← h.lookup_index]
  cases hlookup : t.index.lookup n <;> simp [position, hlookup]

/-- The actions found under a name are those of that name. -/
theorem actionsNamed_eq (h : t.Tabled) (name : String) :
    t.actionsNamed name = (t.actions.map (·.2)).filter (·.name = name) := by
  have hfound : ∀ p ∈ t.actions, t.actions.lookup p.1 = some p.2 :=
    fun p hp => (lookup_eq_some_iff_mem h.keys).mpr hp
  rw [actionsNamed, h.byName, keysNamed, List.filterMap_map, List.filter_map]
  rw [← List.filterMap_eq_map]
  refine List.filterMap_congr fun p hp => ?_
  exact hfound p (List.mem_of_mem_filter hp)

/-! ### Changes -/

/-- The tables agree with the entries after an attribute was put in while the tuple is built. -/
theorem insertInitial (h : t.Tabled) {name : Option String} {cell : Cell} {pos : Nat}
    (hrun : t.insertInitial name cell = .ok (pos, t')) : t'.Tabled := by
  have happend : ∀ index, index = positions 0 (t.entries ++ [⟨name, cell⟩]) →
      (∀ n, name = some n → t.contains n = false) →
      Tabled { t with entries := t.entries ++ [⟨name, cell⟩], index } := by
    intro index hindex hnew
    refine { h with index := hindex, names := ?_ }
    cases name with
    | none => simpa [namesOf] using h.names
    | some n =>
      -- a name that is taken would have been refused
      have hfresh : n ∉ namesOf t.entries := by
        intro hmem
        have htaken := (h.contains_iff_mem n).mpr (List.mem_filterMap.mp hmem)
        rw [hnew n rfl] at htaken
        cases htaken
      simp only [namesOf, List.filterMap_append, List.filterMap_cons, List.filterMap_nil]
      exact List.nodup_append.mpr ⟨h.names, List.nodup_singleton n, fun m hm k hk hmk =>
        hfresh (List.mem_singleton.mp hk ▸ hmk ▸ hm)⟩
  unfold Tuple.insertInitial at hrun
  cases name with
  | none =>
    dsimp only at hrun
    split at hrun
    · cases hrun
    · cases hrun
      exact happend _ (by rw [positions_append, ← h.index]; simp) (by simp)
  | some n =>
    dsimp only at hrun
    split at hrun
    · cases hrun
    · rename_i hnew
      split at hrun
      · cases hrun
      · cases hrun
        refine happend _ (by rw [positions_append, ← h.index]; simp [size]) fun m hm => ?_
        rw [← Option.some.inj hm]
        exact Bool.eq_false_iff.mpr hnew

/-- They do after an attribute was added. -/
theorem insert (h : t.Tabled) {name : Option String} {cell : Cell} {pos : Nat}
    (hrun : t.insert name cell = .ok (pos, t')) : t'.Tabled := by
  simp only [Tuple.insert, require, bind, Except.bind] at hrun
  split at hrun
  · cases hrun
  · exact h.insertInitial hrun

/-- They do after an attribute was taken out. -/
theorem take (h : t.Tabled) {key : Key} {cell : Cell} (hrun : t.take key = .ok (cell, t')) :
    t'.Tabled := by
  simp only [Tuple.take, require, bind, Except.bind] at hrun
  split at hrun
  · cases hrun
  rename_i pos _
  split at hrun
  · cases hrun
  split at hrun
  · rename_i entry hentry
    cases hrun
    refine { h with index := ?_, names := ?_ }
    · rw [h.index]
      simpa using reindex_positions h.names hentry 0
    · exact h.names.sublist ((List.eraseIdx_sublist t.entries pos).filterMap _)
  · cases hrun

/-- They do after an action was registered. -/
theorem insertAction (h : t.Tabled) {action : Action} (hrun : t.insertAction action = .ok t') :
    t'.Tabled := by
  obtain ⟨hfree, rfl⟩ := insertAction_eq_ok hrun
  refine { h with signatures := fun p hp => ?_, keys := ?_, byName := fun name => ?_ }
  · rcases List.mem_append.mp hp with hp | hp
    · exact h.signatures p hp
    · rw [List.mem_singleton.mp hp]
  · have hnew : action.signature.key ∉ t.actions.map (·.1) := by
      intro hmem
      obtain ⟨⟨key, old⟩, hp, rfl⟩ := List.mem_map.mp hmem
      have hfound := (lookup_eq_some_iff_mem h.keys).mpr hp
      simp [hfree] at hfound
    rw [List.map_append, List.nodup_append]
    refine ⟨h.keys, List.nodup_singleton _, fun key hkey k hk heq => hnew ?_⟩
    rwa [← show k = action.signature.key by simpa using hk, ← heq]
  · rw [lookup_pushKey, h.byName, keysNamed, keysNamed, List.filter_append, List.map_append]
    by_cases hname : name = action.name
    · simp [hname]
    · simp [hname, Ne.symm hname]

end Tabled

/-! ## Changes one after the other -/

/-- What can be done to a tuple. -/
inductive Change where
  | insert (name : Option String) (cell : Cell)
  | insertInitial (name : Option String) (cell : Cell)
  | take (key : Key)
  | drain
  | insertType (name : String) (type : TypeDesc)
  | removeType (name : String)
  | insertAction (action : Action)

namespace Change

/-- Make a change, or say why it is refused. -/
def make (t : Tuple) : Change → Except Error Tuple
  | insert name cell => return (← t.insert name cell).2
  | insertInitial name cell => return (← t.insertInitial name cell).2
  | take key => return (← t.take key).2
  | drain => return t.drain.2
  | insertType name type => t.insertType name type
  | removeType name => return t.removeType name
  | insertAction action => t.insertAction action

/-- The tuple once a change was made or refused. -/
def after (t : Tuple) (change : Change) : Tuple := (change.make t).toOption.getD t

end Change

/-- A change that is not refused keeps the tables in step with the data. -/
theorem Tabled.change (h : t.Tabled) {change : Change} (hrun : change.make t = .ok t') :
    t'.Tabled := by
  -- a result is taken out of a pair, which only renames it
  have hsnd : ∀ {α : Type} {r : Except Error (α × Tuple)},
      (do return (← r).2 : Except Error Tuple) = .ok t' → ∃ a, r = .ok (a, t') := by
    intro α r hr
    cases r with
    | error e => cases hr
    | ok r => exact ⟨r.1, by cases hr; rfl⟩
  cases change with
  | insert name cell =>
    obtain ⟨pos, hinsert⟩ := hsnd hrun
    exact h.insert hinsert
  | insertInitial name cell =>
    obtain ⟨pos, hinsert⟩ := hsnd hrun
    exact h.insertInitial hinsert
  | take key =>
    obtain ⟨cell, htake⟩ := hsnd hrun
    exact h.take htake
  | drain =>
    cases hrun
    exact .empty rfl rfl rfl rfl
  | insertType name type =>
    rw [insertType_eq_ok hrun]
    exact { h with }
  | removeType name =>
    cases hrun
    exact { h with }
  | insertAction action => exact h.insertAction hrun

/-- Changes keep the tables in step with the data, one after the other, whether they are made or
refused. -/
theorem Tabled.foldl (h : t.Tabled) (changes : List Change) :
    (changes.foldl Change.after t).Tabled := by
  induction changes generalizing t with
  | nil => exact h
  | cons change changes ih =>
    refine ih ?_
    unfold Change.after
    cases hrun : change.make t with
    | error e => exact h
    | ok t' => exact h.change hrun

/-- Whatever changes are made to a new tuple, and whichever of them are refused: the index leads
from a name to a position just if the attribute there has the name, so that names are unique. The
keys under a name are those of the actions of that name, in the order of registration and without
repetition. So the attribute and the actions of a name are found exactly where they are. -/
theorem tables_agree_with_contents (kind : TupleKind) (permissions : Permissions)
    (parent : Option TupleId) (changes : List Change) :
    let t := changes.foldl Change.after { kind, permissions, parent }
    (∀ n p, t.index.lookup n = some p ↔ t.nameAt? p = some n) ∧
      (t.entries.filterMap (·.name)).Nodup ∧
      (∀ n, ((t.byName.lookup n).getD []).Nodup ∧
        (t.byName.lookup n).getD [] = (t.actions.filter (·.2.name = n)).map (·.1)) ∧
      (∀ n p, t.position (.name n) = .ok p ↔ t.nameAt? p = some n) ∧
      (∀ n, t.contains n = true ↔ ∃ e ∈ t.entries, e.name = some n) ∧
      ∀ n, t.actionsNamed n = (t.actions.map (·.2)).filter (·.name = n) := by
  intro t
  have h : t.Tabled := Tabled.foldl (.empty rfl rfl rfl rfl) changes
  refine ⟨h.lookup_index, h.names, fun n => ⟨?_, h.byName n⟩, h.position_name, h.contains_iff_mem,
    h.actionsNamed_eq⟩
  rw [h.byName]
  exact h.keys.sublist (List.filter_sublist.map _)

/-- The first of three attributes is taken away, and the last one is found one position earlier. -/
example :
    let cell : Cell := { type := .leaf "int", loc := 0 }
    let t := [Change.insert (some "a") cell, .insert (some "b") cell, .insert (some "c") cell,
      .take (.name "a")].foldl Change.after
        { kind := .dynamic, permissions := .all, parent := none }
    t.position (.name "c") = .ok 1 ∧ t.contains "a" = false := by
  decide

end TupleLang.Tuple
