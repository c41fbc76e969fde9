import LayeredConfig.Proofs.Tree
import Mathlib.Data.List.Perm.Basic

/-!
# LayeredConfig — what a merge is made of

Trees are merged one after the other, and under each key of a table again one after
the other. What comes out can be said of all of them at once: `Tree.Merges` looks at
the first tree that is there, and then at the whole list. A terminal is the result. A
sequence takes in what each tree adds, in order. A table has the keys of all the
tables, and under each key what the list of their entries there merges to, by the same
rule again.

* `Fields.ext_of_ordered`    — fields in order are known by what is found in them.
* `Tree.merge_merge_append`  — an initial part of a list may be merged first.
* `Tree.get?_foldl_extendEntries` — what stands under a key once tables are merged.
* `Tree.Merges`              — what the trees of a list merge to, at every depth.
* `Tree.merge_computes`      — merging gives that tree, and no other.
-/

namespace LayeredConfig

-- ---------------------------------------------------------------------------
-- Fields
-- ---------------------------------------------------------------------------

namespace Fields

theorem mem_keys_iff {fields : Fields α} {key : String} :
    key ∈ keys fields ↔ get? fields key ≠ none := by
  induction fields with
  | nil => simp [keys]
  | cons field rest ih =>
    obtain ⟨k, a⟩ := field
    rw [get?_cons, keys, List.map_cons, List.mem_cons, ← keys, ih]
    by_cases hk : key = k
    · simp [hk]
    · simp [hk]

/-- A key that stands before all the keys is none of them. -/
theorem get?_eq_none_of_lt {fields : Fields α} {key : String}
    (h : ∀ field ∈ fields, key < field.1) : get? fields key = none := by
  cases hFound : get? fields key with
  | none => rfl
  | some a => exact absurd (h _ (mem_of_get? hFound)) (String.lt_irrefl key)

/-- Fields in order are known by what is found in them. -/
theorem ext_of_ordered {fields others : Fields α} (hFields : Ordered fields)
    (hOthers : Ordered others) (h : ∀ key, get? fields key = get? others key) :
    fields = others := by
  have hNodup : ∀ {f : Fields α}, Ordered f → f.Nodup := by
    intro f hf
    have hPairwise : f.Pairwise (fun a b => a.1 < b.1) := hf
    refine hPairwise.imp fun {a b} hlt hEq => ?_
    rw [hEq] at hlt
    exact String.lt_irrefl b.1 hlt
  have hPerm : fields.Perm others := by
    refine (List.perm_ext_iff_of_nodup (hNodup hFields) (hNodup hOthers)).2 fun ⟨key, a⟩ => ?_
    constructor
    · exact fun hIn => mem_of_get? ((h key).symm.trans (get?_of_mem hFields hIn))
    · exact fun hIn => mem_of_get? ((h key).trans (get?_of_mem hOthers hIn))
  refine hPerm.eq_of_pairwise (fun a b _ _ hab hba => ?_) hFields hOthers
  exact absurd (String.lt_trans hab hba) (String.lt_irrefl a.1)

end Fields

namespace Tree

-- ---------------------------------------------------------------------------
-- Stages
-- ---------------------------------------------------------------------------

theorem merge_singleton (o : Option (Tree α)) : merge [o] = o := by
  cases o <;> rfl

theorem merge_pair_none (o : Option (Tree α)) : merge [o, none] = o := by
  cases o <;> rfl

/-- An initial part of a list may be merged first. -/
theorem merge_merge_append (xs ys : List (Option (Tree α))) :
    merge (merge xs :: ys) = merge (xs ++ ys) := by
  cases hThere : xs.filterMap id with
  | nil =>
    rw [merge_eq_none_iff.2 hThere, merge_eq, merge_eq, List.filterMap_append, hThere]
    rfl
  | cons first later =>
    have hMerge : merge xs = some (later.foldl (extend fun _ => false) first) := by
      rw [merge_eq, hThere]
    rw [hMerge, merge_eq, merge_eq, List.filterMap_append, hThere, List.cons_append]
    exact congrArg some List.foldl_append.symm

-- ---------------------------------------------------------------------------
-- Sequences
-- ---------------------------------------------------------------------------

/-- What a tree adds to a sequence: the items of a sequence, anything else as a single
item. -/
def addedItems : Tree α → List (Tree α)
  | seq items => items
  | t => [t]

theorem foldl_extend_seq (later : List (Tree α)) : ∀ items : List (Tree α),
    later.foldl (extend fun _ => false) (seq items) =
      seq ((seq items :: later).flatMap addedItems) := by
  induction later with
  | nil => simp [addedItems]
  | cons b rest ih =>
    intro items
    have hStep : extend (fun _ => false) (seq items) b = seq (items ++ addedItems b) := by
      cases b <;> rfl
    rw [List.foldl_cons, hStep, ih]
    simp [addedItems]

-- ---------------------------------------------------------------------------
-- Tables
-- ---------------------------------------------------------------------------

theorem foldl_extend_table (later : List (Tree α)) : ∀ entries : List (String × Tree α),
    later.foldl (extend fun _ => false) (table entries) =
      table ((later.filterMap entries?).foldl (extendEntries fun _ => false) entries) := by
  induction later with
  | nil => exact fun _ => rfl
  | cons b rest ih =>
    intro entries
    rw [List.foldl_cons]
    cases b with
    | leaf b => exact ih entries
    | seq more => exact ih entries
    | table more =>
      have hStep : extend (fun _ => false) (table entries) (table more) =
          table (extendEntries (fun _ => false) entries more) := by
        simp [extend]
      rw [hStep, ih]
      rfl

theorem ordered_extendEntries (more : Fields (Tree α)) : ∀ {acc : Fields (Tree α)},
    Fields.Ordered acc → Fields.Ordered (extendEntries (fun _ => false) acc more) := by
  induction more with
  | nil => exact fun h => h
  | cons entry rest ih =>
    intro acc h
    rw [extendEntries_cons, extendEntries_singleton]
    exact ih (Fields.ordered_insert h _ _)

theorem ordered_foldl_extendEntries (tables : List (Fields (Tree α))) :
    ∀ {acc : Fields (Tree α)}, Fields.Ordered acc →
      Fields.Ordered (tables.foldl (extendEntries fun _ => false) acc) := by
  induction tables with
  | nil => exact fun h => h
  | cons more rest ih => exact fun h => ih (ordered_extendEntries more h)

/-- Under each key one table is merged into another. -/
theorem get?_extendEntries {more : Fields (Tree α)} (hMore : Fields.Ordered more) (key : String) :
    ∀ acc : Fields (Tree α), Fields.get? (extendEntries (fun _ => false) acc more) key =
      merge [Fields.get? acc key, Fields.get? more key] := by
  induction more with
  | nil => exact fun acc => (merge_pair_none _).symm
  | cons entry rest ih =>
    intro acc
    obtain ⟨k, b⟩ := entry
    obtain ⟨hHead, hRest⟩ := Fields.ordered_cons.1 hMore
    rw [extendEntries_cons, extendEntries_singleton, ih hRest, Fields.get?_cons]
    by_cases hk : key = k
    · -- the entries behind it leave the key alone
      subst hk
      rw [if_pos rfl, Fields.get?_insert_self, Fields.get?_eq_none_of_lt hHead, merge_pair_none]
      cases Fields.get? acc key <;> rfl
    · rw [if_neg hk, Fields.get?_insert_of_ne hk]

/-- Under each key many tables are merged at once. -/
theorem get?_foldl_extendEntries (key : String) {tables : List (Fields (Tree α))}
    (hTables : ∀ more ∈ tables, Fields.Ordered more) : ∀ acc : Fields (Tree α),
      Fields.get? (tables.foldl (extendEntries fun _ => false) acc) key =
        merge (Fields.get? acc key :: tables.map fun more => Fields.get? more key) := by
  induction tables with
  | nil => exact fun acc => (merge_singleton _).symm
  | cons more rest ih =>
    intro acc
    have hMore := hTables more List.mem_cons_self
    rw [List.foldl_cons, ih fun other hOther => hTables other (List.mem_cons_of_mem _ hOther),
      get?_extendEntries hMore, merge_merge_append]
    rfl

-- ---------------------------------------------------------------------------
-- All trees at once
-- ---------------------------------------------------------------------------

/-- The tables of a list. -/
def tables (trees : List (Option (Tree α))) : List (Fields (Tree α)) :=
  (trees.filterMap id).filterMap entries?

/-- What the tables of a list have at a key, in order. -/
def entriesAt (key : String) (trees : List (Option (Tree α))) : List (Option (Tree α)) :=
  (tables trees).map fun entries => Fields.get? entries key

/-- What the trees of a list merge to, as the first tree that is there decides. -/
inductive Merges : List (Option (Tree α)) → Tree α → Prop
  | terminal {trees : List (Option (Tree α))} {a : α} {later : List (Tree α)}
      (there : trees.filterMap id = leaf a :: later) : Merges trees (leaf a)
  | seq {trees : List (Option (Tree α))} {items later : List (Tree α)}
      (there : trees.filterMap id = seq items :: later) :
      Merges trees (seq ((trees.filterMap id).flatMap addedItems))
  | table {trees : List (Option (Tree α))} {entries merged : Fields (Tree α)}
      {later : List (Tree α)} (there : trees.filterMap id = table entries :: later)
      (ordered : Fields.Ordered merged)
      (keys : ∀ key, key ∈ Fields.keys merged ↔ ∃ more ∈ tables trees, key ∈ Fields.keys more)
      (values : ∀ key t, Fields.get? merged key = some t → Merges (entriesAt key trees) t) :
      Merges trees (table merged)

section

variable {trees : List (Option (Tree α))} {first : Tree α} {later : List (Tree α)}

theorem merge_of_terminal {a : α} (hThere : trees.filterMap id = leaf a :: later) :
    merge trees = some (leaf a) := by
  rw [merge_eq, hThere]
  exact congrArg some (foldl_extend_leaf a later)

theorem merge_of_seq {items : List (Tree α)} (hThere : trees.filterMap id = seq items :: later) :
    merge trees = some (seq ((trees.filterMap id).flatMap addedItems)) := by
  rw [merge_eq, hThere]
  exact congrArg some (foldl_extend_seq later items)

theorem wellFormed_of_mem_tables (hWf : ∀ t, some t ∈ trees → t.WellFormed)
    {entries : Fields (Tree α)} (hIn : entries ∈ tables trees) : (table entries).WellFormed := by
  obtain ⟨t, ht, hEntries⟩ := List.mem_filterMap.1 hIn
  obtain ⟨o, ho, rfl⟩ := List.mem_filterMap.1 ht
  cases t with
  | leaf a => cases hEntries
  | seq items => cases hEntries
  | table more =>
    cases hEntries
    exact hWf _ ho

theorem wellFormed_of_entriesAt (hWf : ∀ t, some t ∈ trees → t.WellFormed) {key : String}
    {t : Tree α} (hIn : some t ∈ entriesAt key trees) : t.WellFormed := by
  obtain ⟨entries, hEntries, hFound⟩ := List.mem_map.1 hIn
  have hTable := wellFormed_of_mem_tables hWf hEntries
  exact (wellFormedEntries_iff entries).1 hTable.2 (key, t) (Fields.mem_of_get? hFound)

theorem merge_entriesAt_ne_none_iff {key : String} :
    merge (entriesAt key trees) ≠ none ↔ ∃ more ∈ tables trees, key ∈ Fields.keys more := by
  rw [Ne, merge_eq_none_iff, List.filterMap_eq_nil_iff, entriesAt, List.forall_mem_map]
  simp only [id_eq, Fields.mem_keys_iff, ne_eq, not_forall, exists_prop]

/-- Tables merge to a table, which has all their keys, and under each key what the
entries there merge to. -/
theorem merge_of_table (hWf : ∀ t, some t ∈ trees → t.WellFormed) {entries : Fields (Tree α)}
    (hThere : trees.filterMap id = table entries :: later) :
    ∃ merged, merge trees = some (table merged) ∧ Fields.Ordered merged ∧
      (∀ key, key ∈ Fields.keys merged ↔ ∃ more ∈ tables trees, key ∈ Fields.keys more) ∧
      ∀ key, Fields.get? merged key = merge (entriesAt key trees) := by
  have hTables : tables trees = entries :: later.filterMap entries? := by
    rw [tables, hThere]
    rfl
  have hOrdered : ∀ more ∈ tables trees, Fields.Ordered more :=
    fun more hMore => (wellFormed_of_mem_tables hWf hMore).1
  rw [hTables, List.forall_mem_cons] at hOrdered
  have hGet : ∀ key, Fields.get?
      ((later.filterMap entries?).foldl (extendEntries fun _ => false) entries) key =
        merge (entriesAt key trees) := by
    intro key
    rw [get?_foldl_extendEntries key hOrdered.2, entriesAt, hTables, List.map_cons]
  refine ⟨_, ?_, ordered_foldl_extendEntries _ hOrdered.1, fun key => ?_, hGet⟩
  · rw [merge_eq, hThere]
    exact congrArg some (foldl_extend_table later entries)
  · rw [Fields.mem_keys_iff, hGet, merge_entriesAt_ne_none_iff]

end

-- ---------------------------------------------------------------------------
-- At every depth
-- ---------------------------------------------------------------------------

section

variable {trees : List (Option (Tree α))} {v w : Tree α}

/-- One step of `Merges`: the result of merging fits the rule if, under each key of a
table, it does so by the rule again. -/
theorem merges_of_entries (hWf : ∀ t, some t ∈ trees → t.WellFormed)
    (hMerge : merge trees = some v)
    (hBelow : ∀ merged, v = table merged → ∀ key t, Fields.get? merged key = some t →
      merge (entriesAt key trees) = some t → Merges (entriesAt key trees) t) :
    Merges trees v := by
  cases hThere : trees.filterMap id with
  | nil =>
    rw [merge_eq_none_iff.2 hThere] at hMerge
    cases hMerge
  | cons first later =>
    cases first with
    | leaf a =>
      rw [merge_of_terminal hThere] at hMerge
      cases hMerge
      exact .terminal hThere
    | seq items =>
      rw [merge_of_seq hThere] at hMerge
      cases hMerge
      exact .seq hThere
    | table entries =>
      obtain ⟨merged, hSome, hOrdered, hKeys, hGet⟩ := merge_of_table hWf hThere
      rw [hSome] at hMerge
      cases hMerge
      exact .table hThere hOrdered hKeys fun key t ht =>
        hBelow merged rfl key t ht ((hGet key).symm.trans ht)

/-- What merging gives is what the trees merge to. The induction is on the result, whose
entries are merges again. -/
theorem merges_of_merge_eq (hWf : ∀ t, some t ∈ trees → t.WellFormed)
    (hMerge : merge trees = some v) : Merges trees v := by
  induction v using Tree.induction generalizing trees with
  | leaf a => exact merges_of_entries hWf hMerge fun _ hTable => by cases hTable
  | seq items _ => exact merges_of_entries hWf hMerge fun _ hTable => by cases hTable
  | table merged ih =>
    refine merges_of_entries hWf hMerge fun merged' hTable key t ht hEntries => ?_
    cases hTable
    exact ih (key, t) (Fields.mem_of_get? ht) (fun _ => wellFormed_of_entriesAt hWf) hEntries

/-- Well-formed trees merge to a well-formed one. -/
theorem Merges.wellFormed (h : Merges trees v) (hWf : ∀ t, some t ∈ trees → t.WellFormed) :
    v.WellFormed := by
  induction h with
  | terminal there => trivial
  | @seq trees items later there =>
    refine (wellFormedItems_iff _).2 fun t ht => ?_
    obtain ⟨u, hu, hAdded⟩ := List.mem_flatMap.1 ht
    obtain ⟨o, ho, rfl⟩ := List.mem_filterMap.1 hu
    have hTree := hWf u ho
    cases u with
    | seq items => exact (wellFormedItems_iff items).1 hTree t hAdded
    | leaf a => rwa [List.mem_singleton.1 hAdded]
    | table entries => rwa [List.mem_singleton.1 hAdded]
  | table there ordered keys values ih =>
    refine ⟨ordered, (wellFormedEntries_iff _).2 fun entry hEntry => ?_⟩
    exact ih entry.1 entry.2 (Fields.get?_of_mem ordered hEntry)
      fun t => wellFormed_of_entriesAt hWf

/-- Trees merge to one tree only. -/
theorem Merges.unique (hv : Merges trees v) (hw : Merges trees w) : v = w := by
  induction hv generalizing w with
  | terminal there =>
    cases hw with
    | terminal there' =>
      rw [there] at there'
      cases there'
      rfl
    | seq there' => rw [there] at there'; cases there'
    | table there' => rw [there] at there'; cases there'
  | seq there =>
    cases hw with
    | terminal there' => rw [there] at there'; cases there'
    | seq there' => rfl
    | table there' => rw [there] at there'; cases there'
  | @table trees entries merged later there ordered keys values ih =>
    cases hw with
    | terminal there' => rw [there] at there'; cases there'
    | seq there' => rw [there] at there'; cases there'
    | @table _ _ merged' _ there' ordered' keys' values' =>
      -- the same keys, and by the induction the same entries
      refine congrArg Tree.table (Fields.ext_of_ordered ordered ordered' fun key => ?_)
      have hSame := (keys key).trans (keys' key).symm
      rw [Fields.mem_keys_iff, Fields.mem_keys_iff] at hSame
      cases hGet : Fields.get? merged key with
      | none =>
        rw [hGet] at hSame
        exact (not_not.1 (hSame.not.1 (not_not.2 rfl))).symm
      | some t =>
        rw [hGet] at hSame
        obtain ⟨t', ht'⟩ := Option.ne_none_iff_exists'.1 (hSame.1 (Option.some_ne_none t))
        rw [ht', ih key t hGet (values' key t' ht')]

end

/-- **What merging computes.** Well-formed trees of which at least one is there merge,
and the first one decides how:

* a terminal is the result;
* to a sequence each tree adds its items, or itself as a single item, in order;
* a table has exactly the keys of all the tables, and under each key the merge of what
  the tables have there, in order.

As the entries of a table are merges again, this holds at every depth, and settles what
the result is: it is the one tree that the list `Merges` to. -/
theorem merge_computes {trees : List (Option (Tree α))} {first : Tree α} {later : List (Tree α)}
    (hThere : trees.filterMap id = first :: later)
    (hWf : ∀ t, some t ∈ trees → t.WellFormed) :
    ∃ v, merge trees = some v ∧ (∀ w, Merges trees w ↔ w = v) ∧
      (∀ a, first = leaf a → v = leaf a) ∧
      (∀ items, first = seq items → v = seq ((first :: later).flatMap addedItems)) ∧
      ∀ entries, first = table entries → ∃ merged, v = table merged ∧ Fields.Ordered merged ∧
        (∀ key, key ∈ Fields.keys merged ↔ ∃ more ∈ tables trees, key ∈ Fields.keys more) ∧
        ∀ key, Fields.get? merged key = merge (entriesAt key trees) := by
  have hOnly : ∀ {v}, merge trees = some v → ∀ w, Merges trees w ↔ w = v := by
    intro v hMerge w
    have hMerges := merges_of_merge_eq hWf hMerge
    exact ⟨fun hw => hw.unique hMerges, fun hw => hw ▸ hMerges⟩
  cases first with
  | leaf a =>
    have hMerge := merge_of_terminal hThere
    exact ⟨_, hMerge, hOnly hMerge, fun _ h => h, nofun, nofun⟩
  | seq items =>
    have hMerge := merge_of_seq hThere
    exact ⟨_, hMerge, hOnly hMerge, nofun, fun _ _ => by rw [hThere], nofun⟩
  | table entries =>
    obtain ⟨merged, hMerge, hTable⟩ := merge_of_table hWf hThere
    exact ⟨_, hMerge, hOnly hMerge, nofun, nofun, fun _ _ => ⟨merged, rfl, hTable⟩⟩

/-- Trees of every shape, with keys that come, go and change their shape. -/
def mixedTrees : List (Option (Tree Nat)) :=
  [none, some (.table [("a", .table [("x", .leaf 1)]), ("b", .seq [.leaf 2])]), some (.leaf 3),
    some (.table [("a", .leaf 4), ("b", .table [("y", .leaf 5)]), ("c", .leaf 6)]),
    some (.seq [.leaf 7]), none,
    some (.table [("a", .table [("x", .leaf 8), ("z", .leaf 9)]), ("b", .seq [.leaf 10, .leaf 11]),
      ("c", .seq [])])]

def mixedMerge : Tree Nat :=
  .table [("a", .table [("x", .leaf 1), ("z", .leaf 9)]),
    ("b", .seq [.leaf 2, .table [("y", .leaf 5)], .leaf 10, .leaf 11]), ("c", .leaf 6)]

/-- A table takes in tables only, and so does the one in it. -/
theorem merge_computes_mixed :
    merge mixedTrees = some mixedMerge ∧ ∀ w, Merges mixedTrees w ↔ w = mixedMerge := by
  have hWf : ∀ t, some t ∈ mixedTrees → t.WellFormed := by
    intro t ht
    simp only [mixedTrees, List.mem_cons, reduceCtorEq, Option.some.injEq, List.not_mem_nil,
      false_or, or_false] at ht
    rcases ht with rfl | rfl | rfl | rfl | rfl
    · exact ⟨by decide, ⟨by decide, trivial, trivial⟩, ⟨trivial, trivial⟩, trivial⟩
    · trivial
    · exact ⟨by decide, trivial, ⟨by decide, trivial, trivial⟩, trivial, trivial⟩
    · exact ⟨trivial, trivial⟩
    · exact ⟨by decide, ⟨by decide, trivial, trivial, trivial⟩, ⟨trivial, trivial, trivial⟩,
        trivial, trivial⟩
  obtain ⟨first, later, hThere⟩ : ∃ first later, mixedTrees.filterMap id = first :: later :=
    ⟨_, _, rfl⟩
  obtain ⟨v, hMerge, hOnly, -⟩ := merge_computes hThere hWf
  have hValue : merge mixedTrees = some mixedMerge := by rfl
  rw [hMerge] at hValue
  cases hValue
  exact ⟨hMerge, hOnly⟩

end Tree

end LayeredConfig
