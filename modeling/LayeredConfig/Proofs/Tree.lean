import LayeredConfig.Tree.Merge
import LayeredConfig.Tree.Path
import Mathlib.Data.List.Basic

/-!
# LayeredConfig — laws of trees

A tree is proved about by one induction, `Tree.induction`: leaves, sequences,
tables. What the library defines by recursion on items and entries is first put
as a map over them.

* `Tree.follow?_map`           — looking into a tree does not depend on what its
  leaves hold.
* `Tree.graftM_seq`, `Tree.graftM_table` — traversal as `mapM`.
* `Tree.mergeWith_eq_merge`    — to take only terminals as indivisible changes
  nothing.
* `Tree.mergesOnly`            — which leaves may meet something in a merge.
* `Tree.merge_graft`           — trees put in for leaves may be put in after
  merging, if the leaves that meet something become terminals.
* `Tree.mem_leaves_of_merge`   — a merge has the leaves of what is merged.
* `Tree.merge_map`             — merging does not depend on what leaves hold.
-/

namespace LayeredConfig

-- ---------------------------------------------------------------------------
-- Fields
-- ---------------------------------------------------------------------------

namespace Fields

theorem get?_map (f : α → β) (fields : Fields α) (key : String) :
    get? (fields.map (fun field => (field.1, f field.2))) key = (get? fields key).map f := by
  induction fields with
  | nil => rfl
  | cons field rest ih =>
    obtain ⟨k, a⟩ := field
    simp only [List.map_cons, get?_cons, ih]
    split <;> rfl

theorem insert_map (f : α → β) (key : String) (a : α) (fields : Fields α) :
    insert key (f a) (fields.map (fun field => (field.1, f field.2))) =
      (insert key a fields).map (fun field => (field.1, f field.2)) := by
  induction fields with
  | nil => rfl
  | cons field rest ih =>
    obtain ⟨k, b⟩ := field
    simp only [List.map_cons, insert, ih]
    split
    · rfl
    · split <;> rfl

theorem mem_of_get? {fields : Fields α} {key : String} {a : α}
    (h : get? fields key = some a) : (key, a) ∈ fields := by
  induction fields with
  | nil => simp at h
  | cons field rest ih =>
    obtain ⟨k, b⟩ := field
    rw [get?_cons] at h
    split at h
    · rename_i hk
      cases h
      rw [hk]
      exact List.mem_cons_self
    · exact List.mem_cons_of_mem _ (ih h)

/-- Where each key stands once, a pair of the fields is what look-up finds. -/
theorem get?_of_mem {fields : Fields α} (hOrdered : Ordered fields) {key : String} {a : α}
    (h : (key, a) ∈ fields) : get? fields key = some a := by
  induction fields with
  | nil => cases h
  | cons field rest ih =>
    obtain ⟨k, b⟩ := field
    have ⟨hHead, hRest⟩ := ordered_cons.1 hOrdered
    rw [get?_cons]
    rcases List.mem_cons.1 h with h | h
    · cases h
      rw [if_pos rfl]
    · have hlt : k < key := hHead (key, a) h
      have hne : key ≠ k := fun hEq => String.lt_irrefl k (hEq ▸ hlt)
      rw [if_neg hne]
      exact ih hRest h

end Fields

namespace Tree

-- ---------------------------------------------------------------------------
-- Induction
-- ---------------------------------------------------------------------------

/-- What holds of the leaves, and of a sequence or a table if of all that is in
it, holds of every tree. -/
@[elab_as_elim]
theorem induction {motive : Tree α → Prop} (leaf : ∀ a, motive (leaf a))
    (seq : ∀ items, (∀ t ∈ items, motive t) → motive (seq items))
    (table : ∀ entries : List (String × Tree α),
      (∀ entry ∈ entries, motive entry.2) → motive (table entries))
    (t : Tree α) : motive t :=
  Tree.rec (motive_1 := motive) (motive_2 := fun items => ∀ t ∈ items, motive t)
    (motive_3 := fun entries => ∀ entry ∈ entries, motive entry.2)
    (motive_4 := fun entry => motive entry.2) leaf seq table
    (fun _ h => absurd h List.not_mem_nil)
    (fun _ _ hHead hRest t ht => (List.mem_cons.1 ht).elim (· ▸ hHead) (hRest t))
    (fun _ h => absurd h List.not_mem_nil)
    (fun _ _ hHead hRest entry h => (List.mem_cons.1 h).elim (· ▸ hHead) (hRest entry))
    (fun _ _ h => h) t

-- ---------------------------------------------------------------------------
-- Items and entries
-- ---------------------------------------------------------------------------

theorem graftItems_eq (f : α → Tree β) (items : List (Tree α)) :
    graftItems f items = items.map (graft f) := by
  induction items with
  | nil => rfl
  | cons t rest ih => rw [graftItems, ih, List.map_cons]

theorem graftEntries_eq (f : α → Tree β) (entries : List (String × Tree α)) :
    graftEntries f entries = entries.map (fun entry => (entry.1, graft f entry.2)) := by
  induction entries with
  | nil => rfl
  | cons entry rest ih => rw [graftEntries, ih, List.map_cons]

theorem itemLeaves_eq (items : List (Tree α)) : itemLeaves items = items.flatMap leaves := by
  induction items with
  | nil => rfl
  | cons t rest ih => rw [itemLeaves, ih, List.flatMap_cons]

theorem entryLeaves_eq (entries : List (String × Tree α)) :
    entryLeaves entries = entries.flatMap (fun entry => leaves entry.2) := by
  induction entries with
  | nil => rfl
  | cons entry rest ih => rw [entryLeaves, ih, List.flatMap_cons]

theorem wellFormedItems_iff (items : List (Tree α)) :
    WellFormedItems items ↔ ∀ t ∈ items, WellFormed t := by
  induction items with
  | nil => simp [WellFormedItems]
  | cons t rest ih => rw [WellFormedItems, ih, List.forall_mem_cons]

theorem wellFormedEntries_iff (entries : List (String × Tree α)) :
    WellFormedEntries entries ↔ ∀ entry ∈ entries, WellFormed entry.2 := by
  induction entries with
  | nil => simp [WellFormedEntries]
  | cons entry rest ih => rw [WellFormedEntries, ih, List.forall_mem_cons]

-- ---------------------------------------------------------------------------
-- Leaves
-- ---------------------------------------------------------------------------

theorem mem_leaves_leaf {c a : α} : c ∈ leaves (leaf a) ↔ c = a := List.mem_singleton

theorem mem_leaves_seq {c : α} {items : List (Tree α)} :
    c ∈ leaves (seq items) ↔ ∃ t ∈ items, c ∈ leaves t := by
  rw [leaves, itemLeaves_eq, List.mem_flatMap]

theorem mem_leaves_table {c : α} {entries : List (String × Tree α)} :
    c ∈ leaves (table entries) ↔ ∃ entry ∈ entries, c ∈ leaves entry.2 := by
  rw [leaves, entryLeaves_eq, List.mem_flatMap]

theorem mem_leaves_of_child? {t below : Tree α} {segment : String}
    (h : t.child? segment = some below) {c : α} (hc : c ∈ leaves below) : c ∈ leaves t := by
  cases t with
  | leaf a => cases h
  | seq items =>
    obtain ⟨i, -, hi⟩ := Option.bind_eq_some_iff.1 h
    exact mem_leaves_seq.2 ⟨below, List.mem_of_getElem? hi, hc⟩
  | table entries => exact mem_leaves_table.2 ⟨_, Fields.mem_of_get? h, hc⟩

-- ---------------------------------------------------------------------------
-- Map and graft
-- ---------------------------------------------------------------------------

theorem map_seq (f : α → β) (items : List (Tree α)) :
    map f (seq items) = seq (items.map (map f)) := by
  rw [map, mapItems_eq]

theorem map_table (f : α → β) (entries : List (String × Tree α)) :
    map f (table entries) = table (entries.map (fun entry => (entry.1, map f entry.2))) := by
  rw [map, mapEntries_eq]

theorem graft_seq (f : α → Tree β) (items : List (Tree α)) :
    graft f (seq items) = seq (items.map (graft f)) := by
  rw [graft, graftItems_eq]

theorem graft_table (f : α → Tree β) (entries : List (String × Tree α)) :
    graft f (table entries) = table (entries.map (fun entry => (entry.1, graft f entry.2))) := by
  rw [graft, graftEntries_eq]

theorem leaves_map (f : α → β) (t : Tree α) : leaves (map f t) = (leaves t).map f := by
  induction t using Tree.induction with
  | leaf a => rfl
  | seq items ih =>
    rw [map_seq, leaves, leaves, itemLeaves_eq, itemLeaves_eq, List.flatMap_map, List.map_flatMap]
    exact List.flatMap_congr ih
  | table entries ih =>
    rw [map_table, leaves, leaves, entryLeaves_eq, entryLeaves_eq, List.flatMap_map,
      List.map_flatMap]
    exact List.flatMap_congr ih

theorem graft_congr {f g : α → Tree β} {t : Tree α} (h : ∀ c ∈ leaves t, f c = g c) :
    graft f t = graft g t := by
  induction t using Tree.induction with
  | leaf a => exact h a (mem_leaves_leaf.2 rfl)
  | seq items ih =>
    rw [graft_seq, graft_seq, seq.injEq]
    exact List.map_congr_left fun t ht =>
      ih t ht fun c hc => h c (mem_leaves_seq.2 ⟨t, ht, hc⟩)
  | table entries ih =>
    rw [graft_table, graft_table, table.injEq]
    refine List.map_congr_left fun entry he => ?_
    rw [ih entry he fun c hc => h c (mem_leaves_table.2 ⟨entry, he, hc⟩)]

theorem mem_leaves_graft {f : α → Tree β} {c : α} {b : β} (hb : b ∈ leaves (f c)) {t : Tree α}
    (hc : c ∈ leaves t) : b ∈ leaves (graft f t) := by
  induction t using Tree.induction with
  | leaf a =>
    rw [mem_leaves_leaf.1 hc] at hb
    exact hb
  | seq items ih =>
    obtain ⟨item, hItem, hc⟩ := mem_leaves_seq.1 hc
    rw [graft_seq]
    exact mem_leaves_seq.2 ⟨graft f item, List.mem_map_of_mem hItem, ih item hItem hc⟩
  | table entries ih =>
    obtain ⟨entry, hEntry, hc⟩ := mem_leaves_table.1 hc
    rw [graft_table]
    exact mem_leaves_table.2
      ⟨(entry.1, graft f entry.2), List.mem_map.2 ⟨entry, hEntry, rfl⟩, ih entry hEntry hc⟩

theorem graft_leaf (f : α → β) (t : Tree α) : graft (fun a => leaf (f a)) t = map f t := by
  induction t using Tree.induction with
  | leaf a => rfl
  | seq items ih => rw [graft_seq, map_seq, List.map_congr_left ih]
  | table entries ih =>
    rw [graft_table, map_table, table.injEq]
    exact List.map_congr_left fun entry he => by rw [ih entry he]

theorem graft_graft (f : β → Tree γ) (g : α → Tree β) (t : Tree α) :
    graft f (graft g t) = graft (fun a => graft f (g a)) t := by
  induction t using Tree.induction with
  | leaf a => rfl
  | seq items ih =>
    rw [graft_seq, graft_seq, graft_seq, List.map_map]
    exact congrArg seq (List.map_congr_left ih)
  | table entries ih =>
    rw [graft_table, graft_table, graft_table, List.map_map, table.injEq]
    exact List.map_congr_left fun entry he => by simp only [Function.comp_apply, ih entry he]

theorem graft_map (f : β → Tree γ) (g : α → β) (t : Tree α) :
    graft f (map g t) = graft (fun a => f (g a)) t := by
  rw [← graft_leaf, graft_graft]
  rfl

theorem map_map (f : β → γ) (g : α → β) (t : Tree α) :
    map f (map g t) = map (fun a => f (g a)) t := by
  rw [← graft_leaf f, graft_map, graft_leaf (fun a => f (g a))]

theorem map_id (t : Tree α) : map (fun a => a) t = t := by
  induction t using Tree.induction with
  | leaf a => rfl
  | seq items ih => rw [map_seq, List.map_congr_left ih, List.map_id']
  | table entries ih =>
    rw [map_table, List.map_congr_left (g := fun entry => entry), List.map_id']
    exact fun entry he => by rw [ih entry he]

theorem map_injective {f : α → β} {g : β → α} (h : ∀ a, g (f a) = a) :
    Function.Injective (map f) := by
  refine Function.LeftInverse.injective (g := map g) fun t => ?_
  simp only [map_map, h, map_id]

theorem wellFormed_map (f : α → β) {t : Tree α} (h : t.WellFormed) : (map f t).WellFormed := by
  induction t using Tree.induction with
  | leaf a => trivial
  | seq items ih =>
    rw [map_seq]
    refine (wellFormedItems_iff _).2 (List.forall_mem_map.2 fun t ht => ?_)
    exact ih t ht ((wellFormedItems_iff items).1 h t ht)
  | table entries ih =>
    rw [map_table]
    refine ⟨List.pairwise_map.2 h.1, ?_⟩
    refine (wellFormedEntries_iff _).2 (List.forall_mem_map.2 fun entry he => ?_)
    exact ih entry he ((wellFormedEntries_iff entries).1 h.2 entry he)

theorem isTerminal_map (f : α → β) (t : Tree α) : (map f t).isTerminal = t.isTerminal := by
  cases t <;> rfl

theorem child?_map (f : α → β) (t : Tree α) (segment : String) :
    (map f t).child? segment = (t.child? segment).map (map f) := by
  cases t with
  | leaf a => rfl
  | seq items =>
    rw [map_seq, child?, child?]
    cases index? segment with
    | none => rfl
    | some i => simp only [Option.bind_some, List.getElem?_map]
  | table entries =>
    rw [map_table]
    exact Fields.get?_map (map f) entries segment

theorem follow?_map (f : α → β) (path : KeyPath) : ∀ t : Tree α,
    (map f t).follow? path = (t.follow? path).map (map f) := by
  induction path with
  | nil => exact fun t => rfl
  | cons segment rest ih =>
    intro t
    rw [follow?, follow?, child?_map]
    cases t.child? segment with
    | none => rfl
    | some below => exact ih below

theorem get?_map (f : α → β) (t : Tree α) (path : KeyPath) :
    (map f t).get? path = (t.get? path).map (map f) := by
  rw [get?, get?]
  split
  · rfl
  · exact follow?_map f path t

-- ---------------------------------------------------------------------------
-- Traversal
-- ---------------------------------------------------------------------------

section

variable [Monad m] [LawfulMonad m]

theorem graftM_seq (f : α → m (Tree β)) (items : List (Tree α)) :
    graftM f (seq items) = seq <$> items.mapM (graftM f) := by
  have hItems : graftItemsM f items = items.mapM (graftM f) := by
    induction items with
    | nil => rfl
    | cons t rest ih => rw [graftItemsM, ih, List.mapM_cons]
  rw [graftM, hItems, map_eq_pure_bind]

theorem graftM_table (f : α → m (Tree β)) (entries : List (String × Tree α)) :
    graftM f (table entries) =
      table <$> entries.mapM (fun entry => (fun t => (entry.1, t)) <$> graftM f entry.2) := by
  have hEntries : graftEntriesM f entries =
      entries.mapM (fun entry => (fun t => (entry.1, t)) <$> graftM f entry.2) := by
    induction entries with
    | nil => rfl
    | cons entry rest ih => simp [graftEntriesM, ih, List.mapM_cons]
  rw [graftM, hEntries, map_eq_pure_bind]

theorem mapM_congr {f g : α → m β} {items : List α} (h : ∀ a ∈ items, f a = g a) :
    items.mapM f = items.mapM g := by
  induction items with
  | nil => rfl
  | cons a rest ih =>
    rw [List.mapM_cons, List.mapM_cons, h a List.mem_cons_self,
      ih fun a' ha' => h a' (List.mem_cons_of_mem _ ha')]

theorem graftM_graft (f : β → m (Tree γ)) (g : α → Tree β) (t : Tree α) :
    graftM f (graft g t) = graftM (fun a => graftM f (g a)) t := by
  induction t using Tree.induction with
  | leaf a => rfl
  | seq items ih =>
    rw [graft_seq, graftM_seq, graftM_seq, List.mapM_map]
    exact congrArg _ (mapM_congr ih)
  | table entries ih =>
    rw [graft_table, graftM_table, graftM_table, List.mapM_map]
    refine congrArg _ (mapM_congr fun entry he => ?_)
    simp only [Function.comp_apply, ih entry he]

theorem graftM_pure (t : Tree α) : graftM (fun a => (pure (leaf a) : m (Tree α))) t = pure t := by
  induction t using Tree.induction with
  | leaf a => rfl
  | seq items ih =>
    rw [graftM_seq, mapM_congr (g := pure) ih, List.mapM_pure, List.map_id', map_pure]
  | table entries ih =>
    rw [graftM_table, mapM_congr (g := pure) fun entry he => by rw [ih entry he, map_pure],
      List.mapM_pure, List.map_id', map_pure]

end

-- ---------------------------------------------------------------------------
-- Indivisible terminals
-- ---------------------------------------------------------------------------

section

variable {stop : Tree α → Bool}

mutual

theorem extend_eq (hStop : ∀ t, stop t = true → t.isTerminal = true) (a : Tree α) :
    ∀ b : Tree α, extend stop a b = extend (fun _ => false) a b
  | leaf b => by cases a <;> rfl
  | seq more => by
    have hMore : stop (seq more) = false := by
      by_contra h
      simpa [isTerminal] using hStop _ (eq_true_of_ne_false h)
    cases a <;> simp [extend, hMore]
  | table more => by
    have hMore : stop (table more) = false := by
      by_contra h
      simpa [isTerminal] using hStop _ (eq_true_of_ne_false h)
    cases a with
    | leaf a => rfl
    | seq items => rfl
    | table entries => simp [extend, hMore, extendEntries_eq hStop entries more]

theorem extendEntries_eq (hStop : ∀ t, stop t = true → t.isTerminal = true)
    (acc : List (String × Tree α)) : ∀ more : List (String × Tree α),
      extendEntries stop acc more = extendEntries (fun _ => false) acc more
  | [] => rfl
  | (key, b) :: rest => by
    rw [extendEntries, extendEntries, extendEntries_eq hStop _ rest]
    congr 2
    cases Fields.get? acc key with
    | none => rfl
    | some a =>
      -- an indivisible `a` is a terminal, to which nothing is ever added
      simp only [Bool.false_eq_true, if_false, extend_eq hStop a b]
      split
      · rename_i ha
        cases a with
        | leaf a => cases b <;> rfl
        | seq items => cases hStop _ ha
        | table entries => cases hStop _ ha
      · rfl

end

theorem foldl_extend_leaf (a : α) (later : List (Tree α)) :
    later.foldl (extend stop) (leaf a) = leaf a := by
  induction later with
  | nil => rfl
  | cons b rest ih =>
    have hStep : extend stop (leaf a) b = leaf a := by cases b <;> rfl
    rw [List.foldl_cons, hStep, ih]

theorem mergeWith_eq_merge (hStop : ∀ t, stop t = true → t.isTerminal = true)
    (trees : List (Option (Tree α))) : mergeWith stop trees = merge trees := by
  have hExtend : extend stop = extend (fun _ => false) :=
    funext fun a => funext fun b => extend_eq hStop a b
  rw [merge, mergeWith, mergeWith]
  cases trees.filterMap id with
  | nil => rfl
  | cons first later =>
    simp only [mergeOnto, hExtend, Bool.false_eq_true, if_false]
    split
    · rename_i hFirst
      cases first with
      | leaf a => rw [foldl_extend_leaf]
      | seq items => cases hStop _ hFirst
      | table entries => cases hStop _ hFirst
    · rfl

end

-- ---------------------------------------------------------------------------
-- Merging
-- ---------------------------------------------------------------------------

/-- What `merge` makes of the trees that are there. -/
theorem merge_eq (trees : List (Option (Tree α))) :
    merge trees =
      match trees.filterMap id with
      | [] => none
      | first :: later => some (later.foldl (extend (fun _ => false)) first) := by
  rw [merge, mergeWith]
  cases trees.filterMap id with
  | nil => rfl
  | cons first later => rfl

theorem merge_eq_none_iff {trees : List (Option (Tree α))} :
    merge trees = none ↔ trees.filterMap id = [] := by
  rw [merge_eq]
  cases trees.filterMap id <;> simp

theorem filterMap_map_option (f : α → β) (items : List (Option α)) :
    (items.map (Option.map f)).filterMap id = (items.filterMap id).map f := by
  rw [List.filterMap_map, List.map_filterMap]
  rfl

theorem extendEntries_cons (stop : Tree α → Bool) (acc : List (String × Tree α))
    (entry : String × Tree α) (rest : List (String × Tree α)) :
    extendEntries stop acc (entry :: rest) =
      extendEntries stop (extendEntries stop acc [entry]) rest := rfl

theorem extendEntries_singleton (acc : List (String × Tree α)) (key : String) (b : Tree α) :
    extendEntries (fun _ => false) acc [(key, b)] =
      Fields.insert key
        (((Fields.get? acc key).map (fun a => extend (fun _ => false) a b)).getD b) acc := by
  rw [extendEntries, extendEntries]
  cases Fields.get? acc key <;> rfl

-- ---------------------------------------------------------------------------
-- Trees put in for leaves
-- ---------------------------------------------------------------------------

/-- What the leaf that a tree is holds. -/
def leaf? : Tree α → Option α
  | leaf a => some a
  | _ => none

mutual

/-- Where `b` is merged into `a`, a leaf that meets something of the other tree has
`p`. Two nodes meet that stand under the same keys; an item that is added to a
sequence meets the sequence. -/
def meetsOnly (p : α → Bool) (a : Tree α) : Tree α → Bool
  | leaf b => p b && a.leaf?.all p
  | seq _ => a.leaf?.all p
  | table more =>
    match a with
    | table entries => meetsOnlyEntries p entries more
    | a => a.leaf?.all p

def meetsOnlyEntries (p : α → Bool) (acc : List (String × Tree α)) :
    List (String × Tree α) → Bool
  | [] => true
  | (key, b) :: rest =>
    (match Fields.get? acc key with
      | none => true
      | some a => meetsOnly p a b)
      && meetsOnlyEntries p (extendEntries (fun _ => false) acc [(key, b)]) rest

end

/-- Where trees are merged into `first`, one after the other, a leaf that meets
something has `p`. -/
def meetsOnlyOnto (p : α → Bool) (first : Tree α) : List (Tree α) → Bool
  | [] => true
  | b :: rest => meetsOnly p first b && meetsOnlyOnto p (extend (fun _ => false) first b) rest

/-- Where the trees that are there are merged, a leaf that meets something has
`p`. -/
def mergesOnly (p : α → Bool) (trees : List (Option (Tree α))) : Bool :=
  match trees.filterMap id with
  | [] => true
  | first :: later => meetsOnlyOnto p first later

section

variable {f : α → Tree β}

theorem exists_eq_leaf {t : Tree α} (h : t.isTerminal = true) : ∃ a, t = leaf a := by
  cases t with
  | leaf a => exact ⟨a, rfl⟩
  | seq items => cases h
  | table entries => cases h

mutual

theorem extend_graft (a : Tree α) : ∀ b : Tree α, meetsOnly (fun c => (f c).isTerminal) a b = true →
    extend (fun _ => false) (graft f a) (graft f b) = graft f (extend (fun _ => false) a b)
  | leaf b, h => by
    rw [meetsOnly, Bool.and_eq_true] at h
    obtain ⟨hLeaf, hFirst⟩ := h
    obtain ⟨b', hb⟩ := exists_eq_leaf hLeaf
    cases a with
    | leaf a =>
      obtain ⟨a', ha⟩ := exists_eq_leaf hFirst
      simp only [graft, ha, hb, extend]
    | seq items => simp only [graft, graftItems_eq, hb, extend, List.map_append, List.map_cons,
        List.map_nil]
    | table entries => simp only [graft, hb, extend]
  -- a sequence adds its items to a sequence, and nothing to anything else
  | seq more, h => by
    cases a with
    | leaf a =>
      obtain ⟨a', ha⟩ := exists_eq_leaf h
      simp only [graft, ha, extend]
    | seq items => simp [graft_seq, extend]
    | table entries => simp [graft_table, graft_seq, extend]
  | table more, h => by
    cases a with
    | leaf a =>
      obtain ⟨a', ha⟩ := exists_eq_leaf h
      simp only [graft, ha, extend]
    | seq items => simp [graft_seq, graft_table, extend]
    | table entries =>
      rw [graft_table, graft_table]
      simp only [extend, Bool.false_eq_true, if_false]
      rw [extendEntries_graft entries more h, graft_table]

theorem extendEntries_graft (acc : List (String × Tree α)) : ∀ more : List (String × Tree α),
    meetsOnlyEntries (fun c => (f c).isTerminal) acc more = true →
      extendEntries (fun _ => false) (acc.map (fun entry => (entry.1, graft f entry.2)))
          (more.map (fun entry => (entry.1, graft f entry.2))) =
        (extendEntries (fun _ => false) acc more).map (fun entry => (entry.1, graft f entry.2))
  | [], _ => rfl
  | (key, b) :: rest, h => by
    rw [meetsOnlyEntries, Bool.and_eq_true] at h
    obtain ⟨hHead, hRest⟩ := h
    -- one entry first; the rest goes on with what that gives
    have hFirst : extendEntries (fun _ => false)
        (acc.map (fun entry => (entry.1, graft f entry.2))) [(key, graft f b)] =
          (extendEntries (fun _ => false) acc [(key, b)]).map
            (fun entry => (entry.1, graft f entry.2)) := by
      rw [extendEntries_singleton, extendEntries_singleton, Fields.get?_map, ← Fields.insert_map]
      congr 1
      cases hAcc : Fields.get? acc key with
      | none => rfl
      | some a =>
        rw [hAcc] at hHead
        exact extend_graft a b hHead
    rw [List.map_cons, extendEntries_cons, hFirst, extendEntries_graft _ rest hRest,
      ← extendEntries_cons]

end

theorem foldl_extend_graft (later : List (Tree α)) : ∀ first : Tree α,
    meetsOnlyOnto (fun c => (f c).isTerminal) first later = true →
      (later.map (graft f)).foldl (extend (fun _ => false)) (graft f first) =
        graft f (later.foldl (extend (fun _ => false)) first) := by
  induction later with
  | nil => exact fun _ _ => rfl
  | cons b rest ih =>
    intro first h
    rw [meetsOnlyOnto, Bool.and_eq_true] at h
    rw [List.map_cons, List.foldl_cons, List.foldl_cons, extend_graft first b h.1, ih _ h.2]

theorem merge_map_eq_none_iff {g : Tree α → Tree β} {trees : List (Option (Tree α))} :
    merge (trees.map (Option.map g)) = none ↔ merge trees = none := by
  rw [merge_eq_none_iff, merge_eq_none_iff, filterMap_map_option, List.map_eq_nil_iff]

/-- Trees can be put in for leaves before merging or after it, if the leaves that
meet something become terminals. -/
theorem merge_graft {trees : List (Option (Tree α))}
    (h : mergesOnly (fun c => (f c).isTerminal) trees = true) :
    merge (trees.map (Option.map (graft f))) = (merge trees).map (graft f) := by
  rw [mergesOnly] at h
  rw [merge_eq, merge_eq, filterMap_map_option]
  cases hThere : trees.filterMap id with
  | nil => rfl
  | cons first later =>
    rw [hThere] at h
    exact congrArg some (foldl_extend_graft later first h)

end

theorem mergesOnly_of_length_le_one {trees : List (Option (Tree α))}
    (h : (trees.filterMap id).length ≤ 1) (p : α → Bool) : mergesOnly p trees = true := by
  rw [mergesOnly]
  cases hTrees : trees.filterMap id with
  | nil => rfl
  | cons first later =>
    rw [hTrees, List.length_cons] at h
    have hLater : later = [] := List.length_eq_zero_iff.1 (by omega)
    rw [hLater]
    rfl

-- ---------------------------------------------------------------------------
-- Leaves of a merge
-- ---------------------------------------------------------------------------

mutual

theorem mem_leaves_of_extend {stop : Tree α → Bool} {c : α} {a : Tree α} : ∀ {b : Tree α},
    c ∈ leaves (extend stop a b) → c ∈ leaves a ∨ c ∈ leaves b
  | leaf b, h => by
    cases a with
    | leaf a => exact .inl h
    | seq items =>
      simp only [extend, mem_leaves_seq, List.mem_append, List.mem_singleton] at h
      obtain ⟨t, ht | rfl, hc⟩ := h
      · exact .inl (mem_leaves_seq.2 ⟨t, ht, hc⟩)
      · exact .inr hc
    | table entries => exact .inl h
  | seq more, h => by
    cases a with
    | leaf a => exact .inl h
    | seq items =>
      simp only [extend, mem_leaves_seq, List.mem_append] at h
      obtain ⟨t, ht | ht, hc⟩ := h
      · exact .inl (mem_leaves_seq.2 ⟨t, ht, hc⟩)
      · split at ht
        · rw [List.mem_singleton] at ht
          exact .inr (ht ▸ hc)
        · exact .inr (mem_leaves_seq.2 ⟨t, ht, hc⟩)
    | table entries => exact .inl h
  | table more, h => by
    cases a with
    | leaf a => exact .inl h
    | seq items =>
      simp only [extend, mem_leaves_seq, List.mem_append, List.mem_singleton] at h
      obtain ⟨t, ht | rfl, hc⟩ := h
      · exact .inl (mem_leaves_seq.2 ⟨t, ht, hc⟩)
      · exact .inr hc
    | table entries =>
      rw [extend] at h
      split at h
      · exact .inl h
      · obtain ⟨entry, he, hc⟩ := mem_leaves_table.1 h
        simp only [mem_leaves_table]
        exact mem_leaves_of_extendEntries he hc

theorem mem_leaves_of_extendEntries {stop : Tree α → Bool} {c : α} {acc : List (String × Tree α)}
    {entry : String × Tree α} : ∀ {more : List (String × Tree α)},
      entry ∈ extendEntries stop acc more → c ∈ leaves entry.2 →
        (∃ e ∈ acc, c ∈ leaves e.2) ∨ ∃ e ∈ more, c ∈ leaves e.2
  | [], he, hc => .inl ⟨entry, he, hc⟩
  | (key, b) :: rest, he, hc => by
    rw [extendEntries] at he
    rcases mem_leaves_of_extendEntries he hc with ⟨e, hIn, hc⟩ | ⟨e, hIn, hc⟩
    · rcases Fields.mem_of_mem_insert hIn with rfl | hIn
      · -- the entry under `key`: what stood there, what is added, or both merged
        cases hAcc : Fields.get? acc key with
        | none =>
          simp only [hAcc] at hc
          exact .inr ⟨(key, b), List.mem_cons_self, hc⟩
        | some a =>
          simp only [hAcc] at hc
          have hOld := Fields.mem_of_get? hAcc
          split at hc
          · exact .inl ⟨(key, a), hOld, hc⟩
          · rcases mem_leaves_of_extend hc with hc | hc
            · exact .inl ⟨(key, a), hOld, hc⟩
            · exact .inr ⟨(key, b), List.mem_cons_self, hc⟩
      · exact .inl ⟨e, hIn, hc⟩
    · exact .inr ⟨e, List.mem_cons_of_mem _ hIn, hc⟩

end

theorem mem_leaves_of_foldl_extend {c : α} {stop : Tree α → Bool} {later : List (Tree α)} :
    ∀ {first : Tree α}, c ∈ leaves (later.foldl (extend stop) first) →
      ∃ t ∈ first :: later, c ∈ leaves t := by
  induction later with
  | nil => exact fun {first} h => ⟨first, List.mem_singleton.2 rfl, h⟩
  | cons b rest ih =>
    intro first h
    obtain ⟨t, ht, hc⟩ := ih h
    rcases List.mem_cons.1 ht with rfl | ht
    · rcases mem_leaves_of_extend hc with hc | hc
      · exact ⟨first, List.mem_cons_self, hc⟩
      · exact ⟨b, List.mem_cons_of_mem _ List.mem_cons_self, hc⟩
    · exact ⟨t, List.mem_cons_of_mem _ (List.mem_cons_of_mem _ ht), hc⟩

theorem mem_leaves_of_merge {c : α} {trees : List (Option (Tree α))} {t : Tree α}
    (h : merge trees = some t) (hc : c ∈ leaves t) :
    ∃ u, some u ∈ trees ∧ c ∈ leaves u := by
  rw [merge_eq] at h
  split at h
  · cases h
  · rename_i first later hThere
    cases h
    obtain ⟨u, hu, hc⟩ := mem_leaves_of_foldl_extend hc
    rw [← hThere] at hu
    obtain ⟨o, ho, rfl⟩ := List.mem_filterMap.1 hu
    exact ⟨u, ho, hc⟩

-- ---------------------------------------------------------------------------
-- Merges in which all leaves are alike
-- ---------------------------------------------------------------------------

section

variable {p : α → Bool}

mutual

theorem meetsOnly_of_leaves {a : Tree α} (ha : ∀ c ∈ leaves a, p c = true) : ∀ b : Tree α,
    (∀ c ∈ leaves b, p c = true) → meetsOnly p a b = true
  | leaf b, hb => by
    rw [meetsOnly, Bool.and_eq_true]
    refine ⟨hb b (mem_leaves_leaf.2 rfl), ?_⟩
    cases a with
    | leaf a => exact ha a (mem_leaves_leaf.2 rfl)
    | seq items => rfl
    | table entries => rfl
  | seq more, _ => by
    cases a with
    | leaf a => exact ha a (mem_leaves_leaf.2 rfl)
    | seq items => rfl
    | table entries => rfl
  | table more, hb => by
    cases a with
    | leaf a => exact ha a (mem_leaves_leaf.2 rfl)
    | seq items => rfl
    | table entries =>
      exact meetsOnlyEntries_of_leaves (fun e he c hc => ha c (mem_leaves_table.2 ⟨e, he, hc⟩)) more
        fun e he c hc => hb c (mem_leaves_table.2 ⟨e, he, hc⟩)

theorem meetsOnlyEntries_of_leaves {acc : List (String × Tree α)}
    (hAcc : ∀ e ∈ acc, ∀ c ∈ leaves e.2, p c = true) : ∀ more : List (String × Tree α),
      (∀ e ∈ more, ∀ c ∈ leaves e.2, p c = true) → meetsOnlyEntries p acc more = true
  | [], _ => rfl
  | (key, b) :: rest, hMore => by
    have hB := hMore (key, b) List.mem_cons_self
    rw [meetsOnlyEntries, Bool.and_eq_true]
    constructor
    · cases hGet : Fields.get? acc key with
      | none => rfl
      | some a => exact meetsOnly_of_leaves (hAcc (key, a) (Fields.mem_of_get? hGet)) b hB
    · -- the entries after the first step have no other leaves
      refine meetsOnlyEntries_of_leaves (fun e he c hc => ?_) rest
        fun e he => hMore e (List.mem_cons_of_mem _ he)
      rcases mem_leaves_of_extendEntries he hc with ⟨e', he', hc⟩ | ⟨e', he', hc⟩
      · exact hAcc e' he' c hc
      · cases List.mem_singleton.1 he'
        exact hB c hc

end

theorem meetsOnlyOnto_of_leaves (later : List (Tree α)) : ∀ first : Tree α,
    (∀ t ∈ first :: later, ∀ c ∈ leaves t, p c = true) →
      meetsOnlyOnto p first later = true := by
  induction later with
  | nil => exact fun _ _ => rfl
  | cons b rest ih =>
    intro first h
    have hFirst := h first List.mem_cons_self
    have hB := h b (List.mem_cons_of_mem _ List.mem_cons_self)
    rw [meetsOnlyOnto, Bool.and_eq_true]
    refine ⟨meetsOnly_of_leaves hFirst b hB, ih _ fun t ht c hc => ?_⟩
    rcases List.mem_cons.1 ht with rfl | ht
    · exact (mem_leaves_of_extend hc).elim (hFirst c) (hB c)
    · exact h t (List.mem_cons_of_mem _ (List.mem_cons_of_mem _ ht)) c hc

theorem mergesOnly_of_leaves {trees : List (Option (Tree α))}
    (h : ∀ t, some t ∈ trees → ∀ c ∈ leaves t, p c = true) : mergesOnly p trees = true := by
  rw [mergesOnly]
  cases hTrees : trees.filterMap id with
  | nil => rfl
  | cons first later =>
    refine meetsOnlyOnto_of_leaves later first fun t ht => ?_
    rw [← hTrees] at ht
    obtain ⟨o, ho, rfl⟩ := List.mem_filterMap.1 ht
    exact h t ho

end

/-- Merging does not depend on what leaves hold. -/
theorem merge_map (f : α → β) (trees : List (Option (Tree α))) :
    merge (trees.map (Option.map (map f))) = (merge trees).map (map f) := by
  -- a leaf put in for a leaf is a terminal
  have hGraft : map f = graft (fun a => leaf (f a)) := funext fun t => (graft_leaf f t).symm
  rw [hGraft]
  exact merge_graft (mergesOnly_of_leaves fun _ _ _ _ => rfl)

end Tree

end LayeredConfig
