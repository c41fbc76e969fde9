import LayeredConfig.Expansion.Draft
import LayeredConfig.Proofs.Tree

/-!
# LayeredConfig — laws of drafts

A location leads to a node of a tree by keys and indexes, so unlike a path it
reaches every node. In a well-formed value a location holds at most one text;
the leaves of its draft are told apart by where they stand.

* `Tree.at?`                        — the node at a location.
* `Draft.at?_ofValue`               — a text of a value is a leaf of its draft.
* `Draft.distinct_ofValue`          — a leaf of a draft is known by its location.
* `Draft.graft_ofValueAt`, `Draft.ofValueAt_map` — what is put in for the cells of a draft
  or done to them can as well be put in for the scalars of its value or done to these.
* `Draft.settle_settle`             — leaves can be settled in several goes.
* `Draft.map_settle`                — what is done to cells before settling or after it.
* `Draft.at?_of_settle_eq`, `Draft.value_at_of_settle_eq` — what stands at a node, and at
  a leaf, once all leaves are settled.
* `Draft.merge_settle_later`        — when it does not matter whether leaves are
  settled before or after merging.
-/

namespace LayeredConfig

-- ---------------------------------------------------------------------------
-- Nodes at locations
-- ---------------------------------------------------------------------------

namespace Tree

/-- The node one step below. -/
def below? (t : Tree α) : Step → Option (Tree α)
  | .key name => t.entry? name
  | .index i => t.items?.bind (fun items => items[i]?)

/-- The node at a location. -/
def at? (t : Tree α) : Location → Option (Tree α)
  | [] => some t
  | step :: rest => (t.below? step).bind (fun next => next.at? rest)

theorem below?_seq_index (items : List (Tree α)) (i : Nat) :
    (seq items).below? (.index i) = items[i]? := rfl

theorem below?_table_key (entries : List (String × Tree α)) (key : String) :
    (table entries).below? (.key key) = Fields.get? entries key := rfl

theorem below?_map (f : α → β) (t : Tree α) (step : Step) :
    (map f t).below? step = (t.below? step).map (map f) := by
  cases t with
  | leaf a => cases step <;> rfl
  | seq items =>
    rw [map_seq]
    cases step with
    | key name => rfl
    | index i => exact List.getElem?_map
  | table entries =>
    rw [map_table]
    cases step with
    | key name => exact Fields.get?_map (map f) entries name
    | index i => rfl

theorem at?_map (f : α → β) (location : Location) : ∀ t : Tree α,
    (map f t).at? location = (t.at? location).map (map f) := by
  induction location with
  | nil => exact fun t => rfl
  | cons step rest ih =>
    intro t
    rw [at?, at?, below?_map]
    cases t.below? step with
    | none => rfl
    | some next => exact ih next

theorem below?_graft (f : α → Tree β) {t next : Tree α} {step : Step}
    (h : t.below? step = some next) : (graft f t).below? step = some (graft f next) := by
  cases t with
  | leaf a => cases step <;> cases h
  | seq items =>
    rw [graft_seq]
    cases step with
    | key name => cases h
    | index i =>
      rw [below?_seq_index] at h
      rw [below?_seq_index, List.getElem?_map, h]
      rfl
  | table entries =>
    rw [graft_table]
    cases step with
    | key name =>
      rw [below?_table_key] at h
      rw [below?_table_key, Fields.get?_map, h]
      rfl
    | index i => cases h

theorem at?_graft (f : α → Tree β) {location : Location} : ∀ {t node : Tree α},
    t.at? location = some node → (graft f t).at? location = some (graft f node) := by
  induction location with
  | nil =>
    intro t node h
    cases h
    rfl
  | cons step rest ih =>
    intro t node h
    obtain ⟨next, hNext, hRest⟩ := Option.bind_eq_some_iff.1 h
    rw [at?, below?_graft f hNext]
    exact ih hRest

theorem mem_leaves_of_below? {t next : Tree α} {step : Step} (h : t.below? step = some next)
    {c : α} (hc : c ∈ leaves next) : c ∈ leaves t := by
  cases t with
  | leaf a => cases step <;> cases h
  | seq items =>
    cases step with
    | key name => cases h
    | index i => exact mem_leaves_seq.2 ⟨next, List.mem_of_getElem? h, hc⟩
  | table entries =>
    cases step with
    | key name => exact mem_leaves_table.2 ⟨_, Fields.mem_of_get? h, hc⟩
    | index i => cases h

theorem mem_leaves_of_at? {location : Location} : ∀ {t node : Tree α},
    t.at? location = some node → ∀ {c : α}, c ∈ leaves node → c ∈ leaves t := by
  induction location with
  | nil =>
    intro t node h c hc
    cases h
    exact hc
  | cons step rest ih =>
    intro t node h c hc
    obtain ⟨next, hNext, hRest⟩ := Option.bind_eq_some_iff.1 h
    exact mem_leaves_of_below? hNext (ih hRest hc)

end Tree

namespace Draft

open LayeredConfig.Tree

-- ---------------------------------------------------------------------------
-- The draft of a value
-- ---------------------------------------------------------------------------

theorem deferredLeaves_map {g : Cell → Cell} {m : Leaf → Leaf}
    (h : ∀ cell, leafOf? (g cell) = (leafOf? cell).map m) (d : Draft) :
    deferredLeaves (d.map g) = d.deferredLeaves.map m := by
  rw [deferredLeaves, leaves_map, deferredLeaves, List.filterMap_map, List.map_filterMap]
  exact congrFun (congrArg List.filterMap (funext h)) d.leaves

theorem mem_deferredLeaves {d : Draft} {leaf : Leaf} :
    leaf ∈ d.deferredLeaves ↔ Cell.deferred leaf ∈ d.leaves := by
  rw [deferredLeaves, List.mem_filterMap]
  constructor
  · rintro ⟨cell, hCell, hLeaf⟩
    cases cell with
    | known s => cases hLeaf
    | deferred l =>
      cases hLeaf
      exact hCell
  · exact fun h => ⟨_, h, rfl⟩

theorem length_ofItemsAt (location : Location) (items : List Value) :
    ∀ i : Nat, (ofItemsAt location i items).length = items.length := by
  induction items with
  | nil => exact fun _ => rfl
  | cons v rest ih => exact fun i => congrArg (· + 1) (ih (i + 1))

theorem getElem?_ofItemsAt (location : Location) (items : List Value) : ∀ i k : Nat,
    (ofItemsAt location i items)[k]? =
      items[k]?.map (ofValueAt (location ++ [.index (i + k)])) := by
  induction items with
  | nil => exact fun _ _ => rfl
  | cons v rest ih =>
    intro i k
    cases k with
    | zero => rfl
    | succ k =>
      rw [ofItemsAt, List.getElem?_cons_succ, List.getElem?_cons_succ, ih,
        show i + 1 + k = i + (k + 1) by omega]

theorem get?_ofEntriesAt (location : Location) (entries : List (String × Value)) (key : String) :
    Fields.get? (ofEntriesAt location entries) key =
      (Fields.get? entries key).map (ofValueAt (location ++ [.key key])) := by
  induction entries with
  | nil => rfl
  | cons entry rest ih =>
    obtain ⟨k, v⟩ := entry
    rw [ofEntriesAt, Fields.get?_cons, Fields.get?_cons, ih]
    split
    · rename_i hk
      rw [hk]
      rfl
    · rfl

theorem ofEntriesAt_eq (location : Location) (entries : List (String × Value)) :
    ofEntriesAt location entries =
      entries.map (fun entry => (entry.1, ofValueAt (location ++ [.key entry.1]) entry.2)) := by
  induction entries with
  | nil => rfl
  | cons entry rest ih => rw [ofEntriesAt, ih, List.map_cons]

section

variable {f : Cell → Tree β} {g : Scalar → Tree β}

mutual

/-- Trees put in for the cells of a draft, wherever these stand, are put in for the scalars
of its value. -/
theorem graft_ofValueAt (h : ∀ location s, (ofScalarAt location s).graft f = g s)
    (location : Location) : ∀ v : Value, (ofValueAt location v).graft f = v.graft g
  | .leaf s => h location s
  | .seq items => congrArg Tree.seq (graftItems_ofItemsAt h location items 0)
  | .table entries => congrArg Tree.table (graftEntries_ofEntriesAt h location entries)

theorem graftItems_ofItemsAt (h : ∀ location s, (ofScalarAt location s).graft f = g s)
    (location : Location) : ∀ (items : List Value) (i : Nat),
      graftItems f (ofItemsAt location i items) = graftItems g items
  | [], _ => rfl
  | v :: rest, i => by
    rw [ofItemsAt, graftItems, graft_ofValueAt h _ v, graftItems_ofItemsAt h location rest (i + 1)]
    rfl

theorem graftEntries_ofEntriesAt (h : ∀ location s, (ofScalarAt location s).graft f = g s)
    (location : Location) : ∀ entries : List (String × Value),
      graftEntries f (ofEntriesAt location entries) = graftEntries g entries
  | [] => rfl
  | (key, v) :: rest => by
    rw [ofEntriesAt, graftEntries, graft_ofValueAt h _ v, graftEntries_ofEntriesAt h location rest]
    rfl

end

end

theorem map_ofValueAt {f : Cell → β} {g : Scalar → β}
    (h : ∀ location s, (ofScalarAt location s).map f = .leaf (g s)) (location : Location)
    (v : Value) : (ofValueAt location v).map f = v.map g := by
  rw [← graft_leaf, ← graft_leaf]
  refine graft_ofValueAt (fun location s => ?_) location v
  rw [graft_leaf, h]

section

variable {f : Scalar → Scalar} {g : Cell → Cell}

mutual

/-- What is done to the scalars of a value can as well be done to the cells of its draft. -/
theorem ofValueAt_map (h : ∀ location s, (ofScalarAt location s).map g = ofScalarAt location (f s))
    (location : Location) : ∀ v : Value, ofValueAt location (v.map f) = (ofValueAt location v).map g
  | .leaf s => (h location s).symm
  | .seq items => congrArg Tree.seq (ofItemsAt_mapItems h location items 0)
  | .table entries => congrArg Tree.table (ofEntriesAt_mapEntries h location entries)

theorem ofItemsAt_mapItems
    (h : ∀ location s, (ofScalarAt location s).map g = ofScalarAt location (f s))
    (location : Location) : ∀ (items : List Value) (i : Nat),
      ofItemsAt location i (mapItems f items) = mapItems g (ofItemsAt location i items)
  | [], _ => rfl
  | v :: rest, i => by
    rw [mapItems, ofItemsAt, ofValueAt_map h _ v, ofItemsAt_mapItems h location rest (i + 1)]
    rfl

theorem ofEntriesAt_mapEntries
    (h : ∀ location s, (ofScalarAt location s).map g = ofScalarAt location (f s))
    (location : Location) : ∀ entries : List (String × Value),
      ofEntriesAt location (mapEntries f entries) = mapEntries g (ofEntriesAt location entries)
  | [] => rfl
  | (key, v) :: rest => by
    rw [mapEntries, ofEntriesAt, ofValueAt_map h _ v, ofEntriesAt_mapEntries h location rest]
    rfl

end

end

theorem below?_ofValueAt (location : Location) {v next : Value} {step : Step}
    (h : v.below? step = some next) :
    (ofValueAt location v).below? step = some (ofValueAt (location ++ [step]) next) := by
  cases v with
  | leaf s => cases step <;> cases h
  | seq items =>
    cases step with
    | key name => cases h
    | index i =>
      rw [below?_seq_index] at h
      rw [ofValueAt, below?_seq_index, getElem?_ofItemsAt, h, Nat.zero_add]
      rfl
  | table entries =>
    cases step with
    | key name =>
      rw [below?_table_key] at h
      rw [ofValueAt, below?_table_key, get?_ofEntriesAt, h]
      rfl
    | index i => cases h

theorem at?_ofValueAt {rest : Location} : ∀ (location : Location) {v node : Value},
    v.at? rest = some node →
      (ofValueAt location v).at? rest = some (ofValueAt (location ++ rest) node) := by
  induction rest with
  | nil =>
    intro location v node h
    cases h
    rw [List.append_nil]
    rfl
  | cons step rest ih =>
    intro location v node h
    obtain ⟨next, hNext, hRest⟩ := Option.bind_eq_some_iff.1 h
    rw [at?, below?_ofValueAt location hNext, Option.bind_some, ih _ hRest, List.append_assoc]
    rfl

/-- A text of a value is a deferred leaf of its draft. -/
theorem at?_ofValue {v : Value} {location : Location} {raw : Text}
    (h : v.at? location = some (.leaf (.text raw))) :
    (ofValue v).at? location = some (.leaf (.deferred ⟨location, raw⟩)) :=
  at?_ofValueAt [] h

theorem mem_deferredLeaves_ofValue {v : Value} {location : Location} {raw : Text}
    (h : v.at? location = some (.leaf (.text raw))) :
    (⟨location, raw⟩ : Leaf) ∈ (ofValue v).deferredLeaves :=
  mem_deferredLeaves.2 (mem_leaves_of_at? (at?_ofValue h) (mem_leaves_leaf.2 rfl))

theorem exists_at?_of_mem {v : Value} (hv : v.WellFormed) :
    ∀ {location : Location} {leaf : Leaf}, Cell.deferred leaf ∈ (ofValueAt location v).leaves →
      ∃ rest, leaf.location = location ++ rest ∧ v.at? rest = some (.leaf (.text leaf.raw)) := by
  induction v using Tree.induction with
  | leaf s =>
    intro location leaf h
    cases s with
    | text raw =>
      cases mem_leaves_leaf.1 h
      exact ⟨[], (List.append_nil location).symm, rfl⟩
    | _ => cases mem_leaves_leaf.1 h
  | seq items ih =>
    intro location leaf h
    obtain ⟨d, hd, hLeaf⟩ := mem_leaves_seq.1 h
    -- an item has its index as the next step
    obtain ⟨i, hi⟩ := List.mem_iff_getElem?.1 hd
    rw [getElem?_ofItemsAt, Nat.zero_add] at hi
    obtain ⟨w, hw, rfl⟩ := Option.map_eq_some_iff.1 hi
    have hIn := List.mem_of_getElem? hw
    obtain ⟨rest, hLocation, hAt⟩ := ih w hIn ((wellFormedItems_iff items).1 hv w hIn) hLeaf
    refine ⟨.index i :: rest, by simpa using hLocation, ?_⟩
    rw [at?, below?_seq_index, hw]
    exact hAt
  | table entries ih =>
    intro location leaf h
    rw [ofValueAt, mem_leaves_table, ofEntriesAt_eq] at h
    obtain ⟨entry, he, hLeaf⟩ := h
    -- an entry has its key, under which nothing else is found
    obtain ⟨⟨key, w⟩, hIn, rfl⟩ := List.mem_map.1 he
    obtain ⟨rest, hLocation, hAt⟩ := ih _ hIn ((wellFormedEntries_iff entries).1 hv.2 _ hIn) hLeaf
    refine ⟨.key key :: rest, by simpa using hLocation, ?_⟩
    rw [at?, below?_table_key, Fields.get?_of_mem hv.1 hIn]
    exact hAt

theorem at?_of_mem_deferredLeaves {v : Value} (hv : v.WellFormed) {leaf : Leaf}
    (h : leaf ∈ (ofValue v).deferredLeaves) :
    v.at? leaf.location = some (.leaf (.text leaf.raw)) := by
  obtain ⟨rest, hLocation, hAt⟩ := exists_at?_of_mem hv (mem_deferredLeaves.1 h)
  rw [hLocation]
  exact hAt

/-- No two leaves of the draft stand at one location. -/
def Distinct (d : Draft) : Prop :=
  ∀ leaf ∈ d.deferredLeaves, ∀ other ∈ d.deferredLeaves,
    leaf.location = other.location → leaf = other

theorem distinct_ofValue {v : Value} (hv : v.WellFormed) : (ofValue v).Distinct := by
  intro leaf hLeaf other hOther h
  have hAt := at?_of_mem_deferredLeaves hv hLeaf
  rw [h, at?_of_mem_deferredLeaves hv hOther] at hAt
  simp only [Option.some.injEq, Tree.leaf.injEq, Scalar.text.injEq] at hAt
  obtain ⟨location, raw⟩ := leaf
  obtain ⟨location', raw'⟩ := other
  cases h
  cases hAt
  rfl

-- ---------------------------------------------------------------------------
-- Known values
-- ---------------------------------------------------------------------------

/-- The scalar of a known cell. -/
def scalarOf : Cell → Scalar
  | .known s => s
  | .deferred _ => .null

theorem known_injective : Function.Injective known := map_injective (g := scalarOf) fun _ => rfl

theorem mem_leaves_known {v : Value} {cell : Cell} (h : cell ∈ (known v).leaves) :
    ∃ s, cell = .known s := by
  rw [known, leaves_map] at h
  obtain ⟨s, -, rfl⟩ := List.mem_map.1 h
  exact ⟨s, rfl⟩

theorem not_mem_deferredLeaves_known {v : Value} {leaf : Leaf} :
    leaf ∉ (known v).deferredLeaves := by
  intro h
  obtain ⟨s, hs⟩ := mem_leaves_known (mem_deferredLeaves.1 h)
  cases hs

theorem isTerminal_of_isDeferred {d : Draft} (h : d.isDeferred = true) : d.isTerminal = true := by
  cases d with
  | leaf cell => rfl
  | seq items => cases h
  | table entries => cases h

-- ---------------------------------------------------------------------------
-- Settling
-- ---------------------------------------------------------------------------

section

variable {value? later? : Leaf → Option Value}

theorem settleCell_of_some {leaf : Leaf} {v : Value} (h : value? leaf = some v) :
    settleCell value? (.deferred leaf) = known v := by
  rw [settleCell, h]

theorem settleCell_of_none {leaf : Leaf} (h : value? leaf = none) :
    settleCell value? (.deferred leaf) = .leaf (.deferred leaf) := by
  rw [settleCell, h]

@[simp] theorem settle_known (v : Value) : settle value? (known v) = known v := by
  rw [settle, known, graft_map]
  exact graft_leaf Cell.known v

theorem settle_settle (h : ∀ leaf v, value? leaf = some v → later? leaf = some v) (d : Draft) :
    settle later? (settle value? d) = settle later? d := by
  rw [settle, settle, settle, graft_graft]
  refine graft_congr fun cell _ => ?_
  cases cell with
  | known s => rfl
  | deferred leaf =>
    cases hLeaf : value? leaf with
    | none => rw [settleCell_of_none hLeaf, graft]
    -- what was put in has no leaves left to settle
    | some v =>
      rw [settleCell_of_some hLeaf, settleCell_of_some (h leaf v hLeaf)]
      exact settle_known v

theorem settle_of_none (h : ∀ leaf, value? leaf = none) (d : Draft) : settle value? d = d := by
  rw [settle, graft_congr (g := fun cell => .leaf cell), graft_leaf, map_id]
  intro cell _
  cases cell with
  | known s => rfl
  | deferred leaf => exact settleCell_of_none (h leaf)

/-- What is done to cells may be done before settling or after it, if it does the same to
scalars and to the scalars of the values put in. -/
theorem map_settle {g : Cell → Cell} {k : Scalar → Scalar} {m : Leaf → Leaf}
    (hKnown : ∀ s, g (.known s) = .known (k s)) (hDeferred : ∀ l, g (.deferred l) = .deferred (m l))
    (hValue : ∀ l, later? (m l) = (value? l).map (map k)) (d : Draft) :
    (settle value? d).map g = settle later? (d.map g) := by
  rw [settle, settle, graft_map, ← graft_leaf, graft_graft]
  refine graft_congr fun cell _ => ?_
  cases cell with
  | known s =>
    rw [hKnown]
    exact congrArg leaf (hKnown s)
  | deferred l =>
    have hLater := hValue l
    cases h : value? l with
    | none =>
      rw [h] at hLater
      rw [hDeferred, settleCell_of_none h, settleCell_of_none hLater]
      exact congrArg leaf (hDeferred l)
    | some v =>
      rw [h] at hLater
      rw [hDeferred, settleCell_of_some h, settleCell_of_some hLater, graft_leaf, known, known,
        map_map, map_map, funext hKnown]

/-- Where all leaves are settled, a value stands for every node. -/
theorem at?_of_settle_eq {d e : Draft} {v : Value} (h : settle value? d = known v)
    {location : Location} (hNode : d.at? location = some e) :
    ∃ w, v.at? location = some w ∧ settle value? e = known w := by
  have hAt := at?_graft (settleCell value?) hNode
  rw [← settle, h, known, at?_map] at hAt
  obtain ⟨w, hw, hKnown⟩ := Option.map_eq_some_iff.1 hAt
  exact ⟨w, hw, hKnown.symm⟩

/-- Where all leaves are settled, each has a value, which stands in its place. -/
theorem value_at_of_settle_eq {d : Draft} {v : Value} (h : settle value? d = known v)
    {location : Location} {leaf : Leaf}
    (hLeaf : d.at? location = some (.leaf (.deferred leaf))) :
    ∃ w, value? leaf = some w ∧ v.at? location = some w := by
  obtain ⟨w, hw, hKnown⟩ := at?_of_settle_eq h hLeaf
  cases hValue : value? leaf with
  | none =>
    -- a leaf without a value would still be deferred, and nothing in `known v` is
    rw [settle, graft, settleCell_of_none hValue] at hKnown
    obtain ⟨s, hs⟩ := mem_leaves_known (v := w) (hKnown ▸ mem_leaves_leaf.2 rfl)
    cases hs
  | some x =>
    rw [settle, graft, settleCell_of_some hValue] at hKnown
    rw [known_injective hKnown]
    exact ⟨w, rfl, hw⟩

/-- Where all leaves are settled, none is without a value. -/
theorem exists_value_of_settle_eq {d : Draft} {v : Value} (h : settle value? d = known v)
    {leaf : Leaf} (hLeaf : leaf ∈ d.deferredLeaves) : ∃ w, value? leaf = some w := by
  cases hValue : value? leaf with
  | some w => exact ⟨w, rfl⟩
  | none =>
    exfalso
    have hKept : Cell.deferred leaf ∈ leaves (settleCell value? (.deferred leaf)) := by
      rw [settleCell_of_none hValue]
      exact mem_leaves_leaf.2 rfl
    have hIn : leaf ∈ (settle value? d).deferredLeaves :=
      mem_deferredLeaves.2 (mem_leaves_graft hKept (mem_deferredLeaves.1 hLeaf))
    rw [h] at hIn
    exact not_mem_deferredLeaves_known hIn

theorem mem_deferredLeaves_of_settle {d : Draft} {leaf : Leaf}
    (h : leaf ∈ (settle value? d).deferredLeaves) :
    leaf ∈ d.deferredLeaves ∧ value? leaf = none := by
  rw [mem_deferredLeaves] at h ⊢
  induction d using Tree.induction with
  | leaf cell =>
    cases cell with
    | known s => cases mem_leaves_leaf.1 h
    | deferred l =>
      cases hl : value? l with
      | none =>
        rw [settle, graft, settleCell_of_none hl] at h
        cases mem_leaves_leaf.1 h
        exact ⟨mem_leaves_leaf.2 rfl, hl⟩
      | some v =>
        rw [settle, graft, settleCell_of_some hl] at h
        exact absurd (mem_deferredLeaves.2 h) not_mem_deferredLeaves_known
  | seq items ih =>
    rw [settle, graft_seq] at h
    obtain ⟨d, hd, hLeaf⟩ := mem_leaves_seq.1 h
    obtain ⟨item, hItem, rfl⟩ := List.mem_map.1 hd
    have ⟨hIn, hNone⟩ := ih item hItem hLeaf
    exact ⟨mem_leaves_seq.2 ⟨item, hItem, hIn⟩, hNone⟩
  | table entries ih =>
    rw [settle, graft_table] at h
    obtain ⟨e, he, hLeaf⟩ := mem_leaves_table.1 h
    obtain ⟨entry, hEntry, rfl⟩ := List.mem_map.1 he
    have ⟨hIn, hNone⟩ := ih entry hEntry hLeaf
    exact ⟨mem_leaves_table.2 ⟨entry, hEntry, hIn⟩, hNone⟩

theorem mem_deferredLeaves_of_merge {found : List (Option Draft)} {d : Draft}
    (h : merge (found.map (Option.map (settle value?))) = some d) {leaf : Leaf}
    (hLeaf : leaf ∈ d.deferredLeaves) : ∃ e, some e ∈ found ∧ leaf ∈ e.deferredLeaves := by
  obtain ⟨e, he, hIn⟩ := mem_leaves_of_merge h (mem_deferredLeaves.1 hLeaf)
  obtain ⟨o, ho, hSettle⟩ := List.mem_map.1 he
  obtain ⟨u, rfl, rfl⟩ := Option.map_eq_some_iff.1 hSettle
  exact ⟨u, ho, (mem_deferredLeaves_of_settle (mem_deferredLeaves.2 hIn)).1⟩

/-- Nothing but a terminal comes in place of the cell. -/
def settlesToTerminal (value? : Leaf → Option Value) (cell : Cell) : Bool :=
  (settleCell value? cell).isTerminal

theorem settlesToTerminal_of_terminals {d : Draft}
    (h : ∀ leaf ∈ d.deferredLeaves, ∀ v, value? leaf = some v → v.isTerminal = true) :
    ∀ cell ∈ d.leaves, settlesToTerminal value? cell = true := by
  intro cell hCell
  cases cell with
  | known s => rfl
  | deferred leaf =>
    rw [settlesToTerminal]
    cases hLeaf : value? leaf with
    | none =>
      rw [settleCell_of_none hLeaf]
      rfl
    | some v =>
      rw [settleCell_of_some hLeaf, known, isTerminal_map]
      exact h leaf (mem_deferredLeaves.2 hCell) v hLeaf

/-- Leaves that become terminals may be settled after merging. -/
theorem merge_settle_of_terminals {found : List (Option Draft)}
    (h : ∀ d, some d ∈ found → ∀ leaf ∈ d.deferredLeaves, ∀ v, value? leaf = some v →
      v.isTerminal = true) :
    merge (found.map (Option.map (settle value?))) = (merge found).map (settle value?) :=
  merge_graft (mergesOnly_of_leaves fun d hd => settlesToTerminal_of_terminals (h d hd))

/-- Whether leaves are settled before or after merging makes a difference only
where a leaf meets something and becomes a sequence or a table. -/
theorem merge_settle_later {found : List (Option Draft)}
    (hLater : ∀ leaf v, value? leaf = some v → later? leaf = some v)
    (h : mergesOnly (settlesToTerminal later?) (found.map (Option.map (settle value?))) = true) :
    merge (found.map (Option.map (settle later?))) =
      (merge (found.map (Option.map (settle value?)))).map (settle later?) := by
  have hTwice : found.map (Option.map (settle later?)) =
      (found.map (Option.map (settle value?))).map (Option.map (settle later?)) := by
    rw [List.map_map]
    refine List.map_congr_left fun o _ => ?_
    cases o with
    | none => rfl
    | some d => exact congrArg some (settle_settle hLater d).symm
  rw [hTwice]
  exact merge_graft h

end

end Draft

end LayeredConfig
