import LayeredConfig.Proofs.Stages
import LayeredConfig.Proofs.Draft

/-!
# LayeredConfig — what later trees may do

A tree *extends* another if it has grown out of it: terminals are as they were,
sequences may have got items at their end, and tables may have got keys. Merging one
more tree into what is merged so far always gives an extension of it, whatever is
indivisible, and extensions of extensions are extensions. So trees that come later in
a merge can only add.

* `Tree.Extends`             — the relation.
* `Tree.Extends.at?`         — a tree has the nodes of every tree that it extends.
* `Tree.extends_extend`      — one more tree only adds,
* `Tree.extends_foldl`       — and so do any number of trees.
* `Setup.later_only_extends` — sources only add to what the sources before them give.
-/

namespace LayeredConfig

namespace Tree

-- ---------------------------------------------------------------------------
-- The order
-- ---------------------------------------------------------------------------

/-- The second tree has grown out of the first one. -/
inductive Extends : Tree α → Tree α → Prop
  | terminal (a : α) : Extends (leaf a) (leaf a)
  | seq {items more : List (Tree α)} (front : items <+: more) : Extends (seq items) (seq more)
  | table {entries more : Fields (Tree α)}
      (keys : ∀ key ∈ Fields.keys entries, key ∈ Fields.keys more)
      (values : ∀ key a b, Fields.get? entries key = some a → Fields.get? more key = some b →
        Extends a b) :
      Extends (table entries) (table more)

/-- A table extends another if it finds, under each key of that, an extension of what
stands there. -/
theorem extends_table {entries more : Fields (Tree α)}
    (h : ∀ key a, Fields.get? entries key = some a →
      ∃ b, Fields.get? more key = some b ∧ Extends a b) :
    Extends (table entries) (table more) := by
  refine .table (fun key hKey => ?_) fun key a b ha hb => ?_
  · obtain ⟨a, ha⟩ := Option.ne_none_iff_exists'.1 (Fields.mem_keys_iff.1 hKey)
    obtain ⟨b, hb, -⟩ := h key a ha
    exact Fields.mem_keys_iff.2 (hb ▸ Option.some_ne_none b)
  · obtain ⟨b', hb', hExtends⟩ := h key a ha
    rw [hb] at hb'
    cases hb'
    exact hExtends

namespace Extends

theorem get? {entries more : Fields (Tree α)} (h : Extends (Tree.table entries) (Tree.table more))
    {key : String} {a : Tree α} (ha : Fields.get? entries key = some a) :
    ∃ b, Fields.get? more key = some b ∧ Extends a b := by
  cases h with
  | table keys values =>
    have hKey := keys key (Fields.mem_keys_iff.2 (ha ▸ Option.some_ne_none a))
    obtain ⟨b, hb⟩ := Option.ne_none_iff_exists'.1 (Fields.mem_keys_iff.1 hKey)
    exact ⟨b, hb, values key a b ha hb⟩

theorem refl (t : Tree α) : Extends t t := by
  induction t using Tree.induction with
  | leaf a => exact .terminal a
  | seq items _ => exact .seq List.prefix_rfl
  | table entries ih =>
    exact extends_table fun key a ha => ⟨a, ha, ih (key, a) (Fields.mem_of_get? ha)⟩

theorem trans {a b c : Tree α} (hab : Extends a b) (hbc : Extends b c) : Extends a c := by
  induction hab generalizing c with
  | terminal a => exact hbc
  | seq front =>
    cases hbc with
    | seq front' => exact .seq (front.trans front')
  | @table entries more keys values ih =>
    cases hbc with
    | @table _ others keys' values' =>
      refine extends_table fun key x hx => ?_
      obtain ⟨y, hy, -⟩ := get? (.table keys values) hx
      obtain ⟨z, hz, hyz⟩ := get? (.table keys' values') hy
      exact ⟨z, hz, ih key x y hx hy hyz⟩

/-- A tree has all the nodes of the trees that it extends, or extensions of them. -/
theorem at? {location : Location} : ∀ {v w t : Tree α}, Extends v w → v.at? location = some t →
    ∃ t', w.at? location = some t' ∧ Extends t t' := by
  induction location with
  | nil =>
    intro v w t h ht
    cases ht
    exact ⟨w, rfl, h⟩
  | cons step rest ih =>
    intro v w t h ht
    obtain ⟨next, hNext, hRest⟩ := Option.bind_eq_some_iff.1 ht
    have hBelow : ∃ next', w.below? step = some next' ∧ Extends next next' := by
      cases h with
      | terminal a => exact ⟨next, hNext, refl next⟩
      | @seq items more front =>
        cases step with
        | key name => cases hNext
        | index i =>
          obtain ⟨added, rfl⟩ := front
          have hBound := (List.getElem?_eq_some_iff.1 hNext).1
          exact ⟨next, (List.getElem?_append_left hBound).trans hNext, refl next⟩
      | @table entries more keys values =>
        cases step with
        | key name => exact get? (.table keys values) hNext
        | index i => cases hNext
    obtain ⟨next', hNext', hExtends⟩ := hBelow
    obtain ⟨t', ht', hEnd⟩ := ih hExtends hRest
    exact ⟨t', Option.bind_eq_some_iff.2 ⟨next', hNext', ht'⟩, hEnd⟩

end Extends

-- ---------------------------------------------------------------------------
-- One more tree
-- ---------------------------------------------------------------------------

/-- A table extends what it was before an entry was put in, if the new entry extends
the old one. -/
theorem extends_insert {entries : Fields (Tree α)} {key : String} {b : Tree α}
    (h : ∀ a, Fields.get? entries key = some a → Extends a b) :
    Extends (table entries) (table (Fields.insert key b entries)) := by
  refine extends_table fun other a ha => ?_
  by_cases hKey : other = key
  · subst hKey
    exact ⟨b, Fields.get?_insert_self other b entries, h a ha⟩
  · exact ⟨a, (Fields.get?_insert_of_ne hKey b entries).trans ha, .refl a⟩

section

variable (stop : Tree α → Bool)

mutual

theorem extends_extend (a : Tree α) : ∀ b : Tree α, Extends a (extend stop a b)
  | leaf b => by
    cases a with
    | leaf a => exact .refl _
    | seq items => exact .seq (List.prefix_append _ _)
    | table entries => exact .refl _
  | seq more => by
    cases a with
    | leaf a => exact .refl _
    | seq items => exact .seq (List.prefix_append _ _)
    | table entries => exact .refl _
  | table more => by
    cases a with
    | leaf a => exact .refl _
    | seq items => exact .seq (List.prefix_append _ _)
    | table entries =>
      rw [extend]
      split
      · exact .refl _
      · exact extends_extendEntries entries more

theorem extends_extendEntries (acc : List (String × Tree α)) : ∀ more : List (String × Tree α),
    Extends (table acc) (table (extendEntries stop acc more))
  | [] => .refl _
  | (key, b) :: rest => by
    rw [extendEntries]
    refine Extends.trans (extends_insert fun a ha => ?_) (extends_extendEntries _ rest)
    rw [ha]
    show Extends a (if stop a then a else extend stop a b)
    split
    · exact .refl a
    · exact extends_extend a b

end

-- ---------------------------------------------------------------------------
-- Any number of trees
-- ---------------------------------------------------------------------------

theorem extends_foldl (later : List (Tree α)) : ∀ first : Tree α,
    Extends first (later.foldl (extend stop) first) := by
  induction later with
  | nil => exact .refl
  | cons b rest ih => exact fun first => (extends_extend stop first b).trans (ih _)

theorem mergeOnto_extends (first : Tree α) (later more : List (Tree α)) :
    Extends (mergeOnto stop first later) (mergeOnto stop first (later ++ more)) := by
  rw [mergeOnto, mergeOnto]
  split
  · exact .refl first
  · rw [List.foldl_append]
    exact extends_foldl stop more _

theorem mergeWith_extends {xs : List (Option (Tree α))} (hThere : ∃ t, some t ∈ xs)
    (ys : List (Option (Tree α))) :
    ∃ v w, mergeWith stop xs = some v ∧ mergeWith stop (xs ++ ys) = some w ∧ Extends v w := by
  obtain ⟨t, ht⟩ := hThere
  obtain ⟨first, later, hList⟩ : ∃ first later, xs.filterMap id = first :: later :=
    List.exists_cons_of_ne_nil (List.ne_nil_of_mem (List.mem_filterMap.2 ⟨some t, ht, rfl⟩))
  refine ⟨_, _, ?_, ?_, mergeOnto_extends stop first later (ys.filterMap id)⟩
  · rw [mergeWith, hList]
  · rw [mergeWith, List.filterMap_append, hList]
    rfl

end

end Tree

-- ---------------------------------------------------------------------------
-- Sources
-- ---------------------------------------------------------------------------

namespace Setup

open LayeredConfig.Tree

variable {options : Options}

theorem merged_extends {front : List Layer} (hFront : front ≠ []) (back : List Layer) :
    Extends (merged options front) (merged options (front ++ back)) := by
  obtain ⟨layer, hLayer⟩ := List.exists_mem_of_ne_nil front hFront
  have hThere : ∃ t, some t ∈ front.map fun layer => some (layerValue options layer) :=
    ⟨layerValue options layer, List.mem_map.2 ⟨layer, hLayer, rfl⟩⟩
  obtain ⟨v, w, hv, hw, hExtends⟩ := mergeWith_extends (fun _ => false) hThere
    (back.map fun layer => some (layerValue options layer))
  rw [← List.map_append] at hw
  rw [merged, merged, Tree.merge, Tree.merge, hv, hw]
  exact hExtends

/-- **Later sources only extend.** Whatever is taken as indivisible, trees of which at
least one is there merge to a tree that is extended by the merge of these and any
further trees. So where the first sources of a setup give layers, each node of the tree
that these layers merge to is there, or an extension of it, in the tree that all layers
of the setup merge to. -/
theorem later_only_extends :
    (∀ (stop : Tree α → Bool) (xs ys : List (Option (Tree α))), (∃ t, some t ∈ xs) →
      ∃ v w, mergeWith stop xs = some v ∧ mergeWith stop (xs ++ ys) = some w ∧ Extends v w) ∧
    ∀ (setup : Setup σ) (world : World) (front back : List Source) (layers all : List Layer),
      setup.sources = front ++ back →
      Source.allLayers world setup.options front = .ok layers → layers ≠ [] →
      Source.allLayers world setup.options setup.sources = .ok all →
        ∀ location t, (merged setup.options layers).at? location = some t →
          ∃ t', (merged setup.options all).at? location = some t' ∧ Extends t t' := by
  refine ⟨fun stop xs ys hThere => mergeWith_extends stop hThere ys, ?_⟩
  intro setup world front back layers all hSources hFront hLayers hAll location t ht
  -- the layers of all the sources begin with those of the first ones
  rw [hSources, Source.allLayers_append_of_ok hFront] at hAll
  cases hBack : Source.allLayers world setup.options back with
  | error e =>
    rw [hBack] at hAll
    cases hAll
  | ok more =>
    rw [hBack] at hAll
    cases hAll
    exact (merged_extends hLayers more).at? ht

/-- Trees that are marked are indivisible. -/
def isMarked (t : Tree Nat) : Bool := (t.entry? "mark").isSome

def firstTrees : List (Option (Tree Nat)) :=
  [none, some (.table [("a", .seq [.leaf 1]), ("b", .table [("x", .leaf 2)]),
    ("m", .table [("mark", .leaf 3)])])]

def laterTrees : List (Option (Tree Nat)) :=
  [some (.table [("a", .table [("mark", .leaf 4)]), ("b", .table [("x", .leaf 5), ("y", .leaf 6)]),
    ("c", .leaf 7), ("m", .table [("z", .leaf 8)])]), none,
    some (.table [("a", .seq [.leaf 9]), ("mark", .leaf 10)])]

/-- The sequence and one of the tables grow. A marked table does not, and another one
adds nothing. -/
theorem later_only_extends_around_marks :
    let v : Tree Nat := .table [("a", .seq [.leaf 1]), ("b", .table [("x", .leaf 2)]),
      ("m", .table [("mark", .leaf 3)])]
    let w : Tree Nat := .table [("a", .seq [.leaf 1, .table [("mark", .leaf 4)]]),
      ("b", .table [("x", .leaf 2), ("y", .leaf 6)]), ("c", .leaf 7),
      ("m", .table [("mark", .leaf 3)])]
    mergeWith isMarked firstTrees = some v ∧
      mergeWith isMarked (firstTrees ++ laterTrees) = some w ∧ Extends v w ∧
      ∀ location t, (merged Options.default directoryLayers).at? location = some t →
        ∃ t', (merged Options.default (directoryLayers ++ directoryLayers)).at? location = some t' ∧
          Extends t t' := by
  intro v w
  have hv : mergeWith isMarked firstTrees = some v := by rfl
  have hw : mergeWith isMarked (firstTrees ++ laterTrees) = some w := by rfl
  have hLater := later_only_extends (α := Nat) (σ := Unit)
  obtain ⟨v', w', hv', hw', hExtends⟩ := hLater.1 isMarked firstTrees laterTrees
    ⟨_, List.mem_cons_of_mem none List.mem_cons_self⟩
  rw [hv] at hv'
  rw [hw] at hw'
  cases hv'
  cases hw'
  exact ⟨hv, hw, hExtends, hLater.2 ⟨[.custom (.ok directoryLayers), .custom (.ok directoryLayers)],
    Options.default, [], [], none⟩ ⟨⟨fun _ => none, []⟩, []⟩ [.custom (.ok directoryLayers)]
    [.custom (.ok directoryLayers)] directoryLayers _ rfl rfl (List.cons_ne_nil _ _) rfl⟩

end Setup

end LayeredConfig
