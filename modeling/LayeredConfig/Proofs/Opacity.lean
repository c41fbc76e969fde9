import LayeredConfig.Proofs.Merge

/-!
# LayeredConfig — indivisible trees in a merge

Merging can be told that some trees are indivisible. It then asks, wherever it comes to a tree,
whether this is one. But it is as if it did not ask at all, and had terminals in their places: an
indivisible tree is a result, stands under its key, or is added to a sequence, as a whole, and
nothing is ever merged into it. This needs that merging makes no tree indivisible which is not so
already. For then what has come together under a key can be asked again and again.

* A tree is wrapped by putting terminals in for its indivisible parts, from the top (`Tree.wrap`).
* Wrapped trees merge to a wrapped tree, of what the trees merge to (`Tree.Wraps.extend`, for two of
  them, by induction on the second).

Main results:

* `Tree.wellFormed_extend`   — merging keeps tables in order, whatever is indivisible.
* `Tree.StaysDivisible`      — merging makes nothing indivisible.
* `Tree.mergeWith_eq_unwrap` — indivisible trees are as good as terminals.
-/

namespace LayeredConfig

namespace Tree

-- ---------------------------------------------------------------------------
-- Well-formed trees
-- ---------------------------------------------------------------------------

section

variable {stop : Tree α → Bool}

mutual

/-- Merging keeps tables in order. -/
theorem wellFormed_extend {a : Tree α} (ha : a.WellFormed) :
    ∀ {b : Tree α}, b.WellFormed → (extend stop a b).WellFormed
  | leaf b, _ => by
    cases a with
    | leaf a => exact ha
    | table entries => exact ha
    | seq items =>
      refine (wellFormedItems_iff _).2 fun t ht => ?_
      rcases List.mem_append.1 ht with ht | ht
      · exact (wellFormedItems_iff items).1 ha t ht
      · rw [List.mem_singleton.1 ht]
        trivial
  | seq more, hb => by
    cases a with
    | leaf a => exact ha
    | table entries => exact ha
    | seq items =>
      refine (wellFormedItems_iff _).2 fun t ht => ?_
      rcases List.mem_append.1 ht with ht | ht
      · exact (wellFormedItems_iff items).1 ha t ht
      · split at ht
        · rw [List.mem_singleton.1 ht]
          exact hb
        · exact (wellFormedItems_iff more).1 hb t ht
  | table more, hb => by
    cases a with
    | leaf a => exact ha
    | seq items =>
      refine (wellFormedItems_iff _).2 fun t ht => ?_
      rcases List.mem_append.1 ht with ht | ht
      · exact (wellFormedItems_iff items).1 ha t ht
      · rw [List.mem_singleton.1 ht]
        exact hb
    | table entries =>
      rw [extend]
      split
      · exact ha
      · exact wellFormed_extendEntries ha.1 ha.2 hb.2

theorem wellFormed_extendEntries {acc : Fields (Tree α)} (hOrdered : Fields.Ordered acc)
    (hAcc : WellFormedEntries acc) : ∀ {more : Fields (Tree α)}, WellFormedEntries more →
      (table (extendEntries stop acc more)).WellFormed
  | [], _ => ⟨hOrdered, hAcc⟩
  | (key, b) :: rest, hMore => by
    rw [extendEntries]
    refine wellFormed_extendEntries (Fields.ordered_insert hOrdered _ _) ?_ hMore.2
    rw [wellFormedEntries_iff] at hAcc ⊢
    intro entry hEntry
    rcases Fields.mem_of_mem_insert hEntry with rfl | hEntry
    · -- what has come together under the key
      cases hGet : Fields.get? acc key with
      | none => exact hMore.1
      | some a =>
        have ha := hAcc (key, a) (Fields.mem_of_get? hGet)
        show (if stop a then a else extend stop a b).WellFormed
        split
        · exact ha
        · exact wellFormed_extend ha hMore.1
    · exact hAcc entry hEntry

end

end

-- ---------------------------------------------------------------------------
-- Wrapped trees
-- ---------------------------------------------------------------------------

section

variable (stop : Tree α → Bool)

mutual

/-- The tree with a terminal in the place of each indivisible part. These are looked for from the
top, through the keys of tables. -/
def wrap : Tree α → Tree (α ⊕ Tree α)
  | leaf a => if stop (leaf a) then leaf (.inr (leaf a)) else leaf (.inl a)
  | seq items => if stop (seq items) then leaf (.inr (seq items)) else map .inl (seq items)
  | table entries =>
    if stop (table entries) then leaf (.inr (table entries)) else table (wrapEntries entries)

def wrapEntries : List (String × Tree α) → List (String × Tree (α ⊕ Tree α))
  | [] => []
  | (key, t) :: rest => (key, wrap t) :: wrapEntries rest

end

/-- The tree with the parts put back that terminals stand for. -/
def unwrap : Tree (α ⊕ Tree α) → Tree α := graft (Sum.elim leaf id)

mutual

/-- The terminals that stand for parts stand for indivisible ones, and from the top through keys
there is no other indivisible part. -/
def IsWrapped : Tree (α ⊕ Tree α) → Prop
  | leaf (.inl a) => stop (leaf a) = false
  | leaf (.inr t) => stop t = true
  | seq items => stop (unwrap (seq items)) = false
  | table entries => stop (unwrap (table entries)) = false ∧ IsWrappedEntries entries

def IsWrappedEntries : List (String × Tree (α ⊕ Tree α)) → Prop
  | [] => True
  | (_, s) :: rest => IsWrapped s ∧ IsWrappedEntries rest

end

end

section

variable {stop : Tree α → Bool}

theorem wrapEntries_eq (entries : List (String × Tree α)) :
    wrapEntries stop entries = entries.map fun entry => (entry.1, wrap stop entry.2) := by
  induction entries with
  | nil => rfl
  | cons entry rest ih => rw [wrapEntries, ih, List.map_cons]

theorem isWrappedEntries_iff (entries : List (String × Tree (α ⊕ Tree α))) :
    IsWrappedEntries stop entries ↔ ∀ entry ∈ entries, IsWrapped stop entry.2 := by
  induction entries with
  | nil => simp [IsWrappedEntries]
  | cons entry rest ih => rw [IsWrappedEntries, ih, List.forall_mem_cons]

theorem unwrap_map_inl (t : Tree α) : unwrap (map Sum.inl t) = t := by
  rw [unwrap, graft_map]
  exact (graft_leaf id t).trans (map_id t)

theorem unwrap_wrap (t : Tree α) : unwrap (wrap stop t) = t := by
  induction t using Tree.induction with
  | leaf a =>
    rw [wrap]
    split <;> rfl
  | seq items _ =>
    rw [wrap]
    split
    · rfl
    · exact unwrap_map_inl _
  | table entries ih =>
    rw [wrap]
    split
    · rfl
    · rw [wrapEntries_eq, unwrap, graft_table, List.map_map]
      refine congrArg table ((List.map_congr_left fun entry hEntry => ?_).trans (List.map_id _))
      exact Prod.ext rfl (ih entry hEntry)

theorem isWrapped_wrap (t : Tree α) : IsWrapped stop (wrap stop t) := by
  induction t using Tree.induction with
  | leaf a =>
    rw [wrap]
    split
    · rename_i h
      exact h
    · rename_i h
      exact eq_false_of_ne_true h
  | seq items _ =>
    rw [wrap]
    split
    · rename_i h
      exact h
    · rename_i h
      rw [map_seq, IsWrapped, ← map_seq, unwrap_map_inl]
      exact eq_false_of_ne_true h
  | table entries ih =>
    have hUnwrap : unwrap (wrap stop (table entries)) = table entries := unwrap_wrap _
    rw [wrap] at hUnwrap ⊢
    split
    · rename_i h
      exact h
    · rename_i h
      rw [if_neg h] at hUnwrap
      refine ⟨?_, ?_⟩
      · rw [hUnwrap]
        exact eq_false_of_ne_true h
      · rw [isWrappedEntries_iff, wrapEntries_eq]
        exact List.forall_mem_map.2 ih

-- ---------------------------------------------------------------------------
-- Indivisible trees in a merge
-- ---------------------------------------------------------------------------

/-- To a sequence an indivisible tree is added as a whole. -/
theorem extend_seq_of_stop {b : Tree α} (h : stop b = true) (items : List (Tree α)) :
    extend stop (seq items) b = seq (items ++ [b]) := by
  cases b with
  | leaf b => rfl
  | seq more => rw [extend, if_pos h]
  | table more => rfl

/-- To a table it adds nothing. -/
theorem extend_table_of_stop {b : Tree α} (h : stop b = true) (entries : List (String × Tree α)) :
    extend stop (table entries) b = table entries := by
  cases b with
  | leaf b => rfl
  | seq more => rfl
  | table more => rw [extend, if_pos h]

theorem extend_leaf (a : α) (b : Tree α) : extend stop (leaf a) b = leaf a := by
  cases b <;> rfl

/-- Merging makes no tree indivisible which is not so already. -/
def StaysDivisible (stop : Tree α → Bool) : Prop :=
  ∀ a b merged : Tree α, a.WellFormed → b.WellFormed → stop a = false →
    mergeWith stop [some a, some b] = some merged → stop merged = false

theorem StaysDivisible.extend (h : StaysDivisible stop) {a b : Tree α} (ha : a.WellFormed)
    (hb : b.WellFormed) (hStop : stop a = false) : stop (extend stop a b) = false :=
  h a b _ ha hb hStop (by simp [mergeWith, mergeOnto, hStop])

/-- The wrapped tree stands for a tree that is well-formed. -/
structure Wraps (stop : Tree α → Bool) (s : Tree (α ⊕ Tree α)) (t : Tree α) : Prop where
  unwrap_eq : unwrap s = t
  isWrapped : IsWrapped stop s
  wellFormed : t.WellFormed

theorem wraps_wrap {t : Tree α} (h : t.WellFormed) : Wraps stop (wrap stop t) t :=
  ⟨unwrap_wrap t, isWrapped_wrap t, h⟩

/-- What is not a terminal for an indivisible part stands for a tree that is divisible. -/
theorem Wraps.stop_eq_false {s : Tree (α ⊕ Tree α)} {t : Tree α} (h : Wraps stop s t)
    (hs : ∀ u, s ≠ leaf (.inr u)) : stop t = false := by
  obtain ⟨rfl, hWrapped, -⟩ := h
  cases s with
  | leaf c =>
    cases c with
    | inl a => exact hWrapped
    | inr u => exact absurd rfl (hs u)
  | seq items => exact hWrapped
  | table entries => exact hWrapped.1

@[simp] theorem unwrap_inl (a : α) : unwrap (leaf (.inl a)) = leaf a := rfl

@[simp] theorem unwrap_inr (t : Tree α) : unwrap (leaf (.inr t)) = t := rfl

theorem unwrap_seq (items : List (Tree (α ⊕ Tree α))) :
    unwrap (seq items) = seq (items.map unwrap) := graft_seq _ items

theorem unwrap_table (entries : List (String × Tree (α ⊕ Tree α))) :
    unwrap (table entries) = table (entries.map fun entry => (entry.1, unwrap entry.2)) :=
  graft_table _ entries

/-- What a sequence takes in of a wrapped tree. -/
theorem unwrap_extend_seq (items : List (Tree (α ⊕ Tree α))) {b : Tree (α ⊕ Tree α)}
    (hb : IsWrapped stop b) : unwrap (Tree.extend (fun _ => false) (seq items) b) =
      Tree.extend stop (unwrap (seq items)) (unwrap b) := by
  cases b with
  | leaf c =>
    cases c with
    | inl a => simp [Tree.extend, unwrap_seq]
    | inr u =>
      have hStop : stop u = true := hb
      show _ = Tree.extend stop _ u
      rw [unwrap_seq, extend_seq_of_stop hStop]
      simp [Tree.extend, unwrap_seq]
  | seq more =>
    have hStop : stop (seq (more.map unwrap)) = false := unwrap_seq more ▸ hb
    simp [Tree.extend, unwrap_seq, hStop]
  | table more => simp [Tree.extend, unwrap_seq, unwrap_table]

section

variable {more : List (String × Tree (α ⊕ Tree α))}

/-- Wrapped entries take in wrapped entries, if for each of these this is so. -/
theorem wraps_extendEntries
    (hEach : ∀ entry ∈ more, ∀ s, Wraps stop s (unwrap s) → stop (unwrap s) = false →
      Wraps stop (Tree.extend (fun _ => false) s entry.2)
        (Tree.extend stop (unwrap s) (unwrap entry.2)))
    (hMore : ∀ entry ∈ more, Wraps stop entry.2 (unwrap entry.2)) :
    ∀ {acc : List (String × Tree (α ⊕ Tree α))},
      (∀ entry ∈ acc, Wraps stop entry.2 (unwrap entry.2)) →
        (extendEntries (fun _ => false) acc more).map (fun entry => (entry.1, unwrap entry.2)) =
            extendEntries stop (acc.map fun entry => (entry.1, unwrap entry.2))
              (more.map fun entry => (entry.1, unwrap entry.2)) ∧
          ∀ entry ∈ extendEntries (fun _ => false) acc more,
            Wraps stop entry.2 (unwrap entry.2) := by
  induction more with
  | nil => exact fun hAcc => ⟨rfl, hAcc⟩
  | cons entry rest ih =>
    intro acc hAcc
    obtain ⟨key, b⟩ := entry
    rw [List.forall_mem_cons] at hEach hMore
    -- what has come together under the key, on both sides
    have hHead : ∃ s, Wraps stop s (unwrap s) ∧
        extendEntries (fun _ => false) acc ((key, b) :: rest) =
          extendEntries (fun _ => false) (Fields.insert key s acc) rest ∧
        extendEntries stop (acc.map fun entry => (entry.1, unwrap entry.2))
            (((key, b) :: rest).map fun entry => (entry.1, unwrap entry.2)) =
          extendEntries stop
            (Fields.insert key (unwrap s) (acc.map fun entry => (entry.1, unwrap entry.2)))
            (rest.map fun entry => (entry.1, unwrap entry.2)) := by
      rw [List.map_cons, extendEntries, extendEntries, Fields.get?_map]
      cases hGet : Fields.get? acc key with
      | none => exact ⟨b, hMore.1, rfl, rfl⟩
      | some s =>
        have hs := hAcc (key, s) (Fields.mem_of_get? hGet)
        by_cases hStop : stop (unwrap s) = true
        · obtain ⟨u, rfl⟩ : ∃ u, s = leaf (.inr u) := by
            by_contra hOther
            rw [hs.stop_eq_false fun u hu => hOther ⟨u, hu⟩] at hStop
            cases hStop
          rw [unwrap_inr] at hStop
          refine ⟨leaf (.inr u), hs, ?_, ?_⟩
          · simp [extend_leaf]
          · simp [hStop]
        · have hExtend := hEach.1 s hs (eq_false_of_ne_true hStop)
          refine ⟨Tree.extend (fun _ => false) s b, ?_, rfl, ?_⟩
          · exact ⟨rfl, hExtend.isWrapped, hExtend.unwrap_eq ▸ hExtend.wellFormed⟩
          · simp [hStop, hExtend.unwrap_eq]
    obtain ⟨s, hs, hWrapped, hUnwrapped⟩ := hHead
    rw [hWrapped, hUnwrapped, Fields.insert_map]
    refine ih hEach.2 hMore.2 fun entry hEntry => ?_
    rcases Fields.mem_of_mem_insert hEntry with rfl | hEntry
    · exact hs
    · exact hAcc entry hEntry

end

theorem Wraps.entry {entries : List (String × Tree (α ⊕ Tree α))}
    (h : Wraps stop (table entries) (unwrap (table entries))) :
    ∀ entry ∈ entries, Wraps stop entry.2 (unwrap entry.2) := by
  obtain ⟨-, hWrapped, hWf⟩ := h
  rw [unwrap_table] at hWf
  intro entry hEntry
  refine ⟨rfl, (isWrappedEntries_iff entries).1 hWrapped.2 entry hEntry, ?_⟩
  exact (wellFormedEntries_iff _).1 hWf.2 (entry.1, unwrap entry.2) (List.mem_map_of_mem hEntry)

section

variable {s s' : Tree (α ⊕ Tree α)}

/-- What stands for the result of a merge wraps it, if it does so below the top. -/
theorem Wraps.merged (h : StaysDivisible stop) (hs : Wraps stop s (unwrap s))
    (hStop : stop (unwrap s) = false) (hs' : Wraps stop s' (unwrap s')) {u : Tree (α ⊕ Tree α)}
    (hUnwrap : unwrap u = Tree.extend stop (unwrap s) (unwrap s'))
    (hWrapped : stop (unwrap u) = false → IsWrapped stop u) :
    Wraps stop u (Tree.extend stop (unwrap s) (unwrap s')) := by
  refine ⟨hUnwrap, hWrapped ?_, wellFormed_extend hs.wellFormed hs'.wellFormed⟩
  rw [hUnwrap]
  exact h.extend hs.wellFormed hs'.wellFormed hStop

/-- Unless both trees are tables, one of them stays as it is or is a sequence that grows. -/
theorem Wraps.extend_of_entries? (h : StaysDivisible stop) (hs : Wraps stop s (unwrap s))
    (hStop : stop (unwrap s) = false) (hs' : Wraps stop s' (unwrap s'))
    (hTables : s.entries? = none ∨ s'.entries? = none) :
    Wraps stop (Tree.extend (fun _ => false) s s') (Tree.extend stop (unwrap s) (unwrap s')) := by
  cases s with
  | leaf c =>
    cases c with
    | inl a =>
      rw [extend_leaf, unwrap_inl, extend_leaf]
      exact hs
    | inr u => cases hs.isWrapped.symm.trans hStop
  | seq items =>
    have hUnwrap := unwrap_extend_seq items hs'.isWrapped
    obtain ⟨all, hAll⟩ : ∃ all, Tree.extend (fun _ => false) (seq items) s' = seq all := by
      cases s' <;> exact ⟨_, rfl⟩
    rw [hAll] at hUnwrap ⊢
    exact hs.merged h hStop hs' hUnwrap id
  | table entries =>
    cases s' with
    | table more => simp [entries?] at hTables
    | leaf c =>
      have hSame : Tree.extend stop (unwrap (table entries)) (unwrap (leaf c)) =
          unwrap (table entries) := by
        rw [unwrap_table]
        cases c with
        | inl a => rfl
        | inr u => exact extend_table_of_stop hs'.isWrapped _
      rw [hSame]
      exact hs
    | seq more =>
      have hSame : Tree.extend stop (unwrap (table entries)) (unwrap (seq more)) =
          unwrap (table entries) := by
        rw [unwrap_table, unwrap_seq]
        rfl
      rw [hSame]
      exact hs

/-- What a wrapped tree takes in of another one stands for what the tree that it stands for takes
in of the other's. -/
theorem Wraps.extend (h : StaysDivisible stop) (hs : Wraps stop s (unwrap s))
    (hStop : stop (unwrap s) = false) (hs' : Wraps stop s' (unwrap s')) :
    Wraps stop (Tree.extend (fun _ => false) s s') (Tree.extend stop (unwrap s) (unwrap s')) := by
  induction s' using Tree.induction generalizing s with
  | leaf c => exact hs.extend_of_entries? h hStop hs' (.inr rfl)
  | seq items _ => exact hs.extend_of_entries? h hStop hs' (.inr rfl)
  | table more ih =>
    cases s with
    | leaf c => exact hs.extend_of_entries? h hStop hs' (.inl rfl)
    | seq items => exact hs.extend_of_entries? h hStop hs' (.inl rfl)
    | table entries =>
      obtain ⟨hUnwrap, hEntries⟩ := wraps_extendEntries
        (fun entry hEntry s hs hStop => ih entry hEntry hs hStop (hs'.entry entry hEntry))
        hs'.entry hs.entry
      have hMore : stop (unwrap (table more)) = false := hs'.stop_eq_false nofun
      have hWhole : unwrap (table (extendEntries (fun _ => false) entries more)) =
          Tree.extend stop (unwrap (table entries)) (unwrap (table more)) := by
        rw [unwrap_table, hUnwrap, unwrap_table, unwrap_table, Tree.extend, if_neg]
        rw [← unwrap_table, hMore]
        exact Bool.false_ne_true
      have hPlain : Tree.extend (fun _ => false) (table entries) (table more) =
          table (extendEntries (fun _ => false) entries more) := by
        simp [Tree.extend]
      rw [hPlain]
      refine hs.merged h hStop hs' hWhole fun hDivisible => ⟨hDivisible, ?_⟩
      exact (isWrappedEntries_iff _).2 fun entry hEntry => (hEntries entry hEntry).isWrapped

end

/-- Any number of trees, one after the other. -/
theorem wraps_foldl_extend (h : StaysDivisible stop) {later : List (Tree α)}
    (hLater : ∀ t ∈ later, t.WellFormed) : ∀ {s : Tree (α ⊕ Tree α)}, Wraps stop s (unwrap s) →
      stop (unwrap s) = false →
        unwrap ((later.map (wrap stop)).foldl (Tree.extend fun _ => false) s) =
          later.foldl (Tree.extend stop) (unwrap s) := by
  induction later with
  | nil => exact fun _ _ => rfl
  | cons b rest ih =>
    intro s hs hStop
    rw [List.forall_mem_cons] at hLater
    have hb : Wraps stop (wrap stop b) (unwrap (wrap stop b)) := by
      rw [unwrap_wrap]
      exact wraps_wrap hLater.1
    have hNext := hs.extend h hStop hb
    have hDivisible := h.extend hs.wellFormed hb.wellFormed hStop
    rw [unwrap_wrap] at hNext hDivisible
    rw [List.map_cons, List.foldl_cons, List.foldl_cons, ih hLater.2 ?_ ?_, hNext.unwrap_eq]
    · rw [hNext.unwrap_eq]
      exact hNext
    · rw [hNext.unwrap_eq]
      exact hDivisible

/-- **Indivisible trees are as good as terminals.** Merging makes no tree indivisible which is not
so already. Then it gives what it would give, asking about nothing, if each indivisible part of
the trees, found from the top through keys, were a terminal, and was put back in the end. So such
a part is kept, or added to a sequence, or left out, always as a whole. -/
theorem mergeWith_eq_unwrap (hStop : StaysDivisible stop) {trees : List (Option (Tree α))}
    (hWf : ∀ t, some t ∈ trees → t.WellFormed) :
    mergeWith stop trees = (merge (trees.map (Option.map (wrap stop)))).map unwrap := by
  rw [merge_eq, mergeWith, filterMap_map_option]
  cases hThere : trees.filterMap id with
  | nil => rfl
  | cons first later =>
    have hTrees : ∀ t ∈ first :: later, t.WellFormed := by
      intro t ht
      rw [← hThere] at ht
      obtain ⟨o, ho, rfl⟩ := List.mem_filterMap.1 ht
      exact hWf t ho
    rw [List.forall_mem_cons] at hTrees
    show some (mergeOnto stop first later) =
      some (unwrap ((later.map (wrap stop)).foldl _ (wrap stop first)))
    by_cases hFirst : stop first = true
    · -- a terminal takes in nothing
      have hLeaf : wrap stop first = leaf (.inr first) := by
        cases first <;> rw [wrap, if_pos hFirst]
      rw [mergeOnto, if_pos hFirst, hLeaf, foldl_extend_leaf, unwrap_inr]
    · rw [mergeOnto, if_neg hFirst, wraps_foldl_extend hStop hTrees.2, unwrap_wrap]
      · rw [unwrap_wrap]
        exact wraps_wrap hTrees.1
      · rw [unwrap_wrap]
        exact eq_false_of_ne_true hFirst

end

/-- Tables with an entry `opaque`. -/
def marked (t : Tree Nat) : Bool := (t.entry? "opaque").isSome

theorem get?_extendEntries_eq_none {stop : Tree α → Bool} {key : String} {more : Fields (Tree α)}
    (hMore : Fields.get? more key = none) : ∀ {acc : Fields (Tree α)},
      Fields.get? acc key = none → Fields.get? (extendEntries stop acc more) key = none := by
  induction more with
  | nil => exact fun h => h
  | cons entry rest ih =>
    intro acc hAcc
    obtain ⟨k, b⟩ := entry
    rw [Fields.get?_cons] at hMore
    by_cases hk : key = k
    · rw [if_pos hk] at hMore
      cases hMore
    · rw [if_neg hk] at hMore
      rw [extendEntries]
      refine ih hMore ?_
      rw [Fields.get?_insert_of_ne hk]
      exact hAcc

theorem staysDivisible_marked : StaysDivisible marked := by
  rintro a b merged - - ha hMerged
  obtain rfl : Tree.extend marked a b = merged := by
    simpa [mergeWith, mergeOnto, ha] using hMerged
  cases a with
  | leaf a =>
    rw [extend_leaf]
    rfl
  | seq items => cases b <;> rfl
  | table entries =>
    cases b with
    | leaf b => exact ha
    | seq more => exact ha
    | table more =>
      rw [Tree.extend]
      split
      · exact ha
      · rename_i hb
        have hNone : ∀ {fields : Fields (Tree Nat)}, marked (table fields) = false →
            Fields.get? fields "opaque" = none :=
          fun h => Option.not_isSome_iff_eq_none.1 (ne_true_of_eq_false h)
        have hKey : Fields.get? (extendEntries marked entries more) "opaque" = none :=
          get?_extendEntries_eq_none (hNone (eq_false_of_ne_true hb)) (hNone ha)
        exact congrArg Option.isSome hKey

/-- Marked tables come first, last, into a sequence, and under a key that is new. -/
def markedTrees : List (Option (Tree Nat)) :=
  [some (.table [("a", .table [("opaque", .leaf 1)]), ("b", .seq [.leaf 2]),
      ("c", .table [("x", .leaf 3)])]),
    none,
    some (.table [("a", .table [("y", .leaf 4)]), ("b", .table [("opaque", .leaf 5)]),
      ("c", .table [("opaque", .leaf 6), ("z", .leaf 7)]), ("d", .table [("opaque", .leaf 8)])]),
    some (.table [("d", .table [("x", .leaf 9)])])]

theorem mergeWith_eq_unwrap_of_marked :
    mergeWith marked markedTrees = some (.table [("a", .table [("opaque", .leaf 1)]),
        ("b", .seq [.leaf 2, .table [("opaque", .leaf 5)]]), ("c", .table [("x", .leaf 3)]),
        ("d", .table [("opaque", .leaf 8)])]) ∧
      merge (markedTrees.map (Option.map (wrap marked))) =
        some (.table [("a", .leaf (.inr (.table [("opaque", .leaf 1)]))),
          ("b", .seq [.leaf (.inl 2), .leaf (.inr (.table [("opaque", .leaf 5)]))]),
          ("c", .table [("x", .leaf (.inl 3))]),
          ("d", .leaf (.inr (.table [("opaque", .leaf 8)])))]) := by
  have hWf : ∀ t, some t ∈ markedTrees → t.WellFormed := by
    intro t ht
    simp only [markedTrees, List.mem_cons, reduceCtorEq, Option.some.injEq, List.not_mem_nil,
      false_or, or_false] at ht
    rcases ht with rfl | rfl | rfl
    · exact ⟨by decide, ⟨by decide, trivial, trivial⟩, ⟨trivial, trivial⟩,
        ⟨by decide, trivial, trivial⟩, trivial⟩
    · exact ⟨by decide, ⟨by decide, trivial, trivial⟩, ⟨by decide, trivial, trivial⟩,
        ⟨by decide, trivial, trivial, trivial⟩, ⟨by decide, trivial, trivial⟩, trivial⟩
    · exact ⟨by decide, ⟨by decide, trivial, trivial⟩, trivial⟩
  have hWrapped : merge (markedTrees.map (Option.map (wrap marked))) =
      some (.table [("a", .leaf (.inr (.table [("opaque", .leaf 1)]))),
        ("b", .seq [.leaf (.inl 2), .leaf (.inr (.table [("opaque", .leaf 5)]))]),
        ("c", .table [("x", .leaf (.inl 3))]),
        ("d", .leaf (.inr (.table [("opaque", .leaf 8)])))]) := by rfl
  refine ⟨?_, hWrapped⟩
  rw [mergeWith_eq_unwrap staysDivisible_marked hWf, hWrapped]
  rfl

end Tree

end LayeredConfig
