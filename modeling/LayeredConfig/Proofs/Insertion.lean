import LayeredConfig.Proofs.Draft
import LayeredConfig.Proofs.Merge

/-!
# LayeredConfig — putting entries in

An entry put in at a path of keys stands there, and on the way there are tables. What stands
apart from the path stays as it is; what stood on the way and was no table is gone, and so is
all that stood at the path and below it.

Entries that are put in one after the other make a dense tree: it has no sequences, and no
table in it is empty. Such a tree is known by its leaves.

* `KeyPath.Apart`           — paths of which neither leads to the other.
* `Tree.node?`              — what stands at a path of keys.
* `Tree.node?_insertAt_of_apart` — putting in an entry leaves alone what is apart from it.
* `Tree.node?_insertAt_eq_leaf`  — the leaves once a leaf is put in.
* `Tree.Dense`              — dense trees.
* `Tree.ext_of_dense`       — a dense tree is known by its leaves.
-/

namespace LayeredConfig

/-- Neither path is equal to the other, nor an initial part of it. -/
def KeyPath.Apart (path other : KeyPath) : Prop := ¬ path <+: other ∧ ¬ other <+: path

instance (path other : KeyPath) : Decidable (KeyPath.Apart path other) :=
  inferInstanceAs (Decidable (¬ path <+: other ∧ ¬ other <+: path))

theorem KeyPath.Apart.symm {path other : KeyPath} (h : Apart path other) : Apart other path :=
  And.symm h

theorem KeyPath.apart_cons {key : String} {path other : KeyPath} :
    Apart (key :: path) (key :: other) ↔ Apart path other := by
  rw [Apart, Apart, List.prefix_cons_inj, List.prefix_cons_inj]

theorem Fields.insert_ne_nil (key : String) (a : α) (fields : Fields α) :
    Fields.insert key a fields ≠ [] := by
  intro h
  have hFound := Fields.get?_insert_self key a fields
  rw [h] at hFound
  cases hFound

namespace Tree

-- ---------------------------------------------------------------------------
-- Paths of keys
-- ---------------------------------------------------------------------------

/-- The node that keys lead to, one by one. -/
def node? (t : Tree α) (path : KeyPath) : Option (Tree α) := t.at? (path.map .key)

@[simp] theorem node?_nil (t : Tree α) : t.node? [] = some t := rfl

theorem node?_table (entries : Fields (Tree α)) (key : String) (path : KeyPath) :
    (table entries).node? (key :: path) =
      (Fields.get? entries key).bind fun next => next.node? path := rfl

theorem node?_leaf_cons (a : α) (key : String) (path : KeyPath) :
    (leaf a).node? (key :: path) = none := rfl

/-- The entries at a key, if a table is there. -/
def entriesBelow (entries : Fields (Tree α)) (key : String) : Fields (Tree α) :=
  ((Fields.get? entries key).bind entries?).getD []

/-- What is in the way of a longer path is as good as nothing. -/
theorem node?_entriesBelow (entries : Fields (Tree α)) (key next : String) (path : KeyPath) :
    (table (entriesBelow entries key)).node? (next :: path) =
      (table entries).node? (key :: next :: path) := by
  rw [node?_table entries, entriesBelow]
  cases hHere : Fields.get? entries key with
  | none => rfl
  | some here => cases here <;> rfl

-- ---------------------------------------------------------------------------
-- An entry put in
-- ---------------------------------------------------------------------------

variable {a : Tree α}

theorem insertAt_cons_cons (a : Tree α) (key next : String) (rest : KeyPath)
    (entries : Fields (Tree α)) :
    insertAt a (key :: next :: rest) entries =
      Fields.insert key (table (insertAt a (next :: rest) (entriesBelow entries key))) entries :=
  rfl

theorem insertAt_ne_nil {path : KeyPath} (hPath : path ≠ []) (a : Tree α)
    (entries : Fields (Tree α)) : insertAt a path entries ≠ [] := by
  match path with
  | [] => exact absurd rfl hPath
  | [key] => exact Fields.insert_ne_nil key a entries
  | key :: next :: rest => exact Fields.insert_ne_nil key _ entries

/-- Below the path stands what is put in. -/
theorem node?_insertAt_append {path : KeyPath} (hPath : path ≠ []) (more : KeyPath) :
    ∀ entries : Fields (Tree α),
      (table (insertAt a path entries)).node? (path ++ more) = a.node? more := by
  induction path with
  | nil => exact absurd rfl hPath
  | cons key rest ih =>
    intro entries
    cases rest with
    | nil =>
      rw [List.singleton_append, node?_table, insertAt, Fields.get?_insert_self]
      rfl
    | cons next rest =>
      rw [List.cons_append, node?_table, insertAt_cons_cons, Fields.get?_insert_self]
      exact ih (List.cons_ne_nil next rest) (entriesBelow entries key)

/-- On the way to the path there are tables. -/
theorem node?_insertAt_above (a : Tree α) (front : KeyPath) {back : KeyPath} (hBack : back ≠ []) :
    ∀ entries : Fields (Tree α),
      ∃ below, (table (insertAt a (front ++ back) entries)).node? front = some (table below) := by
  induction front with
  | nil => exact fun entries => ⟨_, rfl⟩
  | cons key rest ih =>
    intro entries
    obtain ⟨next, more, hMore⟩ :=
      List.exists_cons_of_ne_nil (List.append_ne_nil_of_right_ne_nil rest hBack)
    rw [List.cons_append, hMore, node?_table, insertAt_cons_cons, Fields.get?_insert_self, ← hMore]
    exact ih (entriesBelow entries key)

/-- What is apart from the path stays. -/
theorem node?_insertAt_of_apart {path : KeyPath} : ∀ {other : KeyPath} (entries : Fields (Tree α)),
    KeyPath.Apart path other →
      (table (insertAt a path entries)).node? other = (table entries).node? other := by
  induction path with
  | nil => exact fun _ hApart => absurd List.nil_prefix hApart.1
  | cons key rest ih =>
    intro other entries hApart
    cases other with
    | nil => exact absurd List.nil_prefix hApart.2
    | cons first more =>
      by_cases hKey : first = key
      · subst hKey
        have hRest := KeyPath.apart_cons.1 hApart
        -- neither of the two paths ends here
        match rest, more, hRest with
        | [], _, hRest => exact absurd List.nil_prefix hRest.1
        | _, [], hRest => exact absurd List.nil_prefix hRest.2
        | next :: rest, second :: more, hRest =>
          rw [insertAt_cons_cons, node?_table, Fields.get?_insert_self, ← node?_entriesBelow]
          exact ih (entriesBelow entries first) hRest
      · rw [node?_table, node?_table]
        cases rest with
        | nil => rw [insertAt, Fields.get?_insert_of_ne hKey]
        | cons next rest => rw [insertAt_cons_cons, Fields.get?_insert_of_ne hKey]

/-- A leaf that is put in is a leaf, and so are those that are apart from it. -/
theorem node?_insertAt_eq_leaf {path other : KeyPath} (hPath : path ≠ []) {c b : α}
    (entries : Fields (Tree α)) :
    (table (insertAt (leaf c) path entries)).node? other = some (leaf b) ↔
      (other = path ∧ b = c) ∨
        (KeyPath.Apart path other ∧ (table entries).node? other = some (leaf b)) := by
  by_cases hBelow : path <+: other
  · -- at the path or below it
    obtain ⟨more, rfl⟩ := hBelow
    have hNear : ¬ KeyPath.Apart path (path ++ more) := fun h => h.1 (List.prefix_append path more)
    rw [node?_insertAt_append hPath]
    cases more with
    | nil =>
      rw [List.append_nil] at hNear ⊢
      simp [hNear, eq_comm]
    | cons key more => simp [hNear, node?_leaf_cons]
  · by_cases hAbove : other <+: path
    · -- on the way to it
      obtain ⟨back, rfl⟩ := hAbove
      have hBack : back ≠ [] := by
        rintro rfl
        rw [List.append_nil] at hBelow
        exact hBelow List.prefix_rfl
      obtain ⟨below, hTable⟩ := node?_insertAt_above (leaf c) other hBack entries
      have hNear : ¬ KeyPath.Apart (other ++ back) other :=
        fun h => h.2 (List.prefix_append other back)
      rw [hTable]
      simp [hNear, hBack]
    · have hApart : KeyPath.Apart path other := ⟨hBelow, hAbove⟩
      have hOther : other ≠ path := fun h => hBelow (h ▸ List.prefix_rfl)
      rw [node?_insertAt_of_apart entries hApart]
      simp [hApart, hOther]

theorem wellFormed_insertAt (ha : a.WellFormed) {path : KeyPath} :
    ∀ {entries : Fields (Tree α)}, (table entries).WellFormed →
      (table (insertAt a path entries)).WellFormed := by
  have hInsert : ∀ {key : String} {b : Tree α} {entries : Fields (Tree α)}, b.WellFormed →
      (table entries).WellFormed → (table (Fields.insert key b entries)).WellFormed := by
    intro key b entries hb hEntries
    refine ⟨Fields.ordered_insert hEntries.1 key b, ?_⟩
    refine (wellFormedEntries_iff _).2 fun field hField => ?_
    rcases Fields.mem_of_mem_insert hField with rfl | hField
    · exact hb
    · exact (wellFormedEntries_iff entries).1 hEntries.2 field hField
  induction path with
  | nil => exact id
  | cons key rest ih =>
    intro entries hEntries
    cases rest with
    | nil => exact hInsert ha hEntries
    | cons next rest =>
      refine hInsert (ih ?_) hEntries
      cases hHere : Fields.get? entries key with
      | none => exact ⟨Fields.ordered_nil, trivial⟩
      | some here =>
        cases here with
        | table below =>
          exact (wellFormedEntries_iff entries).1 hEntries.2 _ (Fields.mem_of_get? hHere)
        | leaf b => exact ⟨Fields.ordered_nil, trivial⟩
        | seq items => exact ⟨Fields.ordered_nil, trivial⟩

-- ---------------------------------------------------------------------------
-- Dense trees
-- ---------------------------------------------------------------------------

/-- There are no sequences, and no table is empty. -/
inductive Dense : Tree α → Prop
  | leaf (a : α) : Dense (.leaf a)
  | table {entries : Fields (Tree α)} (hEntries : entries ≠ [])
      (hBelow : ∀ entry ∈ entries, Dense entry.2) : Dense (.table entries)

/-- The tree below each key is dense. -/
def DenseBelow (entries : Fields (Tree α)) : Prop := ∀ entry ∈ entries, entry.2.Dense

theorem denseBelow_insert {key : String} (ha : a.Dense) {entries : Fields (Tree α)}
    (hEntries : DenseBelow entries) : DenseBelow (Fields.insert key a entries) := by
  intro entry hEntry
  rcases Fields.mem_of_mem_insert hEntry with rfl | hEntry
  · exact ha
  · exact hEntries entry hEntry

theorem denseBelow_insertAt (ha : a.Dense) {path : KeyPath} :
    ∀ {entries : Fields (Tree α)}, DenseBelow entries → DenseBelow (insertAt a path entries) := by
  induction path with
  | nil => exact id
  | cons key rest ih =>
    intro entries hEntries
    cases rest with
    | nil => exact denseBelow_insert ha hEntries
    | cons next rest =>
      have hBelow : DenseBelow (entriesBelow entries key) := by
        rw [entriesBelow]
        cases hHere : Fields.get? entries key with
        | none => exact nofun
        | some here =>
          cases hEntries _ (Fields.mem_of_get? hHere) with
          | leaf b => exact nofun
          | table _ hBelow => exact hBelow
      exact denseBelow_insert
        (.table (insertAt_ne_nil (List.cons_ne_nil next rest) a _) (ih hBelow)) hEntries

/-- What is in a dense tree is dense. -/
theorem Dense.of_at? {location : Location} : ∀ {t node : Tree α}, t.Dense →
    t.at? location = some node → node.Dense := by
  induction location with
  | nil =>
    intro t node ht h
    cases h
    exact ht
  | cons step rest ih =>
    intro t node ht h
    obtain ⟨next, hNext, hRest⟩ := Option.bind_eq_some_iff.1 h
    cases ht with
    | leaf a => cases step <;> cases hNext
    | table _ hBelow =>
      cases step with
      | key name => exact ih (hBelow _ (Fields.mem_of_get? hNext)) hRest
      | index i => cases hNext

/-- Steps into a dense tree are keys. -/
theorem Dense.exists_path {location : Location} : ∀ {t node : Tree α}, t.Dense →
    t.at? location = some node → ∃ path : KeyPath, location = path.map .key := by
  induction location with
  | nil => exact fun _ _ => ⟨[], rfl⟩
  | cons step rest ih =>
    intro t node ht h
    obtain ⟨next, hNext, hRest⟩ := Option.bind_eq_some_iff.1 h
    cases ht with
    | leaf a => cases step <;> cases hNext
    | table _ hBelow =>
      cases step with
      | key name =>
        obtain ⟨path, rfl⟩ := ih (hBelow _ (Fields.mem_of_get? hNext)) hRest
        exact ⟨name :: path, rfl⟩
      | index i => cases hNext

/-- Steps into a table that is dense below lead to dense trees, and are keys. -/
theorem dense_and_exists_path {entries : Fields (Tree α)} (h : DenseBelow entries)
    {location : Location} (hLocation : location ≠ []) {node : Tree α}
    (hAt : (table entries).at? location = some node) :
    node.Dense ∧ ∃ path : KeyPath, location = path.map .key := by
  obtain ⟨step, rest, rfl⟩ := List.exists_cons_of_ne_nil hLocation
  obtain ⟨next, hNext, hRest⟩ := Option.bind_eq_some_iff.1 hAt
  cases step with
  | index i => cases hNext
  | key name =>
    have hDense := h _ (Fields.mem_of_get? hNext)
    obtain ⟨path, rfl⟩ := hDense.exists_path hRest
    exact ⟨hDense.of_at? hRest, name :: path, rfl⟩

/-- A dense tree has a leaf. -/
theorem Dense.exists_leaf {t : Tree α} (h : t.Dense) : ∃ path b, t.node? path = some (.leaf b) := by
  induction h with
  | leaf a => exact ⟨[], a, rfl⟩
  | table hEntries hBelow ih =>
    obtain ⟨⟨key, t⟩, rest, rfl⟩ := List.exists_cons_of_ne_nil hEntries
    obtain ⟨path, b, hLeaf⟩ := ih _ List.mem_cons_self
    refine ⟨key :: path, b, ?_⟩
    rw [node?_table, Fields.get?_cons, if_pos rfl]
    exact hLeaf

/-- The two trees have the same leaves. -/
def SameLeaves (t u : Tree α) : Prop :=
  ∀ path b, t.node? path = some (leaf b) ↔ u.node? path = some (leaf b)

/-- Entries with the same leaves are the same, if those below each key are. -/
theorem ext_of_denseBelow {entries others : Fields (Tree α)} (hWf : (table entries).WellFormed)
    (hOtherWf : (table others).WellFormed) (hDense : DenseBelow entries)
    (hOtherDense : DenseBelow others) (hSame : SameLeaves (table entries) (table others))
    (ih : ∀ entry ∈ entries, ∀ u : Tree α, u.Dense → entry.2.WellFormed → u.WellFormed →
      SameLeaves entry.2 u → entry.2 = u) : entries = others := by
  have hLeaves : ∀ key path b, (Fields.get? entries key).bind (·.node? path) = some (leaf b) ↔
      (Fields.get? others key).bind (·.node? path) = some (leaf b) :=
    fun key path b => hSame (key :: path) b
  refine Fields.ext_of_ordered hWf.1 hOtherWf.1 fun key => ?_
  cases hHere : Fields.get? entries key with
  | none =>
    cases hThere : Fields.get? others key with
    | none => rfl
    | some u =>
      obtain ⟨path, b, hLeaf⟩ := (hOtherDense _ (Fields.mem_of_get? hThere)).exists_leaf
      have hNone := (hLeaves key path b).2 (by rw [hThere]; exact hLeaf)
      rw [hHere] at hNone
      cases hNone
  | some t =>
    have hIn := Fields.mem_of_get? hHere
    cases hThere : Fields.get? others key with
    | none =>
      obtain ⟨path, b, hLeaf⟩ := (hDense _ hIn).exists_leaf
      have hNone := (hLeaves key path b).1 (by rw [hHere]; exact hLeaf)
      rw [hThere] at hNone
      cases hNone
    | some u =>
      have hOther := Fields.mem_of_get? hThere
      refine congrArg some (ih _ hIn u (hOtherDense _ hOther)
        ((wellFormedEntries_iff entries).1 hWf.2 _ hIn)
        ((wellFormedEntries_iff others).1 hOtherWf.2 _ hOther) fun path b => ?_)
      have hBelow := hLeaves key path b
      rw [hHere, hThere] at hBelow
      exact hBelow

/-- A dense tree is known by its leaves. -/
theorem Dense.eq_of_sameLeaves {t : Tree α} (ht : t.Dense) : ∀ u : Tree α, u.Dense →
    t.WellFormed → u.WellFormed → SameLeaves t u → t = u := by
  induction ht with
  | leaf a =>
    intro u _ _ _ hSame
    exact (Option.some.inj ((hSame [] a).1 rfl)).symm
  | table hEntries hBelow ih =>
    intro u hu hWf hOtherWf hSame
    cases hu with
    | leaf b => exact Option.some.inj ((hSame [] b).2 rfl)
    | table _ hOtherBelow =>
      exact congrArg Tree.table
        (ext_of_denseBelow hWf hOtherWf hBelow hOtherBelow hSame fun entry hEntry u hu ht hu' =>
          ih entry hEntry u hu ht hu')

/-- A table is known by its leaves, if it is dense below. -/
theorem ext_of_sameLeaves {entries others : Fields (Tree α)} (hWf : (table entries).WellFormed)
    (hOtherWf : (table others).WellFormed) (hDense : DenseBelow entries)
    (hOtherDense : DenseBelow others) (hSame : SameLeaves (table entries) (table others)) :
    entries = others :=
  ext_of_denseBelow hWf hOtherWf hDense hOtherDense hSame fun entry hEntry u hu ht hu' =>
    (hDense entry hEntry).eq_of_sameLeaves u hu ht hu'

end Tree

end LayeredConfig
