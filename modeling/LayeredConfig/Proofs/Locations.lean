import LayeredConfig.Proofs.Draft
import Mathlib.Data.List.Forall2

/-!
# LayeredConfig — where paths lead

A path tells by names and numbers what a location tells by keys and indexes. A segment may
be either, which depends on the node it is looked up in, and the same index has several
spellings. So a location is spelled by many paths, but in one tree a path leads to one
location at most.

* `Location.SpelledBy`       — the steps are those that the segments stand for.
* `Tree.follow?_eq_some_iff` — a path leads to what stands at a location that it spells.
* `Tree.Leads`               — a path leads to a location.
* `Tree.Leads.unique`        — and to no other one.
* `Tree.exists_leads_iff`    — the paths that lead to one location in some tree.
-/

namespace LayeredConfig

/-- The step is the one that a segment of a path stands for. -/
def Step.SpelledBy : Step → String → Prop
  | key name, segment => name = segment
  | index i, segment => index? segment = some i

/-- No segment stands for two keys, or for two indexes. -/
def Step.Unambiguous (stands : Step → String → Prop) : Prop :=
  (∀ {name other segment}, stands (key name) segment → stands (key other) segment →
    name = other) ∧
  ∀ {i j segment}, stands (index i) segment → stands (index j) segment → i = j

theorem Step.unambiguous_spelledBy : Unambiguous SpelledBy :=
  ⟨fun hName hOther => hName.trans hOther.symm,
    fun hi hj => Option.some.inj (hi.symm.trans hj)⟩

/-- The steps are those that the segments of a path stand for. -/
def Location.SpelledBy (location : Location) (path : KeyPath) : Prop :=
  List.Forall₂ Step.SpelledBy location path

namespace Tree

theorem child?_eq_some_iff {t next : Tree α} {segment : String} :
    t.child? segment = some next ↔
      ∃ step : Step, step.SpelledBy segment ∧ t.below? step = some next := by
  constructor
  · intro h
    cases t with
    | leaf a => cases h
    | seq items =>
      obtain ⟨i, hIndex, hItem⟩ := Option.bind_eq_some_iff.1 h
      exact ⟨.index i, hIndex, hItem⟩
    | table entries => exact ⟨.key segment, rfl, h⟩
  · rintro ⟨step, hSpelled, h⟩
    cases step with
    | key name =>
      have hName : name = segment := hSpelled
      cases t with
      | table entries =>
        rw [below?_table_key, hName] at h
        exact h
      | leaf a => cases h
      | seq items => cases h
    | index i =>
      have hIndex : index? segment = some i := hSpelled
      cases t with
      | seq items =>
        rw [below?_seq_index] at h
        rw [child?, hIndex]
        exact h
      | leaf a => cases h
      | table entries => cases h

/-- A path leads to what stands at a location that it spells. -/
theorem follow?_eq_some_iff {path : KeyPath} : ∀ {t node : Tree α}, t.follow? path = some node ↔
    ∃ location : Location, location.SpelledBy path ∧ t.at? location = some node := by
  induction path with
  | nil =>
    intro t node
    constructor
    · exact fun h => ⟨[], .nil, h⟩
    · rintro ⟨location, hSpelled, h⟩
      rw [List.forall₂_nil_right_iff.1 hSpelled] at h
      exact h
  | cons segment rest ih =>
    intro t node
    constructor
    · intro h
      obtain ⟨next, hNext, hRest⟩ := Option.bind_eq_some_iff.1 h
      obtain ⟨step, hStep, hBelow⟩ := child?_eq_some_iff.1 hNext
      obtain ⟨location, hSpelled, hAt⟩ := ih.1 hRest
      refine ⟨step :: location, .cons hStep hSpelled, ?_⟩
      rw [at?, hBelow]
      exact hAt
    · rintro ⟨location, hSpelled, h⟩
      obtain ⟨step, more, hStep, hMore, rfl⟩ := List.forall₂_cons_right_iff.1 hSpelled
      rw [at?] at h
      obtain ⟨next, hNext, hRest⟩ := Option.bind_eq_some_iff.1 h
      rw [follow?, child?_eq_some_iff.2 ⟨step, hStep, hNext⟩]
      exact ih.2 ⟨more, hMore, hRest⟩

-- ---------------------------------------------------------------------------
-- The location that a path leads to
-- ---------------------------------------------------------------------------

/-- The path has segments, and they lead to the node at the location. -/
def Leads (t : Tree α) (path : KeyPath) (location : Location) : Prop :=
  path ≠ [] ∧ location.SpelledBy path ∧ ∃ node, t.at? location = some node

theorem Leads.get?_eq {t : Tree α} {path : KeyPath} {location : Location}
    (h : t.Leads path location) : t.get? path = t.at? location := by
  obtain ⟨hNonempty, hSpelled, node, hAt⟩ := h
  have hPath : path.isEmpty = false := by simpa using hNonempty
  rw [get?, hPath, hAt]
  exact follow?_eq_some_iff.2 ⟨location, hSpelled, hAt⟩

variable {stands : Step → String → Prop}

/-- In one node, a segment stands for one step. -/
theorem step_unique (h : Step.Unambiguous stands) {t x y : Tree α} {a b : Step} {segment : String}
    (ha : stands a segment) (hx : t.below? a = some x) (hb : stands b segment)
    (hy : t.below? b = some y) : a = b := by
  cases t with
  | leaf c => cases a <;> cases hx
  | seq items =>
    cases a with
    | key name => cases hx
    | index i =>
      cases b with
      | key name => cases hy
      | index j => exact congrArg Step.index (h.2 ha hb)
  | table entries =>
    cases a with
    | index i => cases hx
    | key name =>
      cases b with
      | index j => cases hy
      | key other => exact congrArg Step.key (h.1 ha hb)

/-- In one tree, segments stand for the steps to one location at most. -/
theorem location_unique (h : Step.Unambiguous stands) {path : KeyPath} :
    ∀ {t x y : Tree α} {a b : Location}, List.Forall₂ stands a path → t.at? a = some x →
      List.Forall₂ stands b path → t.at? b = some y → a = b := by
  induction path with
  | nil =>
    intro t x y a b ha hx hb hy
    rw [List.forall₂_nil_right_iff.1 ha, List.forall₂_nil_right_iff.1 hb]
  | cons segment rest ih =>
    intro t x y a b ha hx hb hy
    obtain ⟨step, below, hStep, hBelow, rfl⟩ := List.forall₂_cons_right_iff.1 ha
    obtain ⟨other, beneath, hOther, hBeneath, rfl⟩ := List.forall₂_cons_right_iff.1 hb
    obtain ⟨next, hNext, hx⟩ := Option.bind_eq_some_iff.1 hx
    obtain ⟨next', hNext', hy⟩ := Option.bind_eq_some_iff.1 hy
    cases step_unique h hStep hNext hOther hNext'
    cases hNext.symm.trans hNext'
    rw [ih hBelow hx hBeneath hy]

theorem Leads.unique {t : Tree α} {path : KeyPath} {a b : Location} (ha : t.Leads path a)
    (hb : t.Leads path b) : a = b := by
  obtain ⟨-, hSpelled, x, hx⟩ := ha
  obtain ⟨-, hOther, y, hy⟩ := hb
  exact location_unique Step.unambiguous_spelledBy hSpelled hx hOther hy

end Tree

-- ---------------------------------------------------------------------------
-- Paths to one location
-- ---------------------------------------------------------------------------

/-- The segments are the same, or spell the same index. -/
def SameStep (segment other : String) : Prop :=
  segment = other ∨ ∃ i, index? segment = some i ∧ index? other = some i

/-- The paths are the same up to the spelling of indexes. -/
def KeyPath.Alike (path other : KeyPath) : Prop := List.Forall₂ SameStep path other

namespace Location

theorem alike_of_spelledBy {path : KeyPath} : ∀ {location : Location} {other : KeyPath},
    location.SpelledBy path → location.SpelledBy other → path.Alike other := by
  induction path with
  | nil =>
    intro location other hPath hOther
    cases hPath
    cases hOther
    exact .nil
  | cons segment rest ih =>
    intro location other hPath hOther
    obtain ⟨step, below, hStep, hBelow, rfl⟩ := List.forall₂_cons_right_iff.1 hPath
    obtain ⟨segment', rest', hStep', hBelow', rfl⟩ := List.forall₂_cons_left_iff.1 hOther
    refine .cons ?_ (ih hBelow hBelow')
    cases step with
    | key name => exact .inl (hStep.symm.trans hStep')
    | index i => exact .inr ⟨i, hStep, hStep'⟩

end Location

namespace Tree

/-- Paths that are alike lead to one node, in a tree that has nothing but what they need. -/
theorem exists_at?_of_alike (α : Type u) {path other : KeyPath}
    (h : path.Alike other) :
    ∃ (t node : Tree α) (location : Location), t.WellFormed ∧ location.SpelledBy path ∧
      location.SpelledBy other ∧ t.at? location = some node := by
  induction h with
  | nil => exact ⟨.seq [], .seq [], [], trivial, .nil, .nil, rfl⟩
  | @cons segment segment' rest rest' hSame _ ih =>
    obtain ⟨t, node, location, hWf, hPath, hOther, hAt⟩ := ih
    rcases hSame with rfl | ⟨i, hIndex, hIndex'⟩
    · refine ⟨.table [(segment, t)], node, .key segment :: location,
        ⟨List.pairwise_singleton _ _, hWf, trivial⟩, .cons rfl hPath, .cons rfl hOther, ?_⟩
      have hBelow : (table [(segment, t)]).below? (.key segment) = some t := by
        rw [below?_table_key, Fields.get?_cons, if_pos rfl]
      rw [at?, hBelow]
      exact hAt
    · refine ⟨.seq (List.replicate (i + 1) t), node, .index i :: location,
        (wellFormedItems_iff _).2 fun item hItem => ?_, .cons hIndex hPath,
        .cons hIndex' hOther, ?_⟩
      · rw [List.eq_of_mem_replicate hItem]
        exact hWf
      · have hBelow : (seq (List.replicate (i + 1) t)).below? (.index i) = some t := by
          rw [below?_seq_index, List.getElem?_replicate, if_pos (Nat.lt_succ_self i)]
        rw [at?, hBelow]
        exact hAt

/-- Two paths lead to one location in some tree just if they are alike and have segments. -/
theorem exists_leads_iff {path other : KeyPath} :
    (∃ (t : Tree α) (location : Location),
      t.WellFormed ∧ t.Leads path location ∧ t.Leads other location) ↔
      path ≠ [] ∧ path.Alike other := by
  constructor
  · rintro ⟨t, location, -, ⟨hNonempty, hPath, -⟩, -, hOther, -⟩
    exact ⟨hNonempty, Location.alike_of_spelledBy hPath hOther⟩
  · rintro ⟨hNonempty, hAlike⟩
    obtain ⟨t, node, location, hWf, hPath, hOther, hAt⟩ := exists_at?_of_alike α hAlike
    have hOtherNonempty : other ≠ [] := by
      rintro rfl
      exact hNonempty (List.forall₂_nil_right_iff.1 hAlike)
    exact ⟨t, location, hWf, ⟨hNonempty, hPath, node, hAt⟩, hOtherNonempty, hOther, node, hAt⟩

end Tree

end LayeredConfig
