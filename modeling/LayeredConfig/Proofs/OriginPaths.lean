import LayeredConfig.Proofs.Locations
import LayeredConfig.Proofs.PathTexts
import Mathlib.Data.List.Induction

/-!
# LayeredConfig — the paths that errors give

An error names a leaf by a path, its origin path: the keys and indexes on the way to it,
with dots between them. This path leads back to the leaf, provided that keys do not get in
the way: an empty key or one with a dot cannot be told from what is written around it. A key
that looks like an index can, by the node that it is looked up in.

Only an index up to `maxIndex` can be read from a segment. No sequence in memory has others.

* `Tree.KeysAre`        — a condition on the keys of a tree.
* `index?_repr`         — the decimal spelling of an index.
* `Location.originPath_eq_toString` — an origin path is the text of a path.
* `Draft.originPath_leads_back`     — it leads to its leaf, and to no other one.
-/

namespace LayeredConfig

-- ---------------------------------------------------------------------------
-- Steps
-- ---------------------------------------------------------------------------

namespace Step

/-- No key that is empty or has a dot in it. -/
def Dotless : Step → Prop
  | key name => KeyPath.IsSegment name
  | index _ => True

/-- No index that is too large for a segment. -/
def InRange : Step → Prop
  | key _ => True
  | index i => i ≤ maxIndex

end Step

namespace Tree

mutual

/-- The condition holds of every key in the tree, at any depth. -/
def KeysAre (ok : String → Prop) : Tree α → Prop
  | leaf _ => True
  | seq items => KeysAreIn ok items
  | table entries => KeysAreOf ok entries

def KeysAreIn (ok : String → Prop) : List (Tree α) → Prop
  | [] => True
  | t :: rest => KeysAre ok t ∧ KeysAreIn ok rest

def KeysAreOf (ok : String → Prop) : List (String × Tree α) → Prop
  | [] => True
  | (key, t) :: rest => ok key ∧ KeysAre ok t ∧ KeysAreOf ok rest

end

variable {ok : String → Prop}

theorem keysAreIn_iff (items : List (Tree α)) :
    KeysAreIn ok items ↔ ∀ t ∈ items, t.KeysAre ok := by
  induction items with
  | nil => simp [KeysAreIn]
  | cons t rest ih => rw [KeysAreIn, ih, List.forall_mem_cons]

theorem keysAreOf_iff (entries : List (String × Tree α)) :
    KeysAreOf ok entries ↔ ∀ entry ∈ entries, ok entry.1 ∧ entry.2.KeysAre ok := by
  induction entries with
  | nil => simp [KeysAreOf]
  | cons entry rest ih => rw [KeysAreOf, ih, List.forall_mem_cons, and_assoc]

theorem KeysAre.of_below? {t next : Tree α} {step : Step} (h : t.KeysAre ok)
    (hNext : t.below? step = some next) :
    (∀ name, step = .key name → ok name) ∧ next.KeysAre ok := by
  cases t with
  | leaf a => cases step <;> cases hNext
  | seq items =>
    cases step with
    | key name => cases hNext
    | index i =>
      rw [below?_seq_index] at hNext
      exact ⟨nofun, (keysAreIn_iff items).1 h next (List.mem_of_getElem? hNext)⟩
  | table entries =>
    cases step with
    | index i => cases hNext
    | key name =>
      rw [below?_table_key] at hNext
      obtain ⟨hKey, hBelow⟩ := (keysAreOf_iff entries).1 h (name, next) (Fields.mem_of_get? hNext)
      refine ⟨?_, hBelow⟩
      rintro _ ⟨⟩
      exact hKey

/-- The keys on the way to a node are keys in the tree. -/
theorem KeysAre.of_at? {location : Location} : ∀ {t node : Tree α}, t.KeysAre ok →
    t.at? location = some node → ∀ name, Step.key name ∈ location → ok name := by
  induction location with
  | nil => exact fun _ _ => nofun
  | cons step rest ih =>
    intro t node h hAt name hName
    obtain ⟨next, hNext, hRest⟩ := Option.bind_eq_some_iff.1 hAt
    obtain ⟨hKey, hBelow⟩ := h.of_below? hNext
    rcases List.mem_cons.1 hName with hStep | hName
    · exact hKey name hStep.symm
    · exact ih hBelow hRest name hName

theorem dotless_of_at? {t node : Tree α} {location : Location}
    (h : t.KeysAre KeyPath.IsSegment) (hAt : t.at? location = some node) :
    ∀ step ∈ location, step.Dotless := by
  intro step hStep
  cases step with
  | key name => exact h.of_at? hAt name hStep
  | index i => trivial

end Tree

-- ---------------------------------------------------------------------------
-- Segments
-- ---------------------------------------------------------------------------

theorem isDigit_of_mem_repr {i : Nat} {c : Char} (h : c ∈ (Nat.repr i).toList) :
    c.isDigit = true := by
  rw [Nat.toList_repr] at h
  exact Nat.isDigit_of_mem_toDigits (by decide) (by decide) h

theorem toList_repr_ne_nil (i : Nat) : (Nat.repr i).toList ≠ [] := by
  rw [Nat.toList_repr]
  exact Nat.toDigits_ne_nil

theorem ofDigitChars_repr (i : Nat) : Nat.ofDigitChars 10 (Nat.repr i).toList 0 = i := by
  rw [Nat.toList_repr]
  exact Nat.ofDigitChars_toDigits (by decide) (by decide)

/-- An index is read back from its digits. -/
theorem index?_repr {i : Nat} (h : i ≤ maxIndex) : index? (Nat.repr i) = some i := by
  obtain ⟨c, rest, hChars⟩ := List.exists_cons_of_ne_nil (toList_repr_ne_nil i)
  have hDigits : ∀ d ∈ c :: rest, d.isDigit = true :=
    fun d hd => isDigit_of_mem_repr (hChars ▸ hd)
  have hSign : c ≠ '+' := by
    rintro rfl
    exact absurd (hDigits '+' List.mem_cons_self) (by decide)
  have hAll : (c :: rest).all Char.isDigit = true := List.all_eq_true.2 hDigits
  have hValue : Nat.ofDigitChars 10 (c :: rest) 0 = i := by
    rw [← hChars, ofDigitChars_repr]
  simp [index?, hChars, hSign, hAll, hValue, h]

namespace Step

theorem isSegment_segment {step : Step} (h : step.Dotless) : KeyPath.IsSegment step.segment := by
  cases step with
  | key name => exact h
  | index i =>
    refine ⟨fun hEmpty => ?_, fun hDot => absurd (isDigit_of_mem_repr hDot) (by decide)⟩
    exact toList_repr_ne_nil i (String.toList_eq_nil_iff.2 hEmpty)

/-- Two steps with one segment are the same, but for a key that looks like an index. -/
theorem unambiguous_segment : Unambiguous fun step segment => step.segment = segment := by
  refine ⟨fun hName hOther => hName.trans hOther.symm, fun {i j} segment hi hj => ?_⟩
  have hDigits : Nat.repr i = Nat.repr j := hi.trans hj.symm
  rw [← ofDigitChars_repr i, hDigits, ofDigitChars_repr]

theorem spelledBy_segment {step : Step} (h : step.InRange) : step.SpelledBy step.segment := by
  cases step with
  | key name => rfl
  | index i => exact index?_repr h

end Step

namespace Location

/-- The path of a location: every step as a segment. -/
def path (location : Location) : KeyPath := location.map Step.segment

variable {location : Location}

theorem spelledBy_path (h : ∀ step ∈ location, step.InRange) :
    location.SpelledBy location.path := by
  refine List.forall₂_map_right_iff.2 (List.forall₂_same.2 fun step hStep => ?_)
  exact Step.spelledBy_segment (h step hStep)

theorem forall₂_path (location : Location) :
    List.Forall₂ (fun step segment => step.segment = segment) location location.path :=
  List.forall₂_map_right_iff.2 (List.forall₂_same.2 fun _ _ => rfl)

theorem isSegment_path (h : ∀ step ∈ location, step.Dotless) :
    ∀ segment ∈ location.path, KeyPath.IsSegment segment := by
  intro segment hSegment
  obtain ⟨step, hStep, rfl⟩ := List.mem_map.1 hSegment
  exact Step.isSegment_segment (h step hStep)

theorem extendPath_eq (path : String) {segment : String} (h : segment ≠ "") :
    extendPath path segment = KeyPath.joinTexts path segment := by
  simp [extendPath, KeyPath.joinTexts, h]

theorem originPath_concat (front : Location) (step : Step) :
    originPath (front ++ [step]) = extendPath (originPath front) step.segment := by
  rw [originPath, List.foldl_append]
  rfl

theorem path_concat (front : Location) (step : Step) :
    path (front ++ [step]) = path front ++ [step.segment] := List.map_append

/-- The path text that errors give is the text of the path. -/
theorem originPath_eq_toString (h : ∀ step ∈ location, step.Dotless) :
    location.originPath = location.path.toString := by
  -- a path text grows at its end
  induction location using List.reverseRecOn with
  | nil => rfl
  | append_singleton front step ih =>
    obtain ⟨hFront, hStep⟩ := List.forall_mem_append.1 h
    have hSegment := (Step.isSegment_segment (List.forall_mem_singleton.1 hStep)).1
    rw [originPath_concat, path_concat, extendPath_eq _ hSegment, ih hFront,
      KeyPath.toString_append (fun s hs => (isSegment_path hFront s hs).1)
        (List.forall_mem_singleton.2 hSegment)]
    rfl

end Location

-- ---------------------------------------------------------------------------
-- Leaves
-- ---------------------------------------------------------------------------

namespace Draft

open Location

variable {t : Value}

/-- **An origin path leads back to its leaf.** Let no key of the tree be empty or have a dot.
The leaves are the texts of the tree. What is found at the origin path of one, unless that is
the root, is the text itself, and the place where it is found is its own, provided that the
indexes on the way are in range. No two leaves have the same origin path. -/
theorem originPath_leads_back (ht : t.WellFormed) (hKeys : t.KeysAre KeyPath.IsSegment) :
    (∀ location raw, (⟨location, raw⟩ : Leaf) ∈ (ofValue t).deferredLeaves ↔
      t.at? location = some (.leaf (.text raw))) ∧
    (∀ leaf ∈ (ofValue t).deferredLeaves, leaf.location ≠ [] →
      (∀ step ∈ leaf.location, step.InRange) →
      t.get? (KeyPath.ofString leaf.originPath) = some (.leaf (.text leaf.raw)) ∧
      ∀ location, t.Leads (KeyPath.ofString leaf.originPath) location ↔
        location = leaf.location) ∧
    ∀ leaf ∈ (ofValue t).deferredLeaves, ∀ other ∈ (ofValue t).deferredLeaves,
      leaf.originPath = other.originPath → leaf = other := by
  have hDotless : ∀ leaf ∈ (ofValue t).deferredLeaves, ∀ step ∈ leaf.location, step.Dotless :=
    fun leaf hLeaf => Tree.dotless_of_at? hKeys (at?_of_mem_deferredLeaves ht hLeaf)
  refine ⟨fun location raw => ⟨at?_of_mem_deferredLeaves ht, mem_deferredLeaves_ofValue⟩, ?_, ?_⟩
  · intro leaf hLeaf hBelow hRange
    have hSteps := hDotless leaf hLeaf
    have hAt := at?_of_mem_deferredLeaves ht hLeaf
    have hLeads : t.Leads leaf.location.path leaf.location :=
      ⟨by simpa [path] using hBelow, spelledBy_path hRange, _, hAt⟩
    rw [Leaf.originPath, originPath_eq_toString hSteps,
      KeyPath.ofString_toString (isSegment_path hSteps), hLeads.get?_eq]
    refine ⟨hAt, fun location => ⟨fun hOther => hOther.unique hLeads, ?_⟩⟩
    rintro rfl
    exact hLeads
  · intro leaf hLeaf other hOther h
    have hSteps := hDotless leaf hLeaf
    have hSteps' := hDotless other hOther
    rw [Leaf.originPath, Leaf.originPath, originPath_eq_toString hSteps,
      originPath_eq_toString hSteps'] at h
    have hPaths := KeyPath.toString_injective (isSegment_path hSteps) (isSegment_path hSteps') h
    -- the same segments stand for the same steps in the one tree
    have hOther' := forall₂_path other.location
    rw [← hPaths] at hOther'
    exact distinct_ofValue ht leaf hLeaf other hOther
      (Tree.location_unique Step.unambiguous_segment (forall₂_path leaf.location)
        (at?_of_mem_deferredLeaves ht hLeaf) hOther' (at?_of_mem_deferredLeaves ht hOther))

/-- A key that looks like an index, and sequences in a table in a sequence. -/
def nested : Value :=
  .seq [.table [("0", .seq [Value.ofString "x", .seq [Value.ofString "y"]])]]

theorem originPath_leads_back_nested :
    nested.WellFormed ∧ nested.KeysAre KeyPath.IsSegment ∧
      Leaf.originPath ⟨[.index 0, .key "0", .index 1, .index 0], Text.plain "y"⟩ = "0.0.1.0" ∧
      nested.get? (KeyPath.ofString "0.0.1.0") = some (.leaf (.text (Text.plain "y"))) ∧
      ∀ other ∈ (ofValue nested).deferredLeaves, other.originPath = "0.0.1.0" →
        other.location = [.index 0, .key "0", .index 1, .index 0] := by
  have hWf : nested.WellFormed :=
    ⟨⟨List.pairwise_singleton _ _, ⟨trivial, ⟨trivial, trivial⟩, trivial⟩, trivial⟩, trivial⟩
  have hKey : KeyPath.IsSegment "0" := by decide
  have hKeys : nested.KeysAre KeyPath.IsSegment :=
    ⟨⟨hKey, ⟨trivial, ⟨trivial, trivial⟩, trivial⟩, trivial⟩, trivial⟩
  obtain ⟨hLeaves, hBack, hDistinct⟩ := originPath_leads_back hWf hKeys
  have hLeaf := (hLeaves [.index 0, .key "0", .index 1, .index 0] (Text.plain "y")).2 rfl
  have hRange : 1 ≤ maxIndex := by decide
  obtain ⟨hGet, -⟩ := hBack _ hLeaf (List.cons_ne_nil _ _) (by simp [Step.InRange, hRange])
  refine ⟨hWf, hKeys, by rfl, hGet, fun other hOther hPath => ?_⟩
  exact congrArg Leaf.location (hDistinct other hOther _ hLeaf hPath)

end Draft

end LayeredConfig
