import LayeredConfig.Setup
import LayeredConfig.Proofs.Insertion
import Mathlib

/-!
# LayeredConfig — what the environment gives

The variables of the environment are put in one after the other, each at the path that its
name spells. A variable may overwrite one before it: that at the same path, as names that
differ in case spell the same path, one on the way to its path, where a table has to be, and
all those below its path. So a variable is kept if all later ones stay apart from it.

* `Overlay.Spells`        — the path that a name spells.
* `Overlay.Kept`          — a text that no later variable overwrites.
* `Overlay.entries_exact` — the tree has the texts that are kept, and nothing else. If no
  variables conflict, it has them all, and their order does not matter.
-/

namespace LayeredConfig

-- ---------------------------------------------------------------------------
-- Names
-- ---------------------------------------------------------------------------

namespace Separator

theorem dropFront?_append (front rest : List Char) :
    dropFront? front (front ++ rest) = some rest := by
  induction front with
  | nil => rfl
  | cons c front ih => rw [List.cons_append, dropFront?, if_pos rfl, ih]

theorem dropFront?_eq_some_iff {front cs rest : List Char} :
    dropFront? front cs = some rest ↔ cs = front ++ rest :=
  ⟨eq_append_of_dropFront?, fun h => h ▸ dropFront?_append front rest⟩

theorem splitFrom_ne_nil (s : Separator) (piece cs : List Char) : s.splitFrom piece cs ≠ [] := by
  fun_induction splitFrom s piece cs with
  | case1 => exact List.cons_ne_nil _ _
  | case2 => exact List.cons_ne_nil _ _
  | case3 piece c cs hStrip ih => exact ih

end Separator

namespace Overlay

variable {overlay : Overlay}

/-- The name is the prefix, the separator and some text, and the path is what stands between
separators in that text, in lower case. -/
def Spells (overlay : Overlay) (name : String) (path : KeyPath) : Prop :=
  ∃ rest : String, rest ≠ "" ∧ name = overlay.front ++ overlay.separator.toString ++ rest ∧
    path = (overlay.separator.split rest.toList).map fun piece =>
      Chars.lowercase (String.ofList piece)

theorem path?_eq_some_iff {name : String} {path : KeyPath} :
    overlay.path? name = some path ↔ overlay.Spells name path := by
  have hName : ∀ rest : String, name = overlay.front ++ overlay.separator.toString ++ rest ↔
      Separator.dropFront? (overlay.front.toList ++ overlay.separator.chars) name.toList =
        some rest.toList := by
    intro rest
    rw [Separator.dropFront?_eq_some_iff, ← String.toList_inj, String.toList_append,
      String.toList_append, Separator.toString, String.toList_ofList]
  unfold Spells path?
  constructor
  · intro h
    split at h
    · cases h
    · cases h
    · rename_i rest hNonempty hFront
      cases h
      refine ⟨String.ofList rest, ?_, (hName _).2 (by rw [String.toList_ofList]; exact hFront), ?_⟩
      · intro hEmpty
        exact hNonempty (by simpa using congrArg String.toList hEmpty)
      · rw [String.toList_ofList]
  · rintro ⟨rest, hNonempty, hRest, rfl⟩
    have hChars : rest.toList ≠ [] := fun h => hNonempty (String.toList_eq_nil_iff.1 h)
    obtain ⟨c, cs, hCons⟩ := List.exists_cons_of_ne_nil hChars
    rw [(hName rest).1 hRest, hCons]

theorem Spells.ne_nil {name : String} {path : KeyPath} (h : overlay.Spells name path) :
    path ≠ [] := by
  obtain ⟨rest, -, -, rfl⟩ := h
  intro hNil
  exact Separator.splitFrom_ne_nil _ _ _ (List.map_eq_nil_iff.1 hNil)

theorem Spells.unique {name : String} {path other : KeyPath} (h : overlay.Spells name path)
    (hOther : overlay.Spells name other) : path = other :=
  Option.some.inj ((path?_eq_some_iff.2 h).symm.trans (path?_eq_some_iff.2 hOther))

-- ---------------------------------------------------------------------------
-- Texts that are kept
-- ---------------------------------------------------------------------------

/-- The environment has a variable with this text whose name spells this path, and the paths
that names behind it spell are apart from it. -/
def Kept (overlay : Overlay) (environment : Environment) (path : KeyPath) (text : String) : Prop :=
  ∃ front name back, environment = front ++ (name, text) :: back ∧ overlay.Spells name path ∧
    ∀ later ∈ back, ∀ other, overlay.Spells later.1 other → path.Apart other

variable {environment : Environment}

/-- What one variable more does: it is kept, and all that is apart from it. -/
theorem kept_concat {pair : String × String} {path : KeyPath} {text : String} :
    overlay.Kept (environment ++ [pair]) path text ↔
      (overlay.Spells pair.1 path ∧ text = pair.2) ∨
        (overlay.Kept environment path text ∧
          ∀ other, overlay.Spells pair.1 other → path.Apart other) := by
  constructor
  · rintro ⟨front, name, back, hSplit, hSpells, hBehind⟩
    rcases List.eq_nil_or_concat' back with rfl | ⟨back, last, rfl⟩
    · obtain ⟨-, hLast⟩ := List.append_inj' hSplit rfl
      cases hLast
      exact .inl ⟨hSpells, rfl⟩
    · rw [← List.cons_append, ← List.append_assoc] at hSplit
      obtain ⟨hFront, hLast⟩ := List.append_inj' hSplit rfl
      cases hLast
      rw [List.forall_mem_append, List.forall_mem_singleton] at hBehind
      exact .inr ⟨⟨front, name, back, hFront, hSpells, hBehind.1⟩, hBehind.2⟩
  · rintro (⟨hSpells, rfl⟩ | ⟨⟨front, name, back, rfl, hSpells, hBehind⟩, hLast⟩)
    · exact ⟨environment, pair.1, [], rfl, hSpells, nofun⟩
    · refine ⟨front, name, back ++ [pair], by simp, hSpells, ?_⟩
      exact List.forall_mem_append.2 ⟨hBehind, List.forall_mem_singleton.2 hLast⟩

theorem entries_concat (environment : Environment) (pair : String × String) :
    overlay.entries (environment ++ [pair]) =
      overlay.addVariable (overlay.entries environment) pair := by
  rw [entries, List.foldl_append]
  rfl

/-- The leaves of the tree are the texts that are kept. -/
theorem node?_entries_eq_leaf (environment : Environment) {path : KeyPath} {s : Scalar} :
    (Tree.table (overlay.entries environment)).node? path = some (.leaf s) ↔
      ∃ text, s = .text (.plain text) ∧ overlay.Kept environment path text := by
  induction environment using List.reverseRecOn with
  | nil =>
    constructor
    · intro h
      cases path <;> cases h
    · rintro ⟨text, -, front, name, back, hSplit, -⟩
      simp at hSplit
  | append_singleton front pair ih =>
    rw [entries_concat, addVariable]
    simp only [kept_concat]
    cases hPath : overlay.path? pair.1 with
    | none =>
      have hSpells : ∀ other, ¬ overlay.Spells pair.1 other := by
        intro other h
        rw [path?_eq_some_iff.2 h] at hPath
        cases hPath
      simp [ih, hSpells]
    | some first =>
      have hFirst := path?_eq_some_iff.1 hPath
      have hSpells : ∀ other, overlay.Spells pair.1 other ↔ other = first :=
        fun other => ⟨fun h => h.unique hFirst, fun h => h ▸ hFirst⟩
      simp only [Value.ofString, Tree.node?_insertAt_eq_leaf hFirst.ne_nil, ih, hSpells,
        forall_eq]
      constructor
      · rintro (⟨rfl, rfl⟩ | ⟨hApart, text, rfl, hKept⟩)
        · exact ⟨pair.2, rfl, .inl ⟨rfl, rfl⟩⟩
        · exact ⟨text, rfl, .inr ⟨hKept, hApart.symm⟩⟩
      · rintro ⟨text, rfl, ⟨rfl, rfl⟩ | ⟨hKept, hApart⟩⟩
        · exact .inl ⟨rfl, rfl⟩
        · exact .inr ⟨hApart.symm, text, rfl, hKept⟩

/-- Whatever every insertion keeps holds of the tree. -/
theorem entries_induction {P : Fields Value → Prop} (hNil : P [])
    (hInsert : ∀ text path entries, P entries →
      P (Tree.insertAt (Value.ofString text) path entries)) (environment : Environment) :
    P (overlay.entries environment) := by
  induction environment using List.reverseRecOn with
  | nil => exact hNil
  | append_singleton front pair ih =>
    rw [entries_concat, addVariable]
    split
    · exact ih
    · exact hInsert _ _ _ ih

theorem wellFormed_entries (environment : Environment) :
    (Tree.table (overlay.entries environment)).WellFormed :=
  entries_induction (P := fun entries => (Tree.table entries).WellFormed)
    ⟨Fields.ordered_nil, trivial⟩
    (fun _ _ _ h => Tree.wellFormed_insertAt (a := .leaf _) trivial h) environment

theorem denseBelow_entries (environment : Environment) :
    Tree.DenseBelow (overlay.entries environment) :=
  entries_induction (P := Tree.DenseBelow) nofun
    (fun _ _ _ h => Tree.denseBelow_insertAt (.leaf _) h) environment

-- ---------------------------------------------------------------------------
-- Variables without conflicts
-- ---------------------------------------------------------------------------

/-- No two variables spell paths that are equal, or one an initial part of the other. -/
def Unconflicted (overlay : Overlay) (environment : Environment) : Prop :=
  environment.Pairwise fun pair later => ∀ path, overlay.Spells pair.1 path →
    ∀ other, overlay.Spells later.1 other → path.Apart other

theorem unconflicted_iff : overlay.Unconflicted environment ↔
    (environment.filterMap fun pair => overlay.path? pair.1).Pairwise KeyPath.Apart := by
  simp only [Unconflicted, List.pairwise_filterMap, path?_eq_some_iff]

instance : Decidable (overlay.Unconflicted environment) := decidable_of_iff _ unconflicted_iff.symm

theorem kept_iff_of_unconflicted (h : overlay.Unconflicted environment) {path : KeyPath}
    {text : String} : overlay.Kept environment path text ↔
      ∃ name, (name, text) ∈ environment ∧ overlay.Spells name path := by
  constructor
  · rintro ⟨front, name, back, rfl, hSpells, -⟩
    exact ⟨name, List.mem_append_right front List.mem_cons_self, hSpells⟩
  · rintro ⟨name, hIn, hSpells⟩
    obtain ⟨front, back, rfl⟩ := List.append_of_mem hIn
    have hBack := (List.pairwise_cons.1 (List.pairwise_append.1 h).2.1).1
    exact ⟨front, name, back, rfl, hSpells, fun later hLater => hBack later hLater path hSpells⟩

theorem Unconflicted.perm {others : Environment} (h : overlay.Unconflicted environment)
    (hPerm : others.Perm environment) : overlay.Unconflicted others :=
  (hPerm.pairwise_iff fun {_ _} hApart path hPath other hOther =>
    (hApart other hOther path hPath).symm).2 h

/-- Without conflicts the order of the variables does not matter. -/
theorem entries_perm (h : overlay.Unconflicted environment) {others : Environment}
    (hPerm : others.Perm environment) : overlay.entries others = overlay.entries environment := by
  refine Tree.ext_of_sameLeaves (wellFormed_entries others) (wellFormed_entries environment)
    (denseBelow_entries others) (denseBelow_entries environment) fun path s => ?_
  simp only [node?_entries_eq_leaf, kept_iff_of_unconflicted h,
    kept_iff_of_unconflicted (h.perm hPerm), hPerm.mem_iff]

-- ---------------------------------------------------------------------------
-- The tree
-- ---------------------------------------------------------------------------

theorem mem_deferredLeaves_entries (environment : Environment) {leaf : Leaf} :
    leaf ∈ (Draft.ofValue (.table (overlay.entries environment))).deferredLeaves ↔
      ∃ path text, leaf = ⟨path.map .key, .plain text⟩ ∧ overlay.Kept environment path text := by
  constructor
  · intro hLeaf
    have hAt := Draft.at?_of_mem_deferredLeaves (wellFormed_entries environment) hLeaf
    obtain ⟨location, raw⟩ := leaf
    have hLocation : location ≠ [] := by
      rintro rfl
      cases hAt
    obtain ⟨-, path, rfl⟩ :=
      Tree.dense_and_exists_path (denseBelow_entries environment) hLocation hAt
    obtain ⟨text, hText, hKept⟩ := (node?_entries_eq_leaf environment).1 hAt
    cases hText
    exact ⟨path, text, rfl, hKept⟩
  · rintro ⟨path, text, rfl, hKept⟩
    exact Draft.mem_deferredLeaves_ofValue
      ((node?_entries_eq_leaf environment).2 ⟨text, rfl, hKept⟩)

/-- **The environment gives exactly the last of conflicting variables.** The texts of the
tree are those of the variables for which no later variable's path is equal to theirs, an
initial part of it or an extension of it. Below the root there is nothing else but tables,
and none of them is empty. So if no two variables conflict, nothing is lost, and the order of
the environment does not matter. -/
theorem entries_exact (overlay : Overlay) (environment : Environment) :
    (∀ leaf, leaf ∈ (Draft.ofValue (.table (overlay.entries environment))).deferredLeaves ↔
      ∃ path text, leaf = ⟨path.map .key, .plain text⟩ ∧ overlay.Kept environment path text) ∧
    (∀ location node, location ≠ [] →
      (Tree.table (overlay.entries environment)).at? location = some node →
        (∃ text, node = Value.ofString text) ∨ ∃ below, below ≠ [] ∧ node = .table below) ∧
    (overlay.Unconflicted environment →
      (∀ name text path, (name, text) ∈ environment → overlay.Spells name path →
        ⟨path.map .key, .plain text⟩ ∈
          (Draft.ofValue (.table (overlay.entries environment))).deferredLeaves) ∧
      ∀ others, others.Perm environment →
        overlay.entries others = overlay.entries environment) := by
  refine ⟨fun _ => mem_deferredLeaves_entries environment, ?_, fun hNone => ⟨?_, ?_⟩⟩
  · intro location node hLocation hAt
    obtain ⟨hDense, path, rfl⟩ :=
      Tree.dense_and_exists_path (denseBelow_entries environment) hLocation hAt
    cases hDense with
    | leaf s =>
      obtain ⟨text, rfl, -⟩ := (node?_entries_eq_leaf environment).1 hAt
      exact .inl ⟨text, rfl⟩
    | table hEntries _ => exact .inr ⟨_, hEntries, rfl⟩
  · intro name text path hIn hSpells
    exact (mem_deferredLeaves_entries environment).2
      ⟨path, text, rfl, (kept_iff_of_unconflicted hNone).2 ⟨name, hIn, hSpells⟩⟩
  · exact fun others hPerm => entries_perm hNone hPerm

def doubleUnderscore : Overlay := ⟨"APP", ⟨'_', ['_']⟩⟩

def plainVariables : Environment :=
  [("APP__DB__HOST", "h"), ("OTHER", "o"), ("APP__DB__PORT", "1"), ("APP__", "e")]

/-- Two variables at different keys of one table, in either order. -/
theorem entries_exact_plain :
    doubleUnderscore.entries plainVariables.reverse = doubleUnderscore.entries plainVariables ∧
      ⟨[.key "db", .key "port"], .plain "1"⟩ ∈
        (Draft.ofValue (.table (doubleUnderscore.entries plainVariables))).deferredLeaves ∧
      ∃ node, (Tree.table (doubleUnderscore.entries plainVariables)).at? [.key "db"] = some node ∧
        ((∃ text, node = Value.ofString text) ∨ ∃ below, below ≠ [] ∧ node = .table below) := by
  obtain ⟨-, hNodes, hOrder⟩ := entries_exact doubleUnderscore plainVariables
  have hPaths : plainVariables.filterMap (fun pair => doubleUnderscore.path? pair.1) =
      [["db", "host"], ["db", "port"]] := by cbv
  have hNone : doubleUnderscore.Unconflicted plainVariables := by
    rw [unconflicted_iff, hPaths]
    decide
  have hPort : doubleUnderscore.Spells "APP__DB__PORT" ["db", "port"] :=
    path?_eq_some_iff.1 (by cbv)
  have hTable : (Tree.table (doubleUnderscore.entries plainVariables)).at? [.key "db"] =
      some (.table [("host", Value.ofString "h"), ("port", Value.ofString "1")]) := by cbv
  obtain ⟨hAll, hPerm⟩ := hOrder hNone
  exact ⟨hPerm _ (List.reverse_perm _), hAll "APP__DB__PORT" "1" _ (by decide) hPort, _, hTable,
    hNodes _ _ (List.cons_ne_nil _ _) hTable⟩

/-- The table at `db` goes once a text is put in there, and comes back without its host. -/
example : doubleUnderscore.entries
    [("APP__DB__HOST", "h"), ("APP__db", "t"), ("APP__Db__Port", "1"), ("APP__DB__port", "2")] =
      [("db", .table [("port", Value.ofString "2")])] := by cbv

end Overlay

end LayeredConfig
