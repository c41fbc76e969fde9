import LayeredConfig.Expansion.Basic
import LayeredConfig.Proofs.Merge
import LayeredConfig.Proofs.Visits

/-!
# LayeredConfig — the paths of a pattern as patterns

A path of a pattern has words as its segments. Its text is then a pattern too, and names
that path only. What a pattern leads to in a tree is so put together from what its paths
lead to: a lookup is the merge of a lookup for each of them.

A path without segments is left out. Its text is empty, and that is no pattern.

* `Pattern.visited`      — the texts of the paths of a pattern.
* `KeyPath.JoinedAs`     — words with single dots between them.
* `Value.get_toString`   — a lookup of a plain path.
* `Pattern.get_eq_merge_of_paths` — a lookup as the merge of lookups of paths.
-/

namespace LayeredConfig

-- ---------------------------------------------------------------------------
-- Texts
-- ---------------------------------------------------------------------------

namespace KeyPath

open PatternToken

/-- Every dot stands between two characters that are no dots. -/
def SingleDots (chars : List Char) : Prop :=
  ∀ front back, chars = front ++ '.' :: back →
    (∃ c, front.getLast? = some c ∧ c ≠ '.') ∧ ∃ c, back.head? = some c ∧ c ≠ '.'

/-- The text is made of words, at least one, with single dots between them. -/
structure JoinedAs (words : KeyPath) (text : String) : Prop where
  nonempty : words ≠ []
  letters : ∀ word ∈ words, word ≠ "" ∧ ∀ c ∈ word.toList, InWords c
  joined : text = ".".intercalate words
  singleDots : SingleDots text.toList

/-- A text has single dots if nothing between them is empty. -/
theorem singleDots_of_splitOn {chars : List Char} (h : ∀ piece ∈ chars.splitOn '.', piece ≠ []) :
    SingleDots chars := by
  rintro front back rfl
  rw [List.splitOn_append_cons_self] at h
  refine ⟨?_, ?_⟩
  · cases hLast : front.getLast? with
    | none =>
      rw [List.getLast?_eq_none_iff.1 hLast] at h
      exact absurd rfl (h [] (by simp))
    | some c =>
      refine ⟨c, rfl, ?_⟩
      rintro rfl
      obtain ⟨before, rfl⟩ := List.getLast?_eq_some_iff.1 hLast
      rw [List.splitOn_append_cons_self] at h
      exact absurd rfl (h [] (by simp))
  · cases back with
    | nil => exact absurd rfl (h [] (by simp))
    | cons c more =>
      refine ⟨c, rfl, ?_⟩
      rintro rfl
      rw [← List.nil_append ('.' :: more), List.splitOn_append_cons_self] at h
      exact absurd rfl (h [] (by simp))

theorem joinedAs_toString {path : KeyPath} (h : path.Plain) : path.JoinedAs path.toString := by
  refine ⟨h.1, ?_, rfl, ?_⟩
  · intro word hWord
    exact ⟨(h.2 word hWord).ne_empty, fun c hc => (isWordChar_iff c).1 ((h.2 word hWord).2 c hc)⟩
  · apply singleDots_of_splitOn
    intro piece hPiece
    rw [splitOn_toString h.1 (isSegment_of_words h.2)] at hPiece
    obtain ⟨segment, hSegment, rfl⟩ := List.mem_map.1 hPiece
    exact (h.2 segment hSegment).1

theorem toString_eq_empty_iff {path : KeyPath} (h : ∀ segment ∈ path, segment ≠ "") :
    path.toString = "" ↔ path = [] := by
  constructor
  · intro hEmpty
    cases path with
    | nil => rfl
    | cons segment rest =>
      exact absurd hEmpty (toString_ne_empty (h segment List.mem_cons_self) rest)
  · rintro rfl
    rfl

end KeyPath

-- ---------------------------------------------------------------------------
-- Lookups
-- ---------------------------------------------------------------------------

/-- A lookup of a plain path follows it. -/
theorem Value.get_toString (tree : Value) {path : KeyPath} (h : path.Plain) :
    Value.get tree path.toString = .ok (tree.get? path) := by
  rw [Value.get, Pattern.parse_toString h]
  simp only [Pattern.paths_word, List.map_cons, List.map_nil, Tree.merge_singleton]

/-- Paths without segments add nothing to a merge. -/
theorem Tree.merge_get?_filter (t : Tree α) (paths : List KeyPath) :
    merge ((paths.filter (· ≠ [])).map t.get?) = merge (paths.map t.get?) := by
  have hSame : ((paths.filter (· ≠ [])).map t.get?).filterMap id =
      (paths.map t.get?).filterMap id := by
    rw [List.filterMap_map, List.filterMap_map, List.filterMap_filter]
    apply List.filterMap_congr
    intro path _
    cases path <;> rfl
  rw [merge_eq, merge_eq, hSame]

namespace Pattern

/-- The texts that a visit to all paths is called with. -/
def visited (p : Pattern) : List String := Id.run (p.mapPaths fun path => pure path.toString)

theorem visited_eq_map (p : Pattern) : p.visited = p.paths.map KeyPath.toString := by
  rw [visited, mapPaths_eq_mapM, List.mapM_pure]
  rfl

section

variable {spec : String} {p : Pattern}

/-- The texts that are not empty are those of the paths with segments. -/
theorem filter_visited (h : parse spec = .ok p) :
    p.visited.filter (· ≠ "") = (p.paths.filter (· ≠ [])).map KeyPath.toString := by
  rw [visited_eq_map, List.filter_map]
  refine congrArg _ (List.filter_congr fun path hPath => ?_)
  have hEmpty := KeyPath.toString_eq_empty_iff fun segment hSegment =>
    (isWord_of_mem_paths h hPath segment hSegment).ne_empty
  simp only [Function.comp_apply, ne_eq, hEmpty]

/-- **The paths of a pattern are patterns, and a lookup is the merge of theirs.** The text of a
path is empty, or it is made of words with single dots between them. Then it can be cut into
the words again; as a pattern it is a single run of these, and its only path is itself. A
lookup of the pattern, in any tree, is the merge of the lookups of the texts of its paths, in
their order and without the empty ones. -/
theorem get_eq_merge_of_paths (h : parse spec = .ok p) :
    (∀ text ∈ p.visited, text = "" ∨ ∃ words : KeyPath, words.JoinedAs text ∧
      KeyPath.ofString text = words ∧
      parse text = .ok ⟨text, [.word words]⟩ ∧ visited ⟨text, [.word words]⟩ = [text]) ∧
    ∀ tree : Value, ∃ found : List (Option Value),
      (p.visited.filter (· ≠ "")).mapM (Value.get tree) = .ok found ∧
      Value.get tree spec = .ok (Tree.merge found) := by
  refine ⟨?_, ?_⟩
  · intro text hText
    rw [visited_eq_map] at hText
    obtain ⟨path, hPath, rfl⟩ := List.mem_map.1 hText
    by_cases hNonempty : path = []
    · exact .inl (by rw [hNonempty]; rfl)
    · have hPlain := plain_of_mem_paths h hPath hNonempty
      refine .inr ⟨path, KeyPath.joinedAs_toString hPlain,
        KeyPath.ofString_toString (KeyPath.isSegment_of_words hPlain.2), parse_toString hPlain, ?_⟩
      rw [visited_eq_map, paths_word, List.map_singleton]
  · intro tree
    refine ⟨(p.paths.filter (· ≠ [])).map tree.get?, ?_, ?_⟩
    · rw [filter_visited h, List.mapM_map]
      have hEach : ∀ path ∈ p.paths.filter (· ≠ []),
          (Value.get tree ∘ KeyPath.toString) path = pure (tree.get? path) := by
        intro path hPath
        obtain ⟨hMem, hNonempty⟩ := List.mem_filter.1 hPath
        exact Value.get_toString tree (plain_of_mem_paths h hMem (of_decide_eq_true hNonempty))
      rw [Tree.mapM_congr hEach, List.mapM_pure]
      rfl
    · rw [Value.get, h]
      exact congrArg Except.ok (Tree.merge_get?_filter tree p.paths).symm

end

/-- Empty branches at both ends, and a sequence under one of the paths. -/
theorem get_eq_merge_of_paths_of_branches :
    let p : Pattern := ⟨"(|a).(b.c|)", [.alt [.seq [], .word ["a"]],
      .alt [.word ["b", "c"], .seq []]]⟩
    let tree : Value := .table [("a", .seq [.leaf (.bool true)]),
      ("b", .table [("c", .seq [.leaf (.bool false)])])]
    parse "(|a).(b.c|)" = .ok p ∧ p.visited = ["b.c", "", "a.b.c", "a"] ∧
      (∃ words : KeyPath, words.JoinedAs "a.b.c" ∧
        parse "a.b.c" = .ok ⟨"a.b.c", [.word words]⟩) ∧
      ∃ found : List (Option Value),
        ["b.c", "a.b.c", "a"].mapM (Value.get tree) = .ok found ∧
        Value.get tree "(|a).(b.c|)" = .ok (Tree.merge found) := by
  intro p tree
  have hParse : parse "(|a).(b.c|)" = .ok p := by rfl
  have hVisited : p.visited = ["b.c", "", "a.b.c", "a"] := by rfl
  obtain ⟨hTexts, hGet⟩ := get_eq_merge_of_paths hParse
  rw [hVisited] at hTexts hGet
  obtain hEmpty | ⟨words, hJoined, -, hRead, -⟩ := hTexts "a.b.c" (by simp)
  · exact absurd hEmpty (by decide)
  · exact ⟨hParse, hVisited, ⟨words, hJoined, hRead⟩, hGet tree⟩

end Pattern

end LayeredConfig
