import LayeredConfig.Proofs.PlainPath

/-!
# LayeredConfig — texts of paths

The text of a path has a dot between any two segments and none anywhere else, as long as
no segment is empty or has dots of its own. Then the text can be cut at its dots, and the
segments come back.

* `KeyPath.IsSegment`         — what can stand between the dots.
* `KeyPath.toString_append`   — the text of an append.
* `KeyPath.ofString_toString` — the segments come back.
-/

namespace LayeredConfig

namespace KeyPath

open PatternToken

/-- The text of a path behind another. An empty text has no segments and needs no dot. -/
def joinTexts (front back : String) : String :=
  if front = "" then back else if back = "" then front else front ++ "." ++ back

theorem toString_ne_empty {segment : String} (h : segment ≠ "") (rest : KeyPath) :
    toString (segment :: rest) ≠ "" := by
  intro hEmpty
  have hChars : segment.toList ++ dotted rest = [] := by
    rw [← toList_toString, hEmpty, String.toList_empty]
  exact h (String.toList_eq_nil_iff.1 (List.append_eq_nil_iff.1 hChars).1)

theorem Plain.toString_ne_empty {path : KeyPath} (h : path.Plain) : path.toString ≠ "" := by
  obtain ⟨segment, rest, rfl⟩ := List.exists_cons_of_ne_nil h.1
  exact KeyPath.toString_ne_empty (h.2 segment List.mem_cons_self).ne_empty rest

/-- Without empty segments the text of an append is the texts joined. -/
theorem toString_append {front back : KeyPath} (hFront : ∀ segment ∈ front, segment ≠ "")
    (hBack : ∀ segment ∈ back, segment ≠ "") :
    toString (front ++ back) = joinTexts front.toString back.toString := by
  cases front with
  | nil => exact (if_pos rfl).symm
  | cons segment rest =>
    rw [joinTexts, if_neg (toString_ne_empty (hFront segment List.mem_cons_self) rest)]
    cases back with
    | nil =>
      rw [List.append_nil]
      exact (if_pos rfl).symm
    | cons next more =>
      rw [if_neg (toString_ne_empty (hBack next List.mem_cons_self) more)]
      apply String.toList_injective
      rw [List.cons_append, String.toList_append, String.toList_append, toList_toString,
        toList_toString, toList_toString, dotted, List.flatMap_append]
      simp [dotted]

/-- A text that can stand between the dots of a path. -/
def IsSegment (segment : String) : Prop := segment ≠ "" ∧ '.' ∉ segment.toList

instance (segment : String) : Decidable (IsSegment segment) :=
  inferInstanceAs (Decidable (_ ∧ _))

theorem isSegment_of_isWord {segment : String} (h : IsWord segment.toList) : IsSegment segment :=
  ⟨h.ne_empty, fun hDot => absurd (h.2 '.' hDot) (by decide)⟩

theorem isSegment_of_words {path : KeyPath} (h : ∀ segment ∈ path, IsWord segment.toList) :
    ∀ segment ∈ path, IsSegment segment :=
  fun segment hSegment => isSegment_of_isWord (h segment hSegment)

theorem splitOn_toString {path : KeyPath} (hNonempty : path ≠ [])
    (h : ∀ segment ∈ path, IsSegment segment) :
    path.toString.toList.splitOn '.' = path.map String.toList := by
  rw [toString, String.toList_intercalate]
  refine List.splitOn_intercalate '.' ?_ (by simpa using hNonempty)
  intro chars hChars
  obtain ⟨segment, hSegment, rfl⟩ := List.mem_map.1 hChars
  exact (h segment hSegment).2

/-- A path is what its text is cut into. -/
theorem ofString_toString {path : KeyPath} (h : ∀ segment ∈ path, IsSegment segment) :
    ofString path.toString = path := by
  cases path with
  | nil => rfl
  | cons segment rest =>
    have hText : (toString (segment :: rest)).isEmpty = false := by
      have hNonempty := toString_ne_empty (h segment List.mem_cons_self).1 rest
      simpa using hNonempty
    rw [ofString, hText, splitOn_toString (List.cons_ne_nil _ _) h, List.map_map]
    simp

theorem toString_injective {path other : KeyPath} (hPath : ∀ segment ∈ path, IsSegment segment)
    (hOther : ∀ segment ∈ other, IsSegment segment) (h : path.toString = other.toString) :
    path = other := by
  rw [← ofString_toString hPath, h, ofString_toString hOther]

end KeyPath

end LayeredConfig
