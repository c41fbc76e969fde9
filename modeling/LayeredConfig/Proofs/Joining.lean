import LayeredConfig.Path
import Mathlib.Data.List.TakeWhile

/-!
# LayeredConfig — joining paths

To join a path onto a directory is to take the steps of the directory and then those of
the path. An absolute path stands for itself; in any other one only a `.` that comes first
is lost.

* `Path.join_eq_self_iff` — when joining changes no text.
* `Path.components_join`  — the steps of a joined path.
* `Path.same_join_iff`    — when joining changes no steps.
-/

namespace LayeredConfig

namespace Path

-- ---------------------------------------------------------------------------
-- Texts
-- ---------------------------------------------------------------------------

theorem join_eq_self_iff {dir path : String} :
    join dir path = path ↔ isAbsolute path = true ∨ dir = "" := by
  have hAppend : ∀ front : String, front ++ path = path ↔ front = "" := by
    intro front
    constructor
    · intro h
      have hLength := congrArg String.length h
      rw [String.length_append] at hLength
      exact String.length_eq_zero_iff.1 (by omega)
    · rintro rfl
      exact String.empty_append
  unfold join
  split
  · rename_i hAbsolute
    simp [hAbsolute]
  · rename_i hRelative
    split
    · rename_i hEmpty
      simp [String.isEmpty_iff.1 hEmpty]
    · rename_i hNonempty
      have hDir : dir ≠ "" := fun h => hNonempty (String.isEmpty_iff.2 h)
      split
      · simp [hAppend, hRelative]
      · have hFront : dir ++ "/" ≠ "" := by
          intro h
          have hLength := congrArg String.length h
          simp at hLength
        simp [hAppend, hRelative, hFront, hDir]

theorem isAbsolute_append {front : String} (h : front ≠ "") (more : String) :
    isAbsolute (front ++ more) = isAbsolute front := by
  unfold isAbsolute
  rw [String.toList_append]
  cases hChars : front.toList with
  | nil => exact absurd (String.toList_eq_nil_iff.1 hChars) h
  | cons c rest => rfl

theorem isAbsolute_join (dir path : String) :
    isAbsolute (join dir path) = (isAbsolute path || isAbsolute dir) := by
  unfold join
  split
  · rename_i hPath
    simp [hPath]
  · rename_i hPath
    split
    · rename_i hEmpty
      simp [isAbsolute, String.isEmpty_iff.1 hEmpty]
    · rename_i hNonempty
      have hDir : dir ≠ "" := fun h => hNonempty (String.isEmpty_iff.2 h)
      split
      · simp [hPath, isAbsolute_append hDir]
      · simp [hPath, isAbsolute_append hDir, String.append_assoc]

-- ---------------------------------------------------------------------------
-- Steps
-- ---------------------------------------------------------------------------

/-- The text between the slashes. -/
def pieces (path : String) : List (List Char) := path.toList.splitOn '/'

/-- The steps that a path takes below a directory. -/
def stepsBelow (path : String) : List Component := (pieces path).filterMap ofSegment?

theorem ofSegment?_of_isIdle {segment : List Char} (h : isIdle segment = true) :
    ofSegment? segment = none := by
  unfold ofSegment?
  rw [if_pos h]

/-- Segments that name nothing make no steps, also at the end. -/
theorem filterMap_trimIdle (segments : List (List Char)) :
    (trimIdle segments).filterMap ofSegment? = segments.filterMap ofSegment? := by
  have hIdle : (segments.reverse.takeWhile isIdle).filterMap ofSegment? = [] := by
    rw [List.filterMap_eq_nil_iff]
    intro segment hSegment
    exact ofSegment?_of_isIdle (List.mem_takeWhile_imp hSegment)
  have hReverse : segments.reverse.filterMap ofSegment? =
      (segments.reverse.dropWhile isIdle).filterMap ofSegment? :=
    calc segments.reverse.filterMap ofSegment?
        = (segments.reverse.takeWhile isIdle ++ segments.reverse.dropWhile isIdle).filterMap
            ofSegment? := by rw [List.takeWhile_append_dropWhile]
      _ = (segments.reverse.dropWhile isIdle).filterMap ofSegment? := by
            rw [List.filterMap_append, hIdle, List.nil_append]
  unfold trimIdle
  rw [List.filterMap_reverse, ← hReverse, List.filterMap_reverse, List.reverse_reverse]

theorem components_of_pieces {path : String} {first : List Char} {later : List (List Char)}
    (h : pieces path = first :: later) :
    components path = leading path first ++ later.filterMap ofSegment? := by
  unfold components segments
  unfold pieces at h
  rw [h]
  simp only [filterMap_trimIdle]

theorem exists_pieces (path : String) : ∃ first later, pieces path = first :: later :=
  List.exists_cons_of_ne_nil (List.splitOnP_ne_nil _ _)

/-- The steps of a relative path are those it takes below a directory, but for a `.` that
comes first. -/
theorem components_of_relative {path : String} (h : isAbsolute path = false) :
    components path = stepsBelow path ∨ components path = .current :: stepsBelow path := by
  obtain ⟨first, later, hPieces⟩ := exists_pieces path
  rw [components_of_pieces hPieces, stepsBelow, hPieces, List.filterMap_cons]
  unfold leading
  simp only [h, Bool.false_eq_true, if_false]
  by_cases hEmpty : first = []
  · left
    simp [hEmpty, ofSegment?, isIdle]
  · by_cases hDot : first = ['.']
    · right
      simp [hDot, ofSegment?, isIdle]
    · left
      by_cases hParent : first = ['.', '.']
      · simp [hParent, ofSegment?, isIdle]
      · simp [hEmpty, hDot, hParent, ofSegment?, isIdle]

theorem current_not_mem_stepsBelow (path : String) : Component.current ∉ stepsBelow path := by
  intro h
  obtain ⟨segment, -, hSegment⟩ := List.mem_filterMap.1 h
  unfold ofSegment? at hSegment
  split at hSegment
  · cases hSegment
  · split at hSegment <;> cases hSegment

/-- A slash separates. -/
theorem pieces_append (front more : String) :
    pieces (front ++ "/" ++ more) = pieces front ++ pieces more := by
  unfold pieces
  rw [String.toList_append, String.toList_append, List.append_assoc]
  exact List.splitOnP_append_cons front.toList more.toList rfl

/-- Only the empty path takes no steps. -/
theorem components_ne_nil {path : String} (h : path ≠ "") : components path ≠ [] := by
  obtain ⟨first, later, hPieces⟩ := exists_pieces path
  rw [components_of_pieces hPieces]
  unfold leading
  split
  · simp
  · rename_i hRelative
    -- what is before the first slash is not empty
    have hFirst : first ≠ [] := by
      rintro rfl
      cases hChars : path.toList with
      | nil => exact h (String.toList_eq_nil_iff.1 hChars)
      | cons c rest =>
        have hSlash : c ≠ '/' := by simpa [isAbsolute, hChars] using hRelative
        unfold pieces List.splitOn at hPieces
        rw [hChars, List.splitOnP_cons_eq_if_modifyHead] at hPieces
        obtain ⟨behind, more, hBehind⟩ :=
          List.exists_cons_of_ne_nil (List.splitOnP_ne_nil (· == '/') rest)
        simp [hSlash, hBehind] at hPieces
    rw [if_neg hFirst]
    split
    · simp
    · split <;> simp

/-- A path whose pieces are those of a directory, but for idle ones, and then more. -/
theorem components_of_pieces_append {joined dir path : String} {front idle : List (List Char)}
    (hFront : front ≠ []) (hIdle : idle.filterMap ofSegment? = [])
    (hDir : pieces dir = front ++ idle) (hJoined : pieces joined = front ++ pieces path)
    (hAbsolute : isAbsolute joined = isAbsolute dir) :
    components joined = components dir ++ stepsBelow path := by
  obtain ⟨first, later, rfl⟩ := List.exists_cons_of_ne_nil hFront
  have hLeading : leading joined first = leading dir first := by
    unfold leading
    rw [hAbsolute]
  rw [List.cons_append] at hDir hJoined
  rw [components_of_pieces hDir, components_of_pieces hJoined, hLeading, stepsBelow]
  simp only [List.filterMap_append, hIdle, List.append_nil, List.append_assoc]

/-- The steps of a relative path come after those of the directory it is joined onto. -/
theorem components_join {dir path : String} (hDir : dir ≠ "") (hPath : isAbsolute path = false) :
    components (join dir path) = components dir ++ stepsBelow path := by
  have hAbsolute : isAbsolute (join dir path) = isAbsolute dir := by
    rw [isAbsolute_join, hPath, Bool.false_or]
  have hNonempty : dir.isEmpty = false := by simpa using hDir
  unfold join at hAbsolute ⊢
  simp only [hPath, hNonempty, Bool.false_eq_true, if_false] at hAbsolute ⊢
  split at hAbsolute
  · rename_i hSlash
    rw [if_pos hSlash]
    -- the slash at the end is the one between the two
    obtain ⟨front, hFront⟩ : ∃ front : String, dir = front ++ "/" := by
      obtain ⟨chars, hChars⟩ := List.getLast?_eq_some_iff.1 (beq_iff_eq.1 hSlash)
      refine ⟨String.ofList chars, String.toList_injective ?_⟩
      rw [hChars, String.toList_append, String.toList_ofList]
      rfl
    have hPieces : pieces dir = pieces front ++ [[]] := by
      rw [hFront, ← String.append_empty (s := front ++ "/")]
      exact pieces_append front ""
    have hJoined : pieces (dir ++ path) = pieces front ++ pieces path := by
      rw [hFront]
      exact pieces_append front path
    exact components_of_pieces_append (List.splitOnP_ne_nil _ _) rfl hPieces hJoined hAbsolute
  · rename_i hSlash
    rw [if_neg hSlash]
    exact components_of_pieces_append (List.splitOnP_ne_nil _ _) rfl (List.append_nil _).symm
      (pieces_append dir path) hAbsolute

/-- Joining a path onto a directory leaves its steps as they are only if it is absolute, or if
the directory names no other place and that is not lost. -/
theorem same_join_iff {dir path : String} :
    same (join dir path) path = true ↔ isAbsolute path = true ∨ dir = "" ∨
      (components dir = [.current] ∧ (components path).head? = some .current) := by
  have hSame : ∀ other, same other path = true ↔ components other = components path :=
    fun other => beq_iff_eq
  rw [hSame]
  by_cases hText : isAbsolute path = true ∨ dir = ""
  · rw [join_eq_self_iff.2 hText]
    exact ⟨fun _ => hText.elim .inl fun h => .inr (.inl h), fun _ => rfl⟩
  · obtain ⟨hRelative, hDir⟩ := not_or.1 hText
    have hPath : isAbsolute path = false := by simpa using hRelative
    rw [components_join hDir hPath]
    have hBelow := current_not_mem_stepsBelow path
    rcases components_of_relative hPath with hSteps | hSteps
    · have hNone : components dir ++ stepsBelow path ≠ stepsBelow path := by
        intro h
        exact components_ne_nil hDir (List.append_left_eq_self.1 h)
      have hHead : (stepsBelow path).head? ≠ some .current :=
        fun h => hBelow (List.mem_of_mem_head? h)
      simp [hSteps, hNone, hHead, hRelative, hDir]
    · have hOne : components dir ++ stepsBelow path = .current :: stepsBelow path ↔
          components dir = [.current] := by
        rw [← List.singleton_append, List.append_left_inj]
      simp [hSteps, hOne, hRelative, hDir]

end Path

end LayeredConfig
