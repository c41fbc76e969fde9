/-!
# LayeredConfig — splitting at a separator

A separator is a text that is not empty, so cutting a text at each of its
occurrences comes to an end. Occurrences are found from the left and do not
overlap.

* `Separator`       — the type.
* `Separator.split` — the pieces of a text, one more than there are cuts.
-/

namespace LayeredConfig

/-- A text of at least one character. -/
structure Separator where
  first : Char
  rest : List Char
  deriving DecidableEq, Repr

namespace Separator

/-- The separator that a text is, unless it is empty. -/
def ofString? (text : String) : Option Separator :=
  match text.toList with
  | [] => none
  | c :: cs => some ⟨c, cs⟩

/-- The characters of the separator. -/
def chars (s : Separator) : List Char := s.first :: s.rest

/-- The text of the separator. -/
def toString (s : Separator) : String := String.ofList s.chars

/-- What is left of `cs` behind the characters `front`, if it starts so. -/
def dropFront? : List Char → List Char → Option (List Char)
  | [], cs => some cs
  | _ :: _, [] => none
  | f :: front, c :: cs => if f = c then dropFront? front cs else none

theorem eq_append_of_dropFront? {front cs rest : List Char}
    (h : dropFront? front cs = some rest) : cs = front ++ rest := by
  induction front generalizing cs with
  | nil => simpa [dropFront?] using h
  | cons f front ih =>
    cases cs with
    | nil => simp [dropFront?] at h
    | cons c cs =>
      simp only [dropFront?] at h
      split at h
      · rename_i hfc
        rw [hfc, ih h]
        rfl
      · simp at h

/-- The characters behind the separator, where `cs` starts with it. -/
def strip? (s : Separator) : List Char → Option (List Char)
  | [] => none
  | c :: cs => if c = s.first then dropFront? s.rest cs else none

theorem length_of_strip? {s : Separator} {cs rest : List Char} (h : s.strip? cs = some rest) :
    rest.length < cs.length := by
  cases cs with
  | nil => simp [strip?] at h
  | cons c cs =>
    simp only [strip?] at h
    split at h
    · have := congrArg List.length (eq_append_of_dropFront? h)
      simp only [List.length_append] at this
      simp only [List.length_cons]
      omega
    · simp at h

/-- The pieces of `cs`, the first of which begins with `piece`, given last
character first. -/
def splitFrom (s : Separator) (piece : List Char) (cs : List Char) : List (List Char) :=
  match _h : s.strip? cs with
  | some rest => piece.reverse :: splitFrom s [] rest
  | none =>
    match cs with
    | [] => [piece.reverse]
    | c :: cs => splitFrom s (c :: piece) cs
termination_by cs.length
decreasing_by
  · exact length_of_strip? _h
  · simp

/-- The pieces of a text between the separators in it. -/
def split (s : Separator) (cs : List Char) : List (List Char) := s.splitFrom [] cs

end Separator

end LayeredConfig
