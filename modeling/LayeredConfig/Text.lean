import LayeredConfig.Path

/-!
# LayeredConfig — texts

A text may carry the directory of the file it was read from, its origin, so
that it can be taken as a path name relative to that file. An origin, once
known, is never replaced.
-/

namespace LayeredConfig

/-- A text and the directory it came from, if known. -/
structure Text where
  text : String
  origin : Option String
  deriving DecidableEq, Repr

namespace Text

/-- A text of unknown origin. -/
def plain (text : String) : Text := ⟨text, none⟩

/-- Other text of the same origin. -/
def withText (t : Text) (text : String) : Text := { t with text := text }

/-- The text with `dir` as its origin, unless it has one. -/
def annotate (t : Text) (dir : String) : Text :=
  match t.origin with
  | none => { t with origin := some dir }
  | some _ => t

/-- The text as a path name, relative to its origin. -/
def pathname (t : Text) : String :=
  match t.origin with
  | none => t.text
  | some dir => Path.join dir t.text

/-- The same characters from the same directory, however that is spelled. -/
def same (a b : Text) : Bool :=
  a.text == b.text &&
    match a.origin, b.origin with
    | none, none => true
    | some dirA, some dirB => Path.same dirA dirB
    | _, _ => false

-- ---------------------------------------------------------------------------
-- Annotation
-- ---------------------------------------------------------------------------

@[simp] theorem annotate_annotate (t : Text) (dir other : String) :
    (t.annotate dir).annotate other = t.annotate dir := by
  cases h : t.origin <;> simp [annotate, h]

@[simp] theorem text_annotate (t : Text) (dir : String) :
    (t.annotate dir).text = t.text := by
  cases h : t.origin <;> simp [annotate, h]

@[simp] theorem origin_withText (t : Text) (text : String) :
    (t.withText text).origin = t.origin := rfl

end Text

end LayeredConfig
