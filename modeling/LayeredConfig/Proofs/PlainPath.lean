import LayeredConfig.Pattern.Reader
import LayeredConfig.Pattern.Paths

/-!
# LayeredConfig — plain paths

A plain path is one whose segments are words. Its text is a pattern without groups,
so it names itself and nothing else.

* `KeyPath.Plain`          — the paths that are written with words and dots only.
* `Pattern.parse_toString` — the text of a plain path is a pattern,
* `Pattern.paths_word`     — which has that path and no other.
-/

namespace LayeredConfig

-- ---------------------------------------------------------------------------
-- Words
-- ---------------------------------------------------------------------------

namespace PatternToken

/-- Characters that make a word. -/
def IsWord (chars : List Char) : Prop := chars ≠ [] ∧ ∀ c ∈ chars, isWordChar c = true

-- on the list, as the search may also find an instance that tries every character
instance (chars : List Char) : Decidable (IsWord chars) :=
  decidable_of_iff (chars ≠ [] ∧ chars.all isWordChar = true) (by rw [List.all_eq_true, IsWord])

theorem IsWord.ne_empty {segment : String} (h : IsWord segment.toList) : segment ≠ "" :=
  fun hEmpty => h.1 (String.toList_eq_nil_iff.2 hEmpty)

/-- A word is one token, unless the characters behind it go on with it. -/
theorem scan_word {chars rest : List Char} (h : IsWord chars) {tokens : List PatternToken}
    (hRest : scan rest = .ok tokens) (hApart : ∀ cs more, tokens ≠ word cs :: more) :
    scan (chars ++ rest) = .ok (word chars :: tokens) := by
  obtain ⟨hNonempty, hChars⟩ := h
  induction chars with
  | nil => exact absurd rfl hNonempty
  | cons c more ih =>
    rw [List.cons_append, scan, if_pos (hChars c List.mem_cons_self)]
    cases more with
    | nil =>
      rw [List.nil_append, hRest]
      show Except.ok (consWordChar c tokens) = _
      rw [consWordChar.eq_def]
      split
      · rename_i cs behind
        exact absurd rfl (hApart cs behind)
      · rfl
    | cons d more =>
      rw [ih (List.cons_ne_nil d more) fun a ha => hChars a (List.mem_cons_of_mem c ha)]
      rfl

theorem isWordChar_of_ofMark? {c : Char} {token : PatternToken} (h : ofMark? c = some token) :
    isWordChar c = false := by
  rw [ofMark?.eq_def] at h
  split at h <;> cases h <;> decide

theorem scan_mark {c : Char} {token : PatternToken} (hMark : ofMark? c = some token)
    {rest : List Char} {tokens : List PatternToken} (h : scan rest = .ok tokens) :
    scan (c :: rest) = .ok (token :: tokens) := by
  rw [scan, isWordChar_of_ofMark? hMark, if_neg Bool.false_ne_true, hMark, h]
  rfl

end PatternToken

-- ---------------------------------------------------------------------------
-- Paths of words
-- ---------------------------------------------------------------------------

namespace KeyPath

open PatternToken

/-- There is a segment, and all segments are words. -/
def Plain (path : KeyPath) : Prop := path ≠ [] ∧ ∀ segment ∈ path, IsWord segment.toList

instance (path : KeyPath) : Decidable path.Plain :=
  inferInstanceAs (Decidable (path ≠ [] ∧ ∀ segment ∈ path, IsWord segment.toList))

/-- The characters of segments with a dot in front of each. -/
def dotted (path : KeyPath) : List Char := path.flatMap fun segment => '.' :: segment.toList

/-- The tokens of segments with a dot in front of each. -/
def dottedTokens (path : KeyPath) : List PatternToken :=
  path.flatMap fun segment => [dot, word segment.toList]

theorem toList_toString (segment : String) (rest : KeyPath) :
    (toString (segment :: rest)).toList = segment.toList ++ dotted rest := by
  induction rest generalizing segment with
  | nil => rw [toString, String.intercalate_singleton, dotted, List.flatMap_nil, List.append_nil]
  | cons next rest ih =>
    rw [toString, String.intercalate_cons_cons, String.toList_append, String.toList_append,
      List.append_assoc, ← toString, ih next, dotted, dotted, List.flatMap_cons]
    rfl

theorem dottedTokens_apart (path : KeyPath) :
    ∀ cs more, path.dottedTokens ≠ word cs :: more := by
  intro cs more h
  cases path <;> cases h

theorem scan_dotted {path : KeyPath} (h : ∀ segment ∈ path, IsWord segment.toList) :
    scan path.dotted = .ok path.dottedTokens := by
  induction path with
  | nil => rfl
  | cons segment rest ih =>
    have hRest := ih fun other hOther => h other (List.mem_cons_of_mem segment hOther)
    exact scan_mark rfl (scan_word (h segment List.mem_cons_self) hRest (dottedTokens_apart rest))

end KeyPath

-- ---------------------------------------------------------------------------
-- Reading
-- ---------------------------------------------------------------------------

namespace Pattern

open PatternToken KeyPath

/-- Segments behind dots are joined to the word in front of them. -/
theorem run?_dottedTokens (front path : KeyPath) :
    Reader.run? ⟨.afterTerm, ⟨[.word front], true⟩, []⟩ path.dottedTokens =
      .ok ⟨.afterTerm, ⟨[.word (front ++ path)], true⟩, []⟩ := by
  induction path generalizing front with
  | nil =>
    rw [List.append_nil]
    rfl
  | cons segment rest ih =>
    show Reader.run? ⟨.afterTerm, ⟨[.word (front ++ [String.ofList segment.toList])], true⟩, []⟩
      (dottedTokens rest) = _
    rw [String.ofList_toList, ih, List.append_assoc, List.singleton_append]

theorem parse_toString {path : KeyPath} (h : path.Plain) :
    parse path.toString = .ok ⟨path.toString, [.word path]⟩ := by
  obtain ⟨hNonempty, hWords⟩ := h
  obtain ⟨segment, rest, rfl⟩ := List.exists_cons_of_ne_nil hNonempty
  have hScan : scan (KeyPath.toString (segment :: rest)).toList =
      .ok (word segment.toList :: dottedTokens rest) := by
    rw [toList_toString]
    exact scan_word (hWords segment List.mem_cons_self)
      (scan_dotted fun other hOther => hWords other (List.mem_cons_of_mem segment hOther))
      (dottedTokens_apart rest)
  have hRun : Reader.initial.run? (word segment.toList :: dottedTokens rest) =
      .ok ⟨.afterTerm, ⟨[.word (segment :: rest)], true⟩, []⟩ := by
    show Reader.run? ⟨.afterTerm, ⟨[.word [String.ofList segment.toList]], true⟩, []⟩
      (dottedTokens rest) = _
    rw [String.ofList_toList, run?_dottedTokens, List.singleton_append]
  rw [parse, hScan]
  show (parseTokens _).map _ = _
  rw [parseTokens, hRun]
  rfl

theorem paths_word (spec : String) (path : KeyPath) :
    Pattern.paths ⟨spec, [.word path]⟩ = [path] := by
  simp [paths, Element.seqPaths, Element.paths]

end Pattern

end LayeredConfig
