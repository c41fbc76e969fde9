import LayeredConfig.Proofs.Depth

/-!
# LayeredConfig — the tokens of a text

The same characters may be written by different tokens: a text may be cut in two, a brace may be
part of a text, and `$${` may be a text in front of an opening. The scan decides for one of these
ways. It pairs dollar signs from the left, and makes one text of all that stands between other
tokens. Its tokens are the only ones that write the characters and have texts like that.

All that there is to say about a text is said about each of its characters, in front of what is
written behind it (`isTextBefore_iff`): it makes no token there (`Template.IsText`).

* `TemplateToken.scan_induction`      — characters begin with a delimiter or with one of a text.
* `TemplateToken.IsTokenization`      — tokens that write the characters, with texts as they
  should be.
* `TemplateToken.scan_flatMap_write`  — such tokens are found again.
* `TemplateToken.isTokenization_scan` — the scan finds such tokens.
-/

namespace LayeredConfig

namespace TemplateToken

open Template

-- ---------------------------------------------------------------------------
-- Delimiters
-- ---------------------------------------------------------------------------

/-- The tokens that are no text. -/
inductive Delimiter where
  | opening
  | dollar
  | leftBrace
  | rightBrace
  | colon
  deriving DecidableEq, Repr

namespace Delimiter

def token : Delimiter → TemplateToken
  | opening => .opening
  | dollar => .dollar
  | leftBrace => .leftBrace
  | rightBrace => .rightBrace
  | colon => .colon

theorem token_ne_text (d : Delimiter) (run : List Char) : d.token ≠ .text run := by
  cases d <;> exact fun h => by cases h

theorem scan_write (d : Delimiter) (rest : List Char) :
    scan (d.token.write ++ rest) = d.token :: scan rest := by
  cases d <;> rfl

end Delimiter

/-- Characters are none, or they are a delimiter in front of others, or a character that makes no
token there. -/
@[elab_as_elim]
theorem scan_induction {motive : List Char → Prop} (nil : motive [])
    (delimiter : ∀ (d : Delimiter) (rest : List Char), motive rest →
      motive (d.token.write ++ rest))
    (text : ∀ (c : Char) (rest : List Char), IsText c rest → motive rest → motive (c :: rest))
    (chars : List Char) : motive chars := by
  induction chars using scan.induct with
  | case1 => exact nil
  | case2 rest ih => exact delimiter .opening rest ih
  | case3 rest ih => exact delimiter .dollar rest ih
  | case4 rest ih => exact delimiter .leftBrace rest ih
  | case5 rest ih => exact delimiter .rightBrace rest ih
  | case6 rest ih => exact delimiter .colon rest ih
  | case7 c rest hOpening hDollar hLeft hRight hColon ih =>
    have hText : IsText c rest :=
      ⟨fun hc more => hOpening more hc, fun hc more => hDollar more hc, hLeft, hRight, hColon⟩
    exact text c rest hText ih

-- ---------------------------------------------------------------------------
-- Texts among tokens
-- ---------------------------------------------------------------------------

/-- What a text is like that stands in front of the tokens `behind`. -/
structure IsTextBefore (run : List Char) (behind : List TemplateToken) : Prop where
  /-- A text is not empty. -/
  ne_nil : run ≠ []
  /-- No other text is next to it. -/
  apart : ∀ next more, behind ≠ .text next :: more
  /-- Braces and colons are tokens of their own. -/
  leftBrace : '{' ∉ run
  rightBrace : '}' ∉ run
  colon : ':' ∉ run
  /-- So are two dollar signs in a row. -/
  dollars : ¬ ['$', '$'] <:+: run
  /-- A dollar sign at the end does not make a token with what is written behind it. -/
  ended : ['$'] <:+ run → ∀ c rest, behind.flatMap write = c :: rest → c ≠ '$' ∧ c ≠ '{'

/-- The tokens write the characters, and each text among them is as a text should be. -/
structure IsTokenization (chars : List Char) (tokens : List TemplateToken) : Prop where
  /-- Nothing is lost, and nothing is added. -/
  written : tokens.flatMap write = chars
  texts : ∀ run behind, .text run :: behind <:+ tokens → IsTextBefore run behind

section

variable {run : List Char} {behind tokens : List TemplateToken}

theorem IsTextBefore.isText (h : IsTextBefore run behind) {c : Char} {rest : List Char}
    (hRun : c :: rest <:+ run) : IsText c (rest ++ behind.flatMap write) := by
  have hMem : ∀ d ∈ c :: rest, d ∈ run := fun d hd => hRun.subset hd
  -- with a dollar sign in front, the next character is in the run too, or is written behind it
  refine ⟨?_, ?_, ?_, ?_, ?_⟩
  · rintro rfl more hMore
    cases rest with
    | nil => exact (h.ended hRun _ _ hMore).2 rfl
    | cons d rest =>
      cases hMore
      exact h.leftBrace (hMem '{' (by simp))
  · rintro rfl more hMore
    cases rest with
    | nil => exact (h.ended hRun _ _ hMore).1 rfl
    | cons d rest =>
      cases hMore
      exact h.dollars ((List.prefix_append ['$', '$'] rest).isInfix.trans hRun.isInfix)
  · rintro rfl
    exact h.leftBrace (hMem _ List.mem_cons_self)
  · rintro rfl
    exact h.rightBrace (hMem _ List.mem_cons_self)
  · rintro rfl
    exact h.colon (hMem _ List.mem_cons_self)

/-- A text is as it should be if none of its characters makes a token where it stands. -/
theorem isTextBefore_iff :
    IsTextBefore run behind ↔ run ≠ [] ∧ (∀ next more, behind ≠ .text next :: more) ∧
      ∀ c rest, c :: rest <:+ run → IsText c (rest ++ behind.flatMap write) := by
  constructor
  · exact fun h => ⟨h.ne_nil, h.apart, fun c rest => h.isText⟩
  · rintro ⟨hNonempty, hApart, hText⟩
    have hMem : ∀ c ∈ run, ∃ rest, IsText c (rest ++ behind.flatMap write) := by
      intro c hc
      obtain ⟨front, rest, rfl⟩ := List.append_of_mem hc
      exact ⟨rest, hText c rest (List.suffix_append ..)⟩
    refine ⟨hNonempty, hApart, fun hc => ?_, fun hc => ?_, fun hc => ?_, ?_, ?_⟩
    · obtain ⟨rest, hLeft⟩ := hMem _ hc
      exact hLeft.left rfl
    · obtain ⟨rest, hRight⟩ := hMem _ hc
      exact hRight.right rfl
    · obtain ⟨rest, hColon⟩ := hMem _ hc
      exact hColon.colon rfl
    · rintro ⟨front, rest, rfl⟩
      exact (hText '$' ('$' :: rest) ⟨front, by simp⟩).dollar rfl _ rfl
    · rintro hDollar c rest hBehind
      have hEnd := hText '$' [] hDollar
      rw [List.nil_append, hBehind] at hEnd
      constructor
      · rintro rfl
        exact hEnd.dollar rfl _ rfl
      · rintro rfl
        exact hEnd.opening rfl _ rfl

/-- A character that makes no token may be put in front of such characters. -/
theorem isTextBefore_cons {c : Char} (hText : IsText c (run ++ behind.flatMap write))
    (hApart : ∀ next more, behind ≠ .text next :: more)
    (hRun : ∀ d rest, d :: rest <:+ run → IsText d (rest ++ behind.flatMap write)) :
    IsTextBefore (c :: run) behind := by
  refine isTextBefore_iff.2 ⟨List.cons_ne_nil c run, hApart, fun d rest hRest => ?_⟩
  rcases List.suffix_cons_iff.1 hRest with hHere | hLater
  · cases hHere
    exact hText
  · exact hRun d rest hLater

end

-- ---------------------------------------------------------------------------
-- Such tokens are found again
-- ---------------------------------------------------------------------------

/-- The text that characters make, if there are any. -/
def ofRun : List Char → List TemplateToken
  | [] => []
  | c :: run => [text (c :: run)]

section

variable {run rest : List Char} {tokens : List TemplateToken}

/-- Characters that make no token are read one by one. -/
theorem scan_append_of_isText (h : ∀ c more, c :: more <:+ run → IsText c (more ++ rest)) :
    scan (run ++ rest) = run.foldr consTextChar (scan rest) := by
  induction run with
  | nil => rfl
  | cons c run ih =>
    have hRun : scan (run ++ rest) = run.foldr consTextChar (scan rest) :=
      ih fun d more hMore => h d more (hMore.trans (List.suffix_cons c run))
    rw [List.cons_append, (h c run List.suffix_rfl).scan_eq, hRun, List.foldr_cons]

/-- What is read one by one becomes one text, if there is no text to become part of. -/
theorem foldr_consTextChar (h : ∀ next more, tokens ≠ .text next :: more) (run : List Char) :
    run.foldr consTextChar tokens = ofRun run ++ tokens := by
  induction run with
  | nil => rfl
  | cons c run ih =>
    rw [List.foldr_cons, ih]
    cases run with
    | cons d run => rfl
    | nil =>
      rw [ofRun, ofRun, List.nil_append, consTextChar.eq_def]
      split
      · exact absurd rfl (h _ _)
      · rfl

end

/-- **Tokens with texts as they should be are found again** in what they write. -/
theorem scan_flatMap_write {tokens : List TemplateToken}
    (h : ∀ run behind, .text run :: behind <:+ tokens → IsTextBefore run behind) :
    scan (tokens.flatMap write) = tokens := by
  induction tokens with
  | nil => rfl
  | cons token behind ih =>
    have hBehind : scan (behind.flatMap write) = behind :=
      ih fun run more hMore => h run more (hMore.trans (List.suffix_cons token behind))
    rw [List.flatMap_cons]
    cases token with
    | text run =>
      have hText : IsTextBefore run behind := h run behind List.suffix_rfl
      obtain ⟨c, more, rfl⟩ := List.exists_cons_of_ne_nil hText.ne_nil
      rw [write, scan_append_of_isText fun d rest => hText.isText, hBehind,
        foldr_consTextChar hText.apart]
      rfl
    | _ => exact congrArg _ hBehind

-- ---------------------------------------------------------------------------
-- The scan finds such tokens
-- ---------------------------------------------------------------------------

theorem flatMap_write_consTextChar (c : Char) (tokens : List TemplateToken) :
    (consTextChar c tokens).flatMap write = c :: tokens.flatMap write := by
  rw [consTextChar.eq_def]
  split <;> rfl

/-- A delimiter adds its characters, and no text. -/
theorem IsTokenization.cons {chars : List Char} {tokens : List TemplateToken}
    (h : IsTokenization chars tokens) (d : Delimiter) :
    IsTokenization (d.token.write ++ chars) (d.token :: tokens) where
  written := by rw [List.flatMap_cons, h.written]
  texts run behind hRun := by
    rcases List.suffix_cons_iff.1 hRun with hHere | hLater
    · exact absurd (List.cons.inj hHere).1.symm (d.token_ne_text run)
    · exact h.texts run behind hLater

/-- One more character makes a text longer, or makes a text. -/
theorem isTextBefore_of_consTextChar {c : Char} {tokens : List TemplateToken}
    (hText : IsText c (tokens.flatMap write))
    (h : ∀ run behind, .text run :: behind <:+ tokens → IsTextBefore run behind)
    {run : List Char} {behind : List TemplateToken}
    (hRun : .text run :: behind <:+ consTextChar c tokens) : IsTextBefore run behind := by
  rw [consTextChar.eq_def] at hRun
  split at hRun
  · rename_i chars rest
    rcases List.suffix_cons_iff.1 hRun with hHere | hLater
    · cases hHere
      have hChars : IsTextBefore chars behind := h chars behind List.suffix_rfl
      exact isTextBefore_cons hText hChars.apart fun d more => hChars.isText
    · exact h run behind (hLater.trans (List.suffix_cons _ _))
  · rename_i hApart
    rcases List.suffix_cons_iff.1 hRun with hHere | hLater
    · cases hHere
      exact isTextBefore_cons hText hApart fun d more hMore => by cases List.suffix_nil.1 hMore
    · exact h run behind hLater

/-- **The scan loses nothing, and its texts are as they should be.** -/
theorem isTokenization_scan (chars : List Char) : IsTokenization chars (scan chars) := by
  induction chars using scan_induction with
  | nil => exact ⟨rfl, fun run behind hRun => by cases List.suffix_nil.1 hRun⟩
  | delimiter d rest ih => exact d.scan_write rest ▸ ih.cons d
  | text c rest hText ih =>
    rw [hText.scan_eq]
    refine ⟨by rw [flatMap_write_consTextChar, ih.written], fun run behind => ?_⟩
    rw [← ih.written] at hText
    exact isTextBefore_of_consTextChar hText ih.texts

/-- There is one tokenization, the one that the scan finds. -/
theorem isTokenization_iff {chars : List Char} {tokens : List TemplateToken} :
    IsTokenization chars tokens ↔ tokens = scan chars := by
  constructor
  · rintro ⟨rfl, hTexts⟩
    exact (scan_flatMap_write hTexts).symm
  · rintro rfl
    exact isTokenization_scan chars

end TemplateToken

end LayeredConfig
