import LayeredConfig.Pattern.Reader
import LayeredConfig.Template.Evaluation
import LayeredConfig.Proofs.Evaluation
import Mathlib.Data.List.TakeDrop

/-!
# LayeredConfig — laws of interpolation

Interpolating a text only does what the resolvers do, in an order that their
answers determine. Two interpolations of one text are therefore coupled if their
resolvers are, one by one.

* `Template.coupled_interpolate`   — coupled resolvers, coupled interpolations.
* `Template.interpolate_reference` — a text that is a reference to a pattern asks
  for that pattern and for nothing else.
-/

namespace LayeredConfig

open Eval

-- ---------------------------------------------------------------------------
-- Text without marks
-- ---------------------------------------------------------------------------

/-- The characters that templates give a meaning to. -/
def TemplateToken.marks : List Char := ['$', '{', '}', ':']

theorem TemplateToken.scan_cons {c : Char} (h : c ∉ marks) (rest : List Char) :
    scan (c :: rest) = consTextChar c (scan rest) := by
  simp only [marks, List.mem_cons, List.not_mem_nil, or_false, not_or] at h
  obtain ⟨hDollar, hLeft, hRight, hColon⟩ := h
  rw [scan.eq_def]
  split
  all_goals first | rfl | simp_all

/-- Characters without a meaning of their own are read as one text. -/
theorem TemplateToken.scan_text {c : Char} {chars : List Char} (h : ∀ a ∈ c :: chars, a ∉ marks)
    {rest : List Char} (hRest : ∀ cs tokens, scan rest ≠ text cs :: tokens) :
    scan (c :: chars ++ rest) = text (c :: chars) :: scan rest := by
  induction chars generalizing c with
  | nil =>
    rw [List.cons_append, scan_cons (h c List.mem_cons_self), List.nil_append]
    rw [consTextChar.eq_def]
    split
    · rename_i cs tokens hScan
      exact absurd hScan (hRest cs tokens)
    · rfl
  | cons a chars ih =>
    rw [List.cons_append, scan_cons (h c List.mem_cons_self),
      ih fun b hb => h b (List.mem_cons_of_mem _ hb)]
    rfl

theorem PatternToken.not_mem_marks_of_scan {chars : List Char} {tokens : List PatternToken}
    (h : scan chars = .ok tokens) : ∀ c ∈ chars, c ∉ TemplateToken.marks := by
  induction chars generalizing tokens with
  | nil => exact fun c hc => absurd hc List.not_mem_nil
  | cons c rest ih =>
    intro a ha hMark
    rw [scan] at h
    rcases List.mem_cons.1 ha with rfl | ha
    -- a mark of a template is no token of a pattern
    · simp only [TemplateToken.marks, List.mem_cons, List.not_mem_nil, or_false] at hMark
      rcases hMark with rfl | rfl | rfl | rfl <;> cases h
    · have hTail : ∃ more, scan rest = .ok more := by
        cases hRest : scan rest with
        | ok more => exact ⟨more, rfl⟩
        | error e =>
          rw [hRest] at h
          split at h
          · cases h
          · split at h <;> cases h
      obtain ⟨more, hMore⟩ := hTail
      exact ih hMore a ha hMark

theorem Pattern.chars_of_parse {spec : String} {pattern : Pattern}
    (h : Pattern.parse spec = .ok pattern) :
    ∃ c chars, spec.toList = c :: chars ∧ ∀ a ∈ c :: chars, a ∉ TemplateToken.marks := by
  rw [Pattern.parse] at h
  split at h
  · cases h
  · rename_i tokens hScan
    cases hChars : spec.toList with
    | nil =>
      rw [hChars] at hScan
      cases hScan
      cases h
    | cons c chars => exact ⟨c, chars, rfl, hChars ▸ PatternToken.not_mem_marks_of_scan hScan⟩

namespace Template

theorem eq_unclosedReference_of_parse {text : String} {e : ConfigError}
    (h : parse text = .error e) : e = .unclosedReference := by
  rw [parse, ofTokens, Builder.finish] at h
  split at h
  · cases h
  · cases h
    rfl

/-- A pattern between the marks of a reference is one reference to it. -/
theorem parse_reference {spec : String} {pattern : Pattern}
    (h : Pattern.parse spec = .ok pattern) :
    parse ("$\x7b" ++ spec ++ "\x7d") = .ok [.reference [.text spec.toList]] := by
  obtain ⟨c, chars, hChars, hPlain⟩ := Pattern.chars_of_parse h
  have hScan : TemplateToken.scan ("$\x7b" ++ spec ++ "\x7d").toList =
      [.opening, .text spec.toList, .rightBrace] := by
    rw [String.toList_append, String.toList_append, hChars]
    -- the opening is read first, and the closing brace ends the text
    show TemplateToken.opening :: TemplateToken.scan (c :: chars ++ ['}']) = _
    rw [TemplateToken.scan_text hPlain fun cs tokens hEq => by cases hEq]
    rfl
  rw [parse, hScan]
  rfl

/-- A body that is text asks for the text. -/
theorem lookup_text (ask : Resolver σ) (subject : Option Text) (spec : String) :
    lookup ask subject [.text spec.toList] = ask ⟨spec, none, subject⟩ := by
  have hRequest : Request.ofFragments [.text spec.toList] subject = ⟨spec, none, subject⟩ := by
    simp [Request.ofFragments, Fragment.renderAll, Fragment.render, Request.callOfFragments?,
      Fragment.isColon, List.span_eq_takeWhile_dropWhile, String.join]
  rw [lookup, evalPieces, evalPieces, evalPiece]
  simp only [pure_bind, hRequest]

theorem interpolate_of_parse {text : String} {template : Template} (h : parse text = .ok template)
    (resolvers : List (Resolver σ)) (subject : Option Text) :
    interpolate resolvers subject text = template.eval (Resolver.first resolvers) subject := by
  rw [interpolate, h]
  rfl

/-- A single reference is its value. -/
theorem eval_reference (ask : Resolver σ) (subject : Option Text) (body : List Piece) :
    eval ask subject [.reference body] =
      (fun found => found.getD (Value.ofString "")) <$> lookup ask subject body := by
  rw [map_eq_pure_bind]
  rfl

theorem interpolate_reference (resolvers : List (Resolver σ)) (subject : Option Text)
    {spec : String} {pattern : Pattern} (h : Pattern.parse spec = .ok pattern) :
    interpolate resolvers subject ("$\x7b" ++ spec ++ "\x7d") =
      (fun found => found.getD (Value.ofString "")) <$>
        Resolver.first resolvers ⟨spec, none, subject⟩ := by
  rw [interpolate_of_parse (parse_reference h), eval_reference, lookup_text]

end Template

-- ---------------------------------------------------------------------------
-- Chains
-- ---------------------------------------------------------------------------

/-- The resolvers at the same places of two chains are coupled. -/
abbrev Coupling.Chains (C : Coupling σ τ) (chain : List (Resolver σ)) (other : List (Resolver τ)) :
    Prop :=
  List.Forall₂ (fun r r' => ∀ request, Coupled C (r request) (r' request)) chain other

section

variable {C : Coupling σ τ}

/-- Chains that are coupled but for their ends are coupled if their ends are. -/
theorem Resolver.coupled_first_append {front back : List (Resolver σ)}
    {otherFront otherBack : List (Resolver τ)} (hFront : C.Chains front otherFront)
    {request : Request} (hBack : Coupled C (first back request) (first otherBack request)) :
    Coupled C (first (front ++ back) request) (first (otherFront ++ otherBack) request) := by
  induction hFront with
  | nil => exact hBack
  | cons hHead _ ih =>
    refine (hHead request).bind fun answer => ?_
    cases answer with
    | none => exact ih
    | some v => exact Coupled.pure (some v)

theorem Resolver.coupled_first {chain : List (Resolver σ)} {other : List (Resolver τ)}
    (h : C.Chains chain other) (request : Request) :
    Coupled C (first chain request) (first other request) := by
  have hEnd : Coupled C (first [] request) (first [] request) := Coupled.pure none
  rw [← List.append_nil chain, ← List.append_nil other]
  exact coupled_first_append h hEnd

namespace Template

-- ---------------------------------------------------------------------------
-- Interpolation
-- ---------------------------------------------------------------------------

section

variable {ask : Resolver σ} {otherAsk : Resolver τ} {subject : Option Text}

mutual

theorem coupled_evalPiece (h : ∀ request, Coupled C (ask request) (otherAsk request)) :
    ∀ piece : Piece, Coupled C (evalPiece ask subject piece) (evalPiece otherAsk subject piece)
  | .text chars => Coupled.pure (Fragment.text chars)
  | .colon => Coupled.pure Fragment.colon
  | .lookup body =>
    (coupled_evalPieces h body).bind fun fragments =>
      (h (.ofFragments fragments subject)).bind fun found => Coupled.pure (Fragment.value found)

theorem coupled_evalPieces (h : ∀ request, Coupled C (ask request) (otherAsk request)) :
    ∀ body : List Piece,
      Coupled C (evalPieces ask subject body) (evalPieces otherAsk subject body)
  | [] => Coupled.pure []
  | piece :: rest =>
    (coupled_evalPiece h piece).bind fun fragment =>
      (coupled_evalPieces h rest).bind fun fragments => Coupled.pure (fragment :: fragments)

end

theorem coupled_lookup (h : ∀ request, Coupled C (ask request) (otherAsk request))
    (body : List Piece) : Coupled C (lookup ask subject body) (lookup otherAsk subject body) :=
  (coupled_evalPieces h body).bind fun fragments => h (.ofFragments fragments subject)

theorem coupled_evalPart (h : ∀ request, Coupled C (ask request) (otherAsk request))
    (part : Part) : Coupled C (evalPart ask subject part) (evalPart otherAsk subject part) := by
  cases part with
  | literal chars => exact Coupled.pure (String.ofList chars)
  | reference body => exact (coupled_lookup h body).bind fun found => Coupled.pure _

theorem coupled_evalParts (h : ∀ request, Coupled C (ask request) (otherAsk request))
    (parts : Template) :
    Coupled C (evalParts ask subject parts) (evalParts otherAsk subject parts) := by
  induction parts with
  | nil => exact Coupled.pure []
  | cons part rest ih =>
    exact (coupled_evalPart h part).bind fun text =>
      ih.bind fun texts => Coupled.pure (text :: texts)

theorem coupled_eval (h : ∀ request, Coupled C (ask request) (otherAsk request))
    (parts : Template) : Coupled C (eval ask subject parts) (eval otherAsk subject parts) := by
  rw [eval.eq_def, eval.eq_def]
  split
  · exact (coupled_lookup h _).bind fun found => Coupled.pure _
  · exact (coupled_evalParts h parts).bind fun texts => Coupled.pure _

end

theorem coupled_interpolate {resolvers : List (Resolver σ)} {others : List (Resolver τ)}
    (h : C.Chains resolvers others) (subject : Option Text) (text : String) :
    Coupled C (interpolate resolvers subject text) (interpolate others subject text) :=
  (Coupled.ofExcept (parse text)).bind fun template =>
    coupled_eval (Resolver.coupled_first h) template

end Template

end

end LayeredConfig
