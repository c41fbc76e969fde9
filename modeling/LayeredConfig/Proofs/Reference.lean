import LayeredConfig.Proofs.PlainPath
import LayeredConfig.Proofs.Template

/-!
# LayeredConfig — references in a text

A text may hold references among other things. One that stands outside all others
is a part of the template that the text writes, and whoever evaluates the template
looks it up.

* `Text.RefersTo`              — a text has a reference to a plain path, outside others.
* `Template.mem_of_refersTo`   — then the template has it.
* `Template.exists_lookup_of_eval` — a template with a value has looked up its parts.
-/

namespace LayeredConfig

open Eval

-- ---------------------------------------------------------------------------
-- Nesting
-- ---------------------------------------------------------------------------

namespace TemplateToken

/-- How many references are open behind a token, if `depth` are open in front of it. -/
def nest (depth : Nat) : TemplateToken → Nat
  | opening => depth + 1
  | leftBrace => if depth = 0 then 0 else depth + 1
  | rightBrace => depth - 1
  | _ => depth

end TemplateToken

/-- The text has a reference to the path that is not nested in another one. -/
def Text.RefersTo (raw : Text) (path : KeyPath) : Prop :=
  ∃ before after : List TemplateToken,
    TemplateToken.scan raw.text.toList =
      before ++ [.opening, .text path.toString.toList, .rightBrace] ++ after ∧
    before.foldl TemplateToken.nest 0 = 0

namespace Template

namespace Builder

theorem length_bodies_step (b : Builder) (token : TemplateToken) :
    (b.step token).bodies.length = token.nest b.bodies.length := by
  obtain ⟨parts, bodies⟩ := b
  cases bodies with
  | nil => cases token <;> rfl
  | cons body outer =>
    cases token with
    | rightBrace => cases outer <;> rfl
    | _ => rfl

theorem length_bodies_foldl (tokens : List TemplateToken) (b : Builder) :
    (tokens.foldl step b).bodies.length = tokens.foldl TemplateToken.nest b.bodies.length := by
  induction tokens generalizing b with
  | nil => rfl
  | cons token rest ih => rw [List.foldl_cons, List.foldl_cons, ih, length_bodies_step]

/-- A reference once closed stays a part. -/
theorem mem_parts_step {b : Builder} {body : List Piece} (h : .reference body ∈ b.parts)
    (token : TemplateToken) : .reference body ∈ (b.step token).parts := by
  obtain ⟨parts, bodies⟩ := b
  have hLiteral : ∀ chars, .reference body ∈ addLiteral chars parts := by
    intro chars
    rw [addLiteral.eq_def]
    split
    · rcases List.mem_cons.1 h with hSame | hRest
      · cases hSame
      · exact List.mem_cons_of_mem _ hRest
    · exact List.mem_cons_of_mem _ h
  cases bodies with
  | nil =>
    cases token with
    | opening => exact h
    | _ => exact hLiteral _
  | cons inner outer =>
    cases token with
    | rightBrace =>
      cases outer with
      | nil => exact List.mem_cons_of_mem _ h
      | cons _ _ => exact h
    | _ => exact h

theorem mem_parts_foldl {tokens : List TemplateToken} {b : Builder} {body : List Piece}
    (h : .reference body ∈ b.parts) : .reference body ∈ (tokens.foldl step b).parts := by
  induction tokens generalizing b with
  | nil => exact h
  | cons token rest ih => exact ih (mem_parts_step h token)

end Builder

theorem mem_of_refersTo {raw : Text} {path : KeyPath} (h : raw.RefersTo path)
    {template : Template} (hParse : parse raw.text = .ok template) :
    .reference [.text path.toString.toList] ∈ template := by
  obtain ⟨before, after, hTokens, hOutside⟩ := h
  -- in front of the reference no body is open, so it becomes a part
  obtain ⟨parts, hBefore⟩ : ∃ parts, before.foldl Builder.step Builder.empty = ⟨parts, []⟩ := by
    have hLength := Builder.length_bodies_foldl before Builder.empty
    rcases hFold : before.foldl Builder.step Builder.empty with ⟨parts, bodies⟩
    rw [hFold] at hLength
    have hNone : bodies = [] := List.eq_nil_of_length_eq_zero (hLength.trans hOutside)
    exact ⟨parts, by rw [hNone]⟩
  rw [parse, ofTokens, hTokens, List.foldl_append, List.foldl_append, hBefore,
    Builder.finish] at hParse
  split at hParse
  · cases hParse
    exact List.mem_reverse.2 (Builder.mem_parts_foldl List.mem_cons_self)
  · cases hParse

-- ---------------------------------------------------------------------------
-- Evaluation
-- ---------------------------------------------------------------------------

section

variable {ask : Resolver σ} {subject : Option Text} {body : List Piece} {s s' : σ}

theorem exists_lookup_of_evalParts {template : Template} {texts : List String}
    (hPart : .reference body ∈ template)
    (hRun : (evalParts ask subject template).run s = (.ok texts, s')) :
    ∃ s₁ o s₂, (lookup ask subject body).run s₁ = (.ok o, s₂) ∧
      ∀ I : σ → Prop, (∀ request, (ask request).Keeps I) → I s₂ → I s' := by
  induction template generalizing s texts with
  | nil => cases hPart
  | cons part rest ih =>
    rw [evalParts, run_bind_eq_ok] at hRun
    obtain ⟨text, s₁, hFirst, hRest⟩ := hRun
    rw [run_bind_eq_ok] at hRest
    obtain ⟨more, s₂, hMore, hEnd⟩ := hRest
    cases hEnd
    rcases List.mem_cons.1 hPart with rfl | hPart
    · rw [evalPart, run_bind_eq_ok] at hFirst
      obtain ⟨o, s₃, hLookup, hEnd⟩ := hFirst
      cases hEnd
      refine ⟨s, o, s₁, hLookup, fun I hAsk hs => ?_⟩
      have hKeeps : (evalParts ask subject rest).Keeps I :=
        keeps_iff_coupled.2
          (coupled_evalParts (fun request => keeps_iff_coupled.1 (hAsk request)) rest)
      exact hKeeps.of_run hMore hs
    · exact ih hPart hMore

/-- What a template has looked up when it has a value, and that nothing is asked
afterwards but by the resolvers. -/
theorem exists_lookup_of_eval {template : Template} {v : Value}
    (hPart : .reference body ∈ template)
    (hRun : (eval ask subject template).run s = (.ok v, s')) :
    ∃ s₁ o s₂, (lookup ask subject body).run s₁ = (.ok o, s₂) ∧
      ∀ I : σ → Prop, (∀ request, (ask request).Keeps I) → I s₂ → I s' := by
  rw [eval.eq_def] at hRun
  split at hRun
  · rw [run_bind_eq_ok] at hRun
    obtain ⟨o, s₁, hLookup, hEnd⟩ := hRun
    cases hEnd
    cases List.mem_singleton.1 hPart
    exact ⟨s, o, s', hLookup, fun _ _ hs => hs⟩
  · rw [run_bind_eq_ok] at hRun
    obtain ⟨texts, s₁, hParts, hEnd⟩ := hRun
    cases hEnd
    exact exists_lookup_of_evalParts hPart hParts

end

end Template

end LayeredConfig
