import LayeredConfig.Proofs.ResolverCalls
import LayeredConfig.Proofs.Termination

/-!
# LayeredConfig — texts without references

A text in which no reference opens is literal: interpolating it gives the characters
that its tokens stand for, and asks nobody. So a tree of such texts is expanded without a
call of any resolver, and each text keeps its origin.

To escape a text is to double its dollar signs. The scan takes the signs in pairs then,
whatever follows them, and finds no opening. An escaped text is literal, and stands for
the text itself.

* `Template.IsLiteral`, `Template.literalText` — texts without references, and what they
  stand for.
* `Template.interpolate_of_isLiteral` — nobody is asked about a literal text.
* `Template.escape`                   — a text with its dollar signs doubled.
* `Value.expand_of_isLiteral`         — expanding literal texts.
* `Value.expand_escaped`              — expansion undoes escaping.
-/

namespace LayeredConfig

open Eval History

namespace Template

open TemplateToken

-- ---------------------------------------------------------------------------
-- Literal texts
-- ---------------------------------------------------------------------------

/-- No reference opens in the text. -/
def IsLiteral (text : String) : Prop := .opening ∉ scan text.toList

instance (text : String) : Decidable (IsLiteral text) :=
  inferInstanceAs (Decidable (¬ _))

/-- What the tokens of a text stand for outside references. -/
def literalText (text : String) : String :=
  String.ofList ((scan text.toList).flatMap literal)

theorem step_of_ne_opening {token : TemplateToken} (h : token ≠ .opening) (parts : List Part) :
    Builder.step ⟨parts, []⟩ token = ⟨Builder.addLiteral token.literal parts, []⟩ := by
  cases token with
  | opening => exact absurd rfl h
  | _ => rfl

/-- Without an opening all tokens go on with one literal. -/
theorem foldl_step_of_literal {tokens : List TemplateToken} (h : .opening ∉ tokens)
    (before : List Char) : tokens.foldl Builder.step ⟨[.literal before], []⟩ =
      ⟨[.literal (before ++ tokens.flatMap literal)], []⟩ := by
  induction tokens generalizing before with
  | nil => rw [List.foldl_nil, List.flatMap_nil, List.append_nil]
  | cons token rest ih =>
    rw [List.foldl_cons, step_of_ne_opening (List.ne_of_not_mem_cons h).symm, Builder.addLiteral,
      ih (List.not_mem_of_not_mem_cons h), List.flatMap_cons, List.append_assoc]

/-- A literal text is one literal, or nothing at all. -/
theorem parse_of_isLiteral {text : String} (h : IsLiteral text) :
    parse text = .ok [.literal (literalText text).toList] ∨
      (parse text = .ok [] ∧ literalText text = "") := by
  rw [IsLiteral] at h
  rw [parse, ofTokens, literalText, String.toList_ofList]
  cases hScan : scan text.toList with
  | nil => exact .inr ⟨rfl, rfl⟩
  | cons token rest =>
    left
    rw [hScan] at h
    rw [List.foldl_cons, Builder.empty, step_of_ne_opening (List.ne_of_not_mem_cons h).symm,
      Builder.addLiteral, foldl_step_of_literal (List.not_mem_of_not_mem_cons h)]
    · rfl
    · intro before parts hNil
      cases hNil

/-- Nobody is asked about a literal text. -/
theorem interpolate_of_isLiteral {text : String} (h : IsLiteral text)
    (resolvers : List (Resolver σ)) (subject : Option Text) :
    interpolate resolvers subject text = pure (Value.ofString (literalText text)) := by
  rcases parse_of_isLiteral h with hParse | ⟨hParse, hEmpty⟩
  · rw [interpolate, hParse]
    show (pure (Value.ofString (String.join [String.ofList (literalText text).toList])) :
      Eval σ Value) = _
    rw [String.ofList_toList, String.join, List.foldl_cons, List.foldl_nil, String.empty_append]
  · rw [interpolate, hParse, hEmpty]
    rfl

-- ---------------------------------------------------------------------------
-- Escaping
-- ---------------------------------------------------------------------------

/-- The characters with each dollar sign doubled. -/
def escapeChars (chars : List Char) : List Char :=
  chars.flatMap fun c => if c = '$' then [c, c] else [c]

/-- The text with each dollar sign doubled. -/
def escape (text : String) : String := String.ofList (escapeChars text.toList)

theorem escapeChars_cons_of_ne {c : Char} (h : c ≠ '$') (rest : List Char) :
    escapeChars (c :: rest) = c :: escapeChars rest := by
  rw [escapeChars, List.flatMap_cons, if_neg h]
  rfl

theorem opening_not_mem_cons {token : TemplateToken} (h : token ≠ .opening)
    {tokens : List TemplateToken} (hTokens : .opening ∉ tokens) : .opening ∉ token :: tokens :=
  List.not_mem_cons_of_ne_of_not_mem h.symm hTokens

theorem opening_not_mem_consTextChar {tokens : List TemplateToken} (h : .opening ∉ tokens)
    (c : Char) : .opening ∉ consTextChar c tokens := by
  rw [consTextChar.eq_def]
  split
  · exact opening_not_mem_cons (fun hEq => by cases hEq) (List.not_mem_of_not_mem_cons h)
  · exact opening_not_mem_cons (fun hEq => by cases hEq) h

theorem literals_consTextChar (c : Char) (tokens : List TemplateToken) :
    (consTextChar c tokens).flatMap literal = c :: tokens.flatMap literal := by
  rw [consTextChar.eq_def]
  split <;> rfl

/-- A character that is no dollar sign is not the beginning of an opening, and stands for
itself. -/
theorem scan_cons_of_ne_dollar {c : Char} (h : c ≠ '$') (rest : List Char) :
    (.opening ∉ scan rest → .opening ∉ scan (c :: rest)) ∧
      (scan (c :: rest)).flatMap literal = c :: (scan rest).flatMap literal := by
  by_cases hMark : c ∈ marks
  · simp only [marks, List.mem_cons, List.not_mem_nil, or_false] at hMark
    rcases hMark with rfl | rfl | rfl | rfl
    · exact absurd rfl h
    all_goals exact ⟨opening_not_mem_cons (by decide), rfl⟩
  · rw [scan_cons hMark]
    exact ⟨fun hRest => opening_not_mem_consTextChar hRest c, literals_consTextChar c _⟩

/-- The signs of an escaped text are read in pairs, whatever follows them. -/
theorem scan_escapeChars (chars : List Char) :
    .opening ∉ scan (escapeChars chars) ∧ (scan (escapeChars chars)).flatMap literal = chars := by
  induction chars with
  | nil => exact ⟨List.not_mem_nil, rfl⟩
  | cons c rest ih =>
    obtain ⟨hOpening, hLiterals⟩ := ih
    by_cases hc : c = '$'
    · subst hc
      have hScan : scan (escapeChars ('$' :: rest)) = .dollar :: scan (escapeChars rest) := rfl
      rw [hScan, List.flatMap_cons, hLiterals]
      exact ⟨opening_not_mem_cons (by decide) hOpening, rfl⟩
    · obtain ⟨hNone, hChar⟩ := scan_cons_of_ne_dollar hc (escapeChars rest)
      rw [escapeChars_cons_of_ne hc, hChar, hLiterals]
      exact ⟨hNone hOpening, rfl⟩

theorem isLiteral_escape (text : String) : IsLiteral (escape text) := by
  rw [IsLiteral, escape, String.toList_ofList]
  exact (scan_escapeChars text.toList).1

/-- In a run of signs the pairs are counted from the left. -/
example : ¬ IsLiteral "$$$\x7b" ∧ IsLiteral "$$$$\x7b" := by decide

theorem literalText_escape (text : String) : literalText (escape text) = text := by
  rw [literalText, escape, String.toList_ofList, (scan_escapeChars text.toList).2,
    String.ofList_toList]

theorem interpolate_escape (resolvers : List (Resolver σ)) (subject : Option Text)
    (text : String) : interpolate resolvers subject (escape text) = pure (Value.ofString text) := by
  rw [interpolate_of_isLiteral (isLiteral_escape text), literalText_escape]

end Template

-- ---------------------------------------------------------------------------
-- Trees of texts
-- ---------------------------------------------------------------------------

/-- The scalar with other characters, where it is a text. -/
def Scalar.mapText (f : String → String) : Scalar → Scalar
  | text t => text (t.withText (f t.text))
  | s => s

namespace Value

open LayeredConfig.Tree

/-- The value with the characters of its texts changed; their origins stay. -/
def mapTexts (f : String → String) (v : Value) : Value := v.map (Scalar.mapText f)

theorem mem_texts_mapTexts {f : String → String} {v : Value} {t : Text}
    (h : t ∈ (v.mapTexts f).texts) : ∃ raw ∈ v.texts, t = raw.withText (f raw.text) := by
  rw [texts, mapTexts, leaves_map, List.filterMap_map, List.mem_filterMap] at h
  obtain ⟨s, hs, hText⟩ := h
  cases s with
  | text raw =>
    cases hText
    exact ⟨raw, List.mem_filterMap.2 ⟨_, hs, rfl⟩, rfl⟩
  | _ => cases hText

theorem mapTexts_mapTexts {f g : String → String} (h : ∀ text, f (g text) = text) (v : Value) :
    (v.mapTexts g).mapTexts f = v := by
  have hScalar : (fun s => Scalar.mapText f (Scalar.mapText g s)) = fun s => s := by
    funext s
    cases s with
    | text t =>
      show Scalar.text (t.withText (f (g t.text))) = Scalar.text t
      rw [h]
      rfl
    | _ => rfl
  rw [mapTexts, mapTexts, map_map, hScalar, map_id]

end Value

namespace Draft

open Template
open LayeredConfig.Tree (graft)

/-- What a cell stands for when its text is literal. -/
def literalCell : Cell → Value
  | .known s => .leaf s
  | .deferred leaf => .leaf (.text (leaf.raw.withText (literalText leaf.raw.text)))

theorem graft_literalCell_ofValueAt (location : Location) (v : Value) :
    graft literalCell (ofValueAt location v) = v.mapTexts literalText := by
  rw [Value.mapTexts, ← Tree.graft_leaf]
  exact graft_ofValueAt (fun _ s => by cases s <;> rfl) location v

end Draft

-- ---------------------------------------------------------------------------
-- Expansion
-- ---------------------------------------------------------------------------

namespace Expansion

open Draft Template

/-- Couples sessions of one client, the first of which has resolved no leaf of a draft to
anything but what its text stands for, and evaluates none. -/
def literally (σ : Type) (root : Draft) : Coupling (Session σ) (Session σ) :=
  Coupling.throughout fun s t => s.client = t.client ∧ ∀ leaf ∈ root.deferredLeaves,
    s.history.progress leaf.location = .pending ∨
      s.history.progress leaf.location = .resolved (literalCell (.deferred leaf))

section

variable {root : Draft}

/-- A leaf whose text is literal is resolved to what the text stands for, in one step. -/
theorem coupled_request_of_literal (hDistinct : root.Distinct) {leaf : Leaf}
    (hLeaf : leaf ∈ root.deferredLeaves) (trigger : Option Location) :
    Coupled (literally σ root)
      (request (pure (Value.ofString (literalText leaf.raw.text))) trigger leaf)
      (pure (literalCell (.deferred leaf))) := by
  refine coupled_throughout_iff.2 ?_
  rintro s t ⟨hClient, hLeaves⟩
  rcases hLeaves leaf hLeaf with hPending | hResolved
  · rw [run_request_of_pending hPending, run_evaluate_of_ok (run_pure _ _)]
    refine ⟨rfl, hClient, fun other hOther => ?_⟩
    by_cases hSame : leaf.location = other.location
    · cases hDistinct leaf hLeaf other hOther hSame
      exact .inr (progress_cons_self _ _ _)
    · -- neither the start nor the end of the evaluation is an event of another leaf
      have hKept : ∀ p p' : Progress, progress
          ((leaf.location, p) :: (leaf.location, p') :: s.history) other.location =
            s.history.progress other.location :=
        fun p p' => (progress_cons_of_ne hSame p _).trans (progress_cons_of_ne hSame p' _)
      have hOther := hLeaves other hOther
      rw [← hKept] at hOther
      exact hOther
  · rw [run_request_of_resolved hResolved]
    exact ⟨rfl, hClient, hLeaves⟩

theorem complete_literalCell (d : Draft) :
    complete (fun leaf => (pure (literalCell (.deferred leaf)) : Eval (Session σ) Value)) d =
      pure (Tree.graft literalCell d) := by
  have hCell : completeCell (fun leaf => (pure (literalCell (.deferred leaf)) :
      Eval (Session σ) Value)) = fun cell => Tree.graftM (fun s => pure (.leaf s))
        (literalCell cell) := by
    funext cell
    rw [Tree.graftM_pure]
    cases cell <;> rfl
  rw [complete, hCell, ← Tree.graftM_graft, Tree.graftM_pure]

/-- Where each leaf is literal the whole draft is, and the client is not asked. -/
theorem run_complete_of_literal (hDistinct : root.Distinct) {resolveLeaf : LeafResolver σ}
    (h : ∀ leaf ∈ root.deferredLeaves, resolveLeaf leaf =
      request (pure (Value.ofString (literalText leaf.raw.text))) none leaf) (c : σ) :
    ∃ history, (complete resolveLeaf root).run (Session.start c) =
      (.ok (Tree.graft literalCell root), ⟨history, c⟩) := by
  have hCoupled : Coupled (literally σ root) (complete resolveLeaf root)
      (pure (Tree.graft literalCell root)) := by
    rw [← complete_literalCell]
    refine coupled_complete fun leaf hLeaf => ?_
    rw [h leaf hLeaf]
    exact coupled_request_of_literal hDistinct hLeaf none
  obtain ⟨hSame, hClient, -⟩ := coupled_throughout_iff.1 hCoupled (Session.start c)
    (Session.start c) ⟨rfl, fun _ _ => .inl rfl⟩
  refine ⟨((complete resolveLeaf root).run (Session.start c)).2.history, ?_⟩
  exact Prod.ext hSame (congrArg (Session.mk _) hClient)

end

section

variable {root : Draft} {leaf : Leaf}

/-- A literal leaf needs no lookup, and no level of the recursion but its own. -/
theorem resolveBy_of_isLiteral (chains : Chains σ) (hLeaf : leaf ∈ root.deferredLeaves)
    (h : IsLiteral leaf.raw.text) (trigger : Option Location) :
    resolveBy chains root root.deferredLeaves.length trigger leaf =
      request (pure (Value.ofString (literalText leaf.raw.text))) trigger leaf := by
  obtain ⟨depth, hDepth⟩ := Nat.exists_eq_add_one.2 (List.length_pos_of_mem hLeaf)
  rw [hDepth, resolveBy]
  simp only [interpolate_of_isLiteral h]

end

end Expansion

namespace Value

open Expansion Template

theorem isLiteral_of_mem_deferredLeaves {t : Value} (h : ∀ raw ∈ t.texts, IsLiteral raw.text)
    {leaf : Leaf} (hLeaf : leaf ∈ (Draft.ofValue t).deferredLeaves) : IsLiteral leaf.raw.text := by
  refine h leaf.raw ?_
  rw [← Draft.raws_ofValueAt [] t]
  exact List.mem_map_of_mem hLeaf

/-- A tree of literal texts is expanded without a call of any resolver. -/
theorem expand_of_isLiteral {t : Value} (ht : t.WellFormed)
    (hLiteral : ∀ raw ∈ t.texts, IsLiteral raw.text) (rules : ExpansionRules σ) (c : σ) :
    (t.expand rules).run c = (.ok (t.mapTexts literalText), c) ∧
      (Expansion.ofValue t rules).resolverCalls [.all] c = [] := by
  have hDistinct := Draft.distinct_ofValue ht
  have hValue : Tree.graft Draft.literalCell (Draft.ofValue t) = t.mapTexts literalText :=
    Draft.graft_literalCell_ofValueAt [] t
  -- the calls kept are part of the client's state, and that stays as it is
  obtain ⟨history, hRun⟩ := run_complete_of_literal hDistinct
    (fun leaf hLeaf => resolveBy_of_isLiteral (placedChain rules) hLeaf
      (isLiteral_of_mem_deferredLeaves hLiteral hLeaf) none) (c, [])
  have hPlaced : ((Expansion.ofValue t rules).placedAnswer .all).run (Session.start (c, [])) =
      (.ok (some (t.mapTexts literalText)), ⟨history, (c, [])⟩) :=
    run_map_eq_ok.2 ⟨_, hValue ▸ hRun, rfl⟩
  refine ⟨run_expand_eq_ok.2 ⟨⟨history, c⟩, ?_, rfl⟩, ?_⟩
  · have hSame := run_placedAnswer (Expansion.ofValue t rules) .all (Session.start c)
    rcases hPlain : ((Expansion.ofValue t rules).answer .all).run (Session.start c)
      with ⟨r, history', c'⟩
    rw [hPlain] at hSame
    have hBoth := hPlaced.symm.trans hSame
    simp only [Prod.mk.injEq, Session.mk.injEq] at hBoth
    obtain ⟨rfl, rfl, rfl, -⟩ := hBoth
    rfl
  · rw [resolverCalls, placedAfter, hPlaced]
    rfl

/-- **Expansion undoes escaping.** An escaped text is interpolated to the text itself,
whatever the resolvers are. A tree all of whose texts are escaped is expanded to the tree
itself, with the origins of its texts, under all rules; no resolver is called, and the
client's state stays as it is. -/
theorem expand_escaped (resolvers : List (Resolver σ)) (subject : Option Text) (text : String)
    {t : Value} (ht : t.WellFormed) (rules : ExpansionRules σ) (c : σ) :
    interpolate resolvers subject (escape text) = pure (ofString text) ∧
    ((t.mapTexts escape).expand rules).run c = (.ok t, c) ∧
    (Expansion.ofValue (t.mapTexts escape) rules).resolverCalls [.all] c = [] := by
  have hLiteral : ∀ raw ∈ (t.mapTexts escape).texts, IsLiteral raw.text := by
    intro raw hRaw
    obtain ⟨plain, -, rfl⟩ := mem_texts_mapTexts hRaw
    exact isLiteral_escape plain.text
  have hExpand := expand_of_isLiteral (Tree.wellFormed_map _ ht) hLiteral rules c
  rw [← mapTexts, mapTexts_mapTexts literalText_escape] at hExpand
  exact ⟨interpolate_escape resolvers subject text, hExpand⟩

/-- Answers everything, and counts the calls. -/
def counting : Resolver Nat := fun _ count => (.ok (some (ofString "answer")), count + 1)

def countingRules : ExpansionRules Nat :=
  { resolvers := [counting]
    defaultResolvers := [counting]
    expandVars := true
    expandEnv := true
    allowUndefined := false
    env := some }

/-- A reference with another one in it, runs of dollar signs, and a text with an origin. -/
def dollarTexts : Value :=
  .table [("a", .leaf (.text ⟨"$\x7bx:$\x7by\x7d\x7d", some "/etc"⟩)),
    ("b", .seq [.leaf (.text ⟨"$$$", none⟩), .leaf .null, .leaf (.text ⟨"$$\x7b\x7d:$", none⟩)])]

theorem expand_escaped_of_dollars :
    interpolate [counting] none (escape "$$$\x7b") = pure (ofString "$$$\x7b") ∧
      ((dollarTexts.mapTexts escape).expand countingRules).run 0 = (.ok dollarTexts, 0) ∧
      (Expansion.ofValue (dollarTexts.mapTexts escape) countingRules).resolverCalls [.all] 0 = [] ∧
      ((dollarTexts.expand countingRules).run 0).2 = 2 := by
  have hOrdered : dollarTexts.WellFormed :=
    ⟨by decide, trivial, ⟨trivial, trivial, trivial, trivial⟩, trivial⟩
  -- the tree as it is has a reference within a reference, for each of which the client is asked
  have hPlain : ((dollarTexts.expand countingRules).run 0).2 = 2 := by decide +kernel
  obtain ⟨hText, hTree, hCalls⟩ :=
    expand_escaped [counting] none "$$$\x7b" hOrdered countingRules 0
  exact ⟨hText, hTree, hCalls, hPlain⟩

end Value

end LayeredConfig
