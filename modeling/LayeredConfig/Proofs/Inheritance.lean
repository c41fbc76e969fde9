import LayeredConfig.Proofs.Independence

/-!
# LayeredConfig — what evaluations inherit from their parts

Looking into a draft, completing it and interpolating a text only put evaluations in
sequence: those of the leaves, of the client's resolvers, and of what the library
resolves itself. A property that pure evaluations have, and sequences inherit from
their parts, is therefore a matter of these.

The property that is used here is about failing: an evaluation **fails only** as a
predicate of errors and states allows.

* `Eval.Inherited`  — properties that are inherited.
* `Eval.FailsOnly`  — an invariant, and what is known where an evaluation fails.
* `Expansion.inherited_valueAt`         — what looking patterns up inherits.
* `Expansion.inherited_answerBy`        — what calls inherit.
* `Template.inherited_interpolate`      — what interpolating inherits.
* `Expansion.inherited_interpolateLeaf` — what the chain of resolvers hands on.
-/

namespace LayeredConfig

open Eval History

namespace Eval

/-- What pure evaluations have, and what a sequence has if its first part has it and,
after each result that can give, so has the rest. -/
structure Inherited (P : ∀ α : Type, Eval σ α → Prop) : Prop where
  pure : ∀ {α : Type} (a : α), P α (pure a)
  bind : ∀ {α β : Type} {x : Eval σ α} {f : α → Eval σ β}, P α x →
    (∀ s a s', x.run s = (.ok a, s') → P β (f a)) → P β (x >>= f)

/-- Leads from states with `I` to states with `I`, and where it fails `E` holds of the
error and the state. -/
def FailsOnly (I : σ → Prop) (E : ConfigError → σ → Prop) (x : Eval σ α) : Prop :=
  ∀ s, I s → I (x.run s).2 ∧ ∀ e, (x.run s).1 = .error e → E e (x.run s).2

theorem inherited_failsOnly (I : σ → Prop) (E : ConfigError → σ → Prop) :
    Inherited (fun _ x => FailsOnly I E x) where
  pure a := by
    intro s hs
    exact ⟨hs, fun e he => by cases he⟩
  bind := by
    intro α β x f hx hf s hs
    have hFirst := hx s hs
    rcases hRun : x.run s with ⟨r, s₁⟩
    rw [hRun] at hFirst
    cases r with
    | ok a =>
      rw [run_bind_of_ok hRun]
      exact hf s a s₁ hRun s₁ hFirst.1
    | error e =>
      rw [run_bind_of_error hRun]
      refine ⟨hFirst.1, fun e' he' => ?_⟩
      cases he'
      exact hFirst.2 e rfl

theorem inherited_keeps (I : σ → Prop) : Inherited (fun _ (x : Eval σ _) => x.Keeps I) where
  pure := Keeps.pure
  bind := Keeps.bind_of_run

theorem FailsOnly.fail {I : σ → Prop} {E : ConfigError → σ → Prop} {e : ConfigError}
    (h : ∀ s, I s → E e s) : FailsOnly I E (fail e : Eval σ α) := by
  intro s hs
  refine ⟨hs, fun e' he' => ?_⟩
  cases he'
  exact h s hs

namespace Inherited

variable {P : ∀ α : Type, Eval σ α → Prop}

theorem map (hP : Inherited P) {x : Eval σ α} (hx : P α x) (f : α → β) : P β (f <$> x) := by
  rw [map_eq_pure_bind]
  exact hP.bind hx fun _ a _ _ => hP.pure (f a)

theorem mapM (hP : Inherited P) {f : α → Eval σ β} {items : List α}
    (h : ∀ a ∈ items, P β (f a)) : P (List β) (items.mapM f) := by
  induction items with
  | nil => exact hP.pure []
  | cons a rest ih =>
    rw [List.mapM_cons]
    refine hP.bind (h a List.mem_cons_self) fun _ b _ _ => ?_
    refine hP.bind (ih fun a' ha' => h a' (List.mem_cons_of_mem _ ha')) fun _ bs _ _ => ?_
    exact hP.pure (b :: bs)

theorem graftM (hP : Inherited P) {f : α → Eval σ (Tree β)} {t : Tree α}
    (h : ∀ c ∈ t.leaves, P (Tree β) (f c)) : P (Tree β) (t.graftM f) := by
  induction t using Tree.induction with
  | leaf a => exact h a (Tree.mem_leaves_leaf.2 rfl)
  | seq items ih =>
    rw [Tree.graftM_seq]
    refine hP.map (hP.mapM fun item hItem => ?_) _
    exact ih item hItem fun c hc => h c (Tree.mem_leaves_seq.2 ⟨item, hItem, hc⟩)
  | table entries ih =>
    rw [Tree.graftM_table]
    refine hP.map (hP.mapM fun entry hEntry => hP.map ?_ _) _
    exact ih entry hEntry fun c hc => h c (Tree.mem_leaves_table.2 ⟨entry, hEntry, hc⟩)

end Inherited

end Eval

-- ---------------------------------------------------------------------------
-- Looking into a draft
-- ---------------------------------------------------------------------------

namespace Expansion

open Draft

section

variable {P : ∀ α : Type, Eval (Session σ) α → Prop} {resolveLeaf : LeafResolver σ}
  {root d : Draft}

theorem inherited_complete (hP : Inherited P)
    (h : ∀ leaf ∈ d.deferredLeaves, P Value (resolveLeaf leaf)) :
    P Value (complete resolveLeaf d) := by
  refine hP.graftM fun cell hCell => ?_
  cases cell with
  | known s => exact hP.pure _
  | deferred leaf => exact h leaf (mem_deferredLeaves.2 hCell)

theorem inherited_follow (hP : Inherited P) {path : KeyPath}
    (h : ∀ leaf ∈ d.deferredLeaves, P Value (resolveLeaf leaf)) :
    P (Option Draft) (follow resolveLeaf path d) := by
  induction path, d using follow.induct with
  | case1 d => exact hP.pure (some d)
  | case2 segment rest leaf =>
    rw [follow_deferred]
    exact hP.map (h leaf (mem_deferredLeaves_leaf leaf)) _
  | case3 segment rest d hNot hChild =>
    rw [follow_of_child? hNot, hChild]
    exact hP.pure none
  | case4 segment rest d hNot below hChild ih =>
    rw [follow_of_child? hNot, hChild]
    exact ih fun leaf hLeaf => h leaf (mem_deferredLeaves_of_child? hChild leaf hLeaf)

theorem inherited_walk (hP : Inherited P) {pattern : Pattern}
    (h : ∀ leaf ∈ root.deferredLeaves, P Value (resolveLeaf leaf)) :
    P (List (Option Draft)) (walk resolveLeaf root pattern) := by
  rw [walk, Pattern.mapPaths_eq_mapM]
  refine hP.mapM fun path _ => ?_
  rw [find]
  split
  · exact hP.pure none
  · exact inherited_follow hP h

theorem inherited_valueAt (hP : Inherited P) (hHistory : P History Session.currentHistory)
    (h : ∀ leaf ∈ root.deferredLeaves, P Value (resolveLeaf leaf)) (pattern : Pattern) :
    P (Option Value) (valueAt resolveLeaf root pattern) := by
  rw [valueAt_eq]
  refine hP.bind (inherited_walk hP h) fun s found s' hWalk => ?_
  rw [mergeFound]
  refine hP.bind hHistory fun _ history _ _ => ?_
  cases hMerge : Tree.merge (found.map (Option.map (settle history.leafValue?))) with
  | none => exact hP.pure none
  | some d =>
    -- what was merged has leaves of the root only
    refine hP.map (inherited_complete hP fun leaf hLeaf => ?_) some
    obtain ⟨e, he, hIn⟩ := mem_deferredLeaves_of_merge hMerge hLeaf
    exact h leaf (mem_deferredLeaves_of_walk hWalk he leaf hIn)

theorem inherited_scope (hP : Inherited P) (hHistory : P History Session.currentHistory)
    (h : ∀ leaf ∈ root.deferredLeaves, P Value (resolveLeaf leaf)) (request : Request) :
    P (Option Value) (scope resolveLeaf root request) := by
  rw [scope]
  split
  · exact hP.pure none
  · cases Pattern.parse request.expression with
    | error reason => exact hP.pure none
    | ok pattern => exact inherited_valueAt hP hHistory h pattern

theorem inherited_answerBy (hP : Inherited P) (hHistory : P History Session.currentHistory)
    (hBad : ∀ reason, P (Option Value) (Eval.fail (.badPattern reason)))
    (h : ∀ leaf ∈ root.deferredLeaves, P Value (resolveLeaf leaf)) (query : Query) :
    P (Option Value) (answerBy resolveLeaf root query) := by
  cases query with
  | get spec =>
    rw [answerBy]
    cases Pattern.parse spec with
    | error reason => exact hBad reason
    | ok pattern => exact inherited_valueAt hP hHistory h pattern
  | all => exact hP.map (inherited_complete hP h) some

end

end Expansion

-- ---------------------------------------------------------------------------
-- Interpolating
-- ---------------------------------------------------------------------------

section

variable {P : ∀ α : Type, Eval σ α → Prop}

theorem Resolver.inherited_first (hP : Inherited P) {chain : List (Resolver σ)}
    (h : ∀ r ∈ chain, ∀ request, P (Option Value) (r request)) (request : Request) :
    P (Option Value) (first chain request) := by
  induction chain with
  | nil => exact hP.pure none
  | cons r rest ih =>
    rw [first]
    refine hP.bind (h r List.mem_cons_self request) fun _ answer _ _ => ?_
    cases answer with
    | none => exact ih fun r' hr' => h r' (List.mem_cons_of_mem _ hr')
    | some v => exact hP.pure (some v)

namespace Template

variable {ask : Resolver σ} {subject : Option Text}

mutual

theorem inherited_evalPiece (hP : Inherited P) (h : ∀ request, P (Option Value) (ask request)) :
    ∀ piece : Piece, P Fragment (evalPiece ask subject piece)
  | .text chars => hP.pure (Fragment.text chars)
  | .colon => hP.pure Fragment.colon
  | .lookup body =>
    hP.bind (inherited_evalPieces hP h body) fun _ fragments _ _ =>
      hP.bind (h (.ofFragments fragments subject)) fun _ found _ _ =>
        hP.pure (Fragment.value found)

theorem inherited_evalPieces (hP : Inherited P) (h : ∀ request, P (Option Value) (ask request)) :
    ∀ body : List Piece, P (List Fragment) (evalPieces ask subject body)
  | [] => hP.pure []
  | piece :: rest =>
    hP.bind (inherited_evalPiece hP h piece) fun _ fragment _ _ =>
      hP.bind (inherited_evalPieces hP h rest) fun _ fragments _ _ =>
        hP.pure (fragment :: fragments)

end

theorem inherited_lookup (hP : Inherited P) (h : ∀ request, P (Option Value) (ask request))
    (body : List Piece) : P (Option Value) (lookup ask subject body) :=
  hP.bind (inherited_evalPieces hP h body) fun _ fragments _ _ => h (.ofFragments fragments subject)

theorem inherited_evalParts (hP : Inherited P) (h : ∀ request, P (Option Value) (ask request))
    (parts : Template) : P (List String) (evalParts ask subject parts) := by
  induction parts with
  | nil => exact hP.pure []
  | cons part rest ih =>
    refine hP.bind ?_ fun _ text _ _ => hP.bind ih fun _ texts _ _ => hP.pure (text :: texts)
    cases part with
    | literal chars => exact hP.pure (String.ofList chars)
    | reference body => exact hP.bind (inherited_lookup hP h body) fun _ found _ _ => hP.pure _

theorem inherited_eval (hP : Inherited P) (h : ∀ request, P (Option Value) (ask request))
    (parts : Template) : P Value (eval ask subject parts) := by
  rw [eval.eq_def]
  split
  · exact hP.bind (inherited_lookup hP h _) fun _ found _ _ => hP.pure _
  · exact hP.bind (inherited_evalParts hP h _) fun _ texts _ _ => hP.pure _

theorem inherited_interpolate (hP : Inherited P) {resolvers : List (Resolver σ)}
    (h : ∀ r ∈ resolvers, ∀ request, P (Option Value) (r request)) {text : String}
    (hParse : P Template (Eval.ofExcept (parse text))) :
    P Value (interpolate resolvers subject text) :=
  hP.bind hParse fun _ template _ _ => inherited_eval hP (Resolver.inherited_first hP h) template

end Template

end

-- ---------------------------------------------------------------------------
-- The chain of resolvers
-- ---------------------------------------------------------------------------

namespace Expansion

variable {P : ∀ α : Type, Eval (Session σ) α → Prop} {rules : ExpansionRules σ}
  {scope : Resolver (Session σ)} {leaf : Leaf}

theorem inherited_chain (hP : Inherited P)
    (hClient : ∀ r ∈ rules.resolvers ++ rules.defaultResolvers, ∀ request,
      P (Option Value) (ofClient r request))
    (hScope : ∀ request, P (Option Value) (scope request))
    (hReject : ∀ request, P (Option Value) (Resolver.reject (some leaf.originPath) request)) :
    ∀ r ∈ chain rules scope leaf, ∀ request, P (Option Value) (r request) := by
  have hOne : ∀ {r : Resolver (Session σ)} (b : Bool), (∀ request, P (Option Value) (r request)) →
      ∀ r' ∈ (if b then [r] else []), ∀ request, P (Option Value) (r' request) := by
    intro r b hr r' hIn
    cases b with
    | false => cases hIn
    | true =>
      cases List.mem_singleton.1 hIn
      exact hr
  have hMap : ∀ resolvers : List (Resolver σ),
      (∀ r ∈ resolvers, r ∈ rules.resolvers ++ rules.defaultResolvers) →
        ∀ r' ∈ resolvers.map ofClient, ∀ request, P (Option Value) (r' request) := by
    intro resolvers hResolvers r' hIn
    obtain ⟨r, hr, rfl⟩ := List.mem_map.1 hIn
    exact hClient r (hResolvers r hr)
  intro r hr
  simp only [chain, List.mem_append] at hr
  rcases hr with (((((hr | hr) | hr) | hr) | hr) | hr) | hr
  · exact hMap _ (fun _ => List.mem_append_left _) r hr
  · cases List.mem_singleton.1 hr
    exact fun _ => hP.pure _
  · exact hOne _ (fun _ => hP.pure _) r hr
  · exact hOne _ hScope r hr
  · exact hOne _ (fun _ => hP.pure _) r hr
  · exact hMap _ (fun _ => List.mem_append_right _) r hr
  · split at hr
    · cases hr
    · cases List.mem_singleton.1 hr
      exact hReject

theorem inherited_interpolateLeaf (hP : Inherited P)
    (hClient : ∀ r ∈ rules.resolvers ++ rules.defaultResolvers, ∀ request,
      P (Option Value) (ofClient r request))
    (hScope : ∀ request, P (Option Value) (scope request))
    (hReject : ∀ request, P (Option Value) (Resolver.reject (some leaf.originPath) request))
    (hParse : P Template (Eval.ofExcept (Template.parse leaf.raw.text))) :
    P Value (interpolateLeaf rules scope leaf) :=
  Template.inherited_interpolate hP (inherited_chain hP hClient hScope hReject) hParse

end Expansion

end LayeredConfig
