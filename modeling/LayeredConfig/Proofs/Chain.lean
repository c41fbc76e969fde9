import LayeredConfig.Proofs.Resolution

/-!
# LayeredConfig — the chain around the scope

The scope stands in the middle of a chain. A pattern that no resolver of the client
answers gets to it, as what else stands before it answers calls only; and what stands
behind it is asked where it found nothing.

* `Expansion.run_chain_of_scope`     — the part of a chain's run that is the scope's.
* `Expansion.run_reference_of_scope` — the same for a text that is one reference.
-/

namespace LayeredConfig

open Eval

namespace Expansion

/-- The resolvers of a chain that are asked before the scope. -/
def beforeScope (rules : ExpansionRules σ) : List (Resolver (Session σ)) :=
  rules.resolvers.map ofClient ++ [Resolver.path]
    ++ (if rules.expandEnv then [Resolver.envFunction rules.env] else [])

/-- The resolvers of a chain that are asked after the scope. -/
def afterScope (rules : ExpansionRules σ) (leaf : Leaf) : List (Resolver (Session σ)) :=
  (if rules.expandEnv then [Resolver.envVariable rules.env] else [])
    ++ rules.defaultResolvers.map ofClient
    ++ (if rules.allowUndefined then [] else [Resolver.reject (some leaf.originPath)])

section

variable {rules : ExpansionRules σ} {leaf : Leaf}

theorem chain_eq (h : rules.expandVars = true) (scope : Resolver (Session σ)) (leaf : Leaf) :
    chain rules scope leaf = beforeScope rules ++ scope :: afterScope rules leaf := by
  simp only [chain, beforeScope, afterScope, h, if_true, List.append_assoc, List.cons_append,
    List.nil_append]

/-- Does not answer the request, and leaves the history as it is. -/
def Declines (request : Request) (r : Resolver (Session σ)) : Prop :=
  ∀ s o s', (r request).run s = (.ok o, s') → o = none ∧ s'.history = s.history

/-- The client's resolvers do not touch the history. -/
theorem declines_ofClient {request : Request}
    (hClient : ∀ r ∈ rules.resolvers, ∀ c a, ((r request).run c).1 ≠ .ok (some a)) :
    ∀ r ∈ rules.resolvers.map ofClient, Declines request r := by
  intro r hr s o s' hRun
  obtain ⟨resolver, hIn, rfl⟩ := List.mem_map.1 hr
  rw [ofClient, Session.run_onClient, Prod.mk.injEq] at hRun
  obtain ⟨hAnswer, rfl⟩ := hRun
  refine ⟨?_, rfl⟩
  cases o with
  | none => rfl
  | some a => exact absurd hAnswer (hClient resolver hIn s.client a)

theorem declines_of_mem_beforeScope {spec : String} {subject : Option Text}
    (hClient : ∀ r ∈ rules.resolvers, ∀ c a,
      ((r ⟨spec, none, subject⟩).run c).1 ≠ .ok (some a)) :
    ∀ r ∈ beforeScope rules, Declines ⟨spec, none, subject⟩ r := by
  intro r hr s o s' hRun
  rcases List.mem_append.1 hr with hr | hr
  · rcases List.mem_append.1 hr with hr | hr
    · exact declines_ofClient hClient r hr s o s' hRun
    -- the others answer calls only, and this is none
    · cases List.mem_singleton.1 hr
      cases hRun
      exact ⟨rfl, rfl⟩
  · split at hr
    · cases List.mem_singleton.1 hr
      cases hRun
      exact ⟨rfl, rfl⟩
    · cases hr

/-- Resolvers that decline leave the request to those behind them. -/
theorem run_first_append {request : Request} {front back : List (Resolver (Session σ))}
    (hFront : ∀ r ∈ front, Declines request r) {s s' : Session σ} {o : Option Value}
    (hRun : (Resolver.first (front ++ back) request).run s = (.ok o, s')) :
    ∃ s₁, s₁.history = s.history ∧ (Resolver.first back request).run s₁ = (.ok o, s') := by
  induction front generalizing s with
  | nil => exact ⟨s, rfl, hRun⟩
  | cons r rest ih =>
    rw [List.cons_append, Resolver.first, run_bind_eq_ok] at hRun
    obtain ⟨answer, s₁, hFirst, hRest⟩ := hRun
    obtain ⟨rfl, hHistory⟩ := hFront r List.mem_cons_self s answer s₁ hFirst
    obtain ⟨s₂, hSame, hBack⟩ := ih (fun r' hr' => hFront r' (List.mem_cons_of_mem _ hr')) hRest
    exact ⟨s₂, hSame.trans hHistory, hBack⟩

theorem keeps_chain {I : History → Prop} {scope : Resolver (Session σ)}
    (hScope : ∀ request, (scope request).Keeps (fun s => I s.history)) (request : Request) :
    (Resolver.first (chain rules scope leaf) request).Keeps (fun s => I s.history) :=
  keeps_iff_coupled.2 (Resolver.coupled_first (coupled_chain (matching_history I rules)
    (fun request => keeps_iff_coupled.1 (hScope request)) leaf) request)

theorem keeps_afterScope (I : History → Prop) (hVars : rules.expandVars = true)
    (request : Request) :
    (Resolver.first (afterScope rules leaf) request).Keeps (fun s => I s.history) := by
  -- the chain as a whole keeps it, and these resolvers are part of a chain
  have hChain : (Coupling.diagonal fun s : Session σ => I s.history).Chains
      (chain rules Resolver.silent leaf) (chain rules Resolver.silent leaf) :=
    coupled_chain (matching_history I rules) (fun _ => Coupled.pure none) leaf
  rw [chain_eq hVars] at hChain
  refine keeps_iff_coupled.2 (Resolver.coupled_first (List.forall₂_same.2 fun r hr => ?_) request)
  exact List.forall₂_same.1 hChain r (List.mem_append_right _ (List.mem_cons_of_mem _ hr))

theorem scope_of_pattern {resolveLeaf : LeafResolver σ} {root : Draft} {spec : String}
    {pattern : Pattern} (h : Pattern.parse spec = .ok pattern) (subject : Option Text) :
    scope resolveLeaf root ⟨spec, none, subject⟩ = valueAt resolveLeaf root pattern := by
  simp only [scope, Option.isSome_none, Bool.false_eq_true, if_false, h]

/-- Where the scope is asked, nobody before it has answered; and if it answers, nobody
after it is asked. -/
theorem run_chain_of_scope {scope : Resolver (Session σ)} {spec : String}
    {subject : Option Text} (hVars : rules.expandVars = true)
    (hClient : ∀ r ∈ rules.resolvers, ∀ c a, ((r ⟨spec, none, subject⟩).run c).1 ≠ .ok (some a))
    {s s' : Session σ} {answer : Option Value}
    (hRun : (Resolver.first (chain rules scope leaf) ⟨spec, none, subject⟩).run s =
      (.ok answer, s')) :
    ∃ s₁ o s₂, s₁.history = s.history ∧ (scope ⟨spec, none, subject⟩).run s₁ = (.ok o, s₂) ∧
      (∀ I : History → Prop, I s₂.history → I s'.history) ∧
      ∀ y, o = some y → answer = some y := by
  rw [chain_eq hVars] at hRun
  obtain ⟨s₁, hSame, hBack⟩ := run_first_append (declines_of_mem_beforeScope hClient) hRun
  rw [Resolver.first, run_bind_eq_ok] at hBack
  obtain ⟨o, s₂, hScope, hRest⟩ := hBack
  refine ⟨s₁, o, s₂, hSame, hScope, ?_⟩
  cases o with
  | none =>
    refine ⟨fun I => (keeps_afterScope I hVars _).of_run hRest, fun y hy => ?_⟩
    cases hy
  | some a =>
    cases hRest
    exact ⟨fun I h => h, fun y hy => hy⟩

/-- A reference to a pattern that no resolver of the client answers has the value
of the pattern, if there is one. -/
theorem run_reference_of_scope {scope : Resolver (Session σ)} {spec : String} {pattern : Pattern}
    (hVars : rules.expandVars = true) (hText : leaf.raw.text = "$\x7b" ++ spec ++ "\x7d")
    (hSpec : Pattern.parse spec = .ok pattern)
    (hClient : ∀ r ∈ rules.resolvers, ∀ c a,
      ((r ⟨spec, none, some leaf.raw⟩).run c).1 ≠ .ok (some a))
    {s s' : Session σ} {w : Value} (hRun : (interpolateLeaf rules scope leaf).run s = (.ok w, s')) :
    ∃ s₁ o s₂, s₁.history = s.history ∧
      (scope ⟨spec, none, some leaf.raw⟩).run s₁ = (.ok o, s₂) ∧
      (∀ I : History → Prop, I s₂.history → I s'.history) ∧ ∀ y, o = some y → w = y := by
  rw [interpolateLeaf, hText, Template.interpolate_reference _ _ hSpec, run_map_eq_ok] at hRun
  obtain ⟨answer, hFirst, rfl⟩ := hRun
  obtain ⟨s₁, o, s₂, hSame, hScope, hAfter, hAnswer⟩ := run_chain_of_scope hVars hClient hFirst
  refine ⟨s₁, o, s₂, hSame, hScope, hAfter, fun y hy => ?_⟩
  rw [hAnswer y hy]
  rfl

end

end Expansion

end LayeredConfig
