import LayeredConfig.Proofs.Explanation
import LayeredConfig.Proofs.SameCalls
import Mathlib

/-!
# LayeredConfig — relaxing the rules

Strict rules refuse a reference that nobody answers: behind all other resolvers of the
chain stands one that fails. Rules are relaxed by leaving it out, by putting further
resolvers where it stands, or both. As long as a strict expansion does not fail, that
resolver is not called; each reference was answered by those before it. So it does not
matter what stands there instead.

* `ExpansionRules.relaxed`         — further resolvers at the end of the chain.
* `Expansion.answerers`            — how many resolvers stand before that end.
* `Expansion.strictly`             — couples a strict expansion with a relaxed one.
* `Value.expand_relaxed`           — relaxing never changes a strict success.
-/

namespace LayeredConfig

open Eval History

namespace ExpansionRules

/-- The rules with further default resolvers, asked after all others, and with undefined
references allowed or not. -/
def relaxed (rules : ExpansionRules σ) (further : List (Resolver σ)) (allowUndefined : Bool) :
    ExpansionRules σ :=
  { rules with
    defaultResolvers := rules.defaultResolvers ++ further
    allowUndefined := allowUndefined }

theorem mapResolvers_relaxed (f : Resolver σ → Resolver τ) (rules : ExpansionRules σ)
    (further : List (Resolver σ)) (allowUndefined : Bool) :
    (rules.relaxed further allowUndefined).mapResolvers f =
      (rules.mapResolvers f).relaxed (further.map f) allowUndefined := by
  simp only [relaxed, mapResolvers, List.map_append]

end ExpansionRules

namespace Expansion

open Draft

-- ---------------------------------------------------------------------------
-- The end of a chain
-- ---------------------------------------------------------------------------

/-- How many resolvers of a chain may answer: all but the one that refuses. -/
def answerers (rules : ExpansionRules σ) : Nat :=
  rules.resolvers.length + 1 + (if rules.expandEnv then 1 else 0)
    + (if rules.expandVars then 1 else 0) + (if rules.expandEnv then 1 else 0)
    + rules.defaultResolvers.length

/-- What stands behind the resolvers of the rules once the rules are relaxed. -/
def chainEnd (further : List (Resolver σ)) (allowUndefined : Bool) (leaf : Leaf) :
    List (Resolver (Session σ)) :=
  further.map ofClient ++ if allowUndefined then [] else [Resolver.reject (some leaf.originPath)]

section

variable {rules : ExpansionRules σ} {scope : Resolver (Session σ)} {leaf : Leaf}

theorem length_chain_lenient : (chain (rules.relaxed [] true) scope leaf).length =
    answerers rules := by
  have hOne : ∀ (b : Bool) (r : Resolver (Session σ)),
      (if b then [r] else []).length = if b then 1 else 0 := by
    intro b r
    cases b <;> rfl
  simp only [chain, ExpansionRules.relaxed, answerers, List.length_append, List.length_map, hOne,
    List.length_singleton, List.append_nil, if_true]

/-- Relaxed or not, rules have the same chain but for its end. -/
theorem chain_relaxed (further : List (Resolver σ)) (allowUndefined : Bool) :
    chain (rules.relaxed further allowUndefined) scope leaf =
      chain (rules.relaxed [] true) scope leaf ++ chainEnd further allowUndefined leaf := by
  simp only [chain, chainEnd, ExpansionRules.relaxed, List.map_append, List.append_nil, if_true,
    List.append_assoc]
  rfl

theorem relaxed_of_strict (h : rules.allowUndefined = false) : rules.relaxed [] false = rules := by
  cases rules
  cases h
  simp only [ExpansionRules.relaxed, List.append_nil]

end

-- ---------------------------------------------------------------------------
-- Strict and relaxed side by side
-- ---------------------------------------------------------------------------

/-- No resolver behind the first `n` of a chain was called. -/
def CallsBefore (n : Nat) (s : Session (Placed σ)) : Prop := ∀ call ∈ s.client.2, call.place < n

theorem steady_callsBefore (n : Nat) : Steady n (CallsBefore (σ := σ) n) where
  recorded _ _ _ h := h
  client _ _ h := h
  called s leaf place request hPlace h := by
    intro call hCall
    rcases List.mem_cons.1 hCall with rfl | hCall
    · exact hPlace
    · exact h call hCall

/-- Couples a strict expansion with a relaxed one. Nothing is claimed once the strict one
has failed. -/
abbrev strictly (σ : Type) (n : Nat) : Coupling (Session (Placed σ)) (Session (Placed σ)) :=
  together (CallsBefore n) (fun _ => False) True

section

variable {rules : ExpansionRules σ} {scope otherScope : Resolver (Session (Placed σ))}

theorem answerers_mapResolvers (f : Resolver σ → Resolver τ) (rules : ExpansionRules σ) :
    answerers (rules.mapResolvers f) = answerers rules := by
  simp only [answerers, ExpansionRules.mapResolvers, List.length_map]
  rfl

/-- The chain of relaxed rules where calls are kept, its end apart. -/
theorem placedChain_relaxed (further : List (Resolver σ)) (allowUndefined : Bool) (leaf : Leaf) :
    placedChain (rules.relaxed further allowUndefined) scope leaf =
      placedChain (rules.relaxed [] true) scope leaf ++
        Resolver.recordingFrom (callsFor leaf) (answerers rules)
          (chainEnd (further.map (Resolver.beside (List PlacedCall))) allowUndefined leaf) := by
  simp only [placedChain, ExpansionRules.mapResolvers_relaxed, List.map_nil]
  rw [chain_relaxed, Resolver.recordingFrom_append, length_chain_lenient, answerers_mapResolvers,
    Nat.zero_add]

/-- Nothing is claimed where the strict expansion fails. -/
theorem coupled_of_fails {n : Nat} {x y : Eval (Session (Placed σ)) α}
    (h : ∀ s, ∃ e, (x.run s).1 = .error e) : Coupled (strictly σ n) x y :=
  ⟨fun _ hVoid => hVoid.elim, fun _ hVoid => hVoid.elim,
    fun s _ _ => .inr (.inr (.inl ⟨trivial, h s⟩))⟩

theorem coupled_first_relaxed (hStrict : rules.allowUndefined = false)
    (further : List (Resolver σ)) (allowUndefined : Bool)
    (hScope : ∀ request, Coupled (strictly σ (answerers rules)) (scope request)
      (otherScope request)) (leaf : Leaf) (request : Request) :
    Coupled (strictly σ (answerers rules))
      (Resolver.first (placedChain rules scope leaf) request)
      (Resolver.first (placedChain (rules.relaxed further allowUndefined) otherScope leaf)
        request) := by
  have hI := steady_callsBefore (σ := σ) (answerers rules)
  have hV := steady_false (σ := σ) (answerers rules)
  have hPlaces : 0 + (chain ((rules.relaxed [] true).mapResolvers
      (Resolver.beside (List PlacedCall))) scope leaf).length ≤ answerers rules := by
    rw [ExpansionRules.mapResolvers_relaxed, List.map_nil, length_chain_lenient,
      answerers_mapResolvers]
    omega
  have hFront : (strictly σ (answerers rules)).Chains
      (placedChain (rules.relaxed [] true) scope leaf)
      (placedChain (rules.relaxed [] true) otherScope leaf) := by
    have hChain := coupled_chain (matching_together hI hV (rules.relaxed [] true)) hScope leaf
    exact chains_together hI hV hChain leaf 0 hPlaces
  have hLeft : placedChain (rules.relaxed [] false) scope leaf =
      placedChain (rules.relaxed [] true) scope leaf ++
        Resolver.recordingFrom (callsFor leaf) (answerers rules) (chainEnd [] false leaf) :=
    placedChain_relaxed [] false leaf
  rw [relaxed_of_strict hStrict] at hLeft
  rw [hLeft, placedChain_relaxed further allowUndefined leaf]
  -- behind those who may answer, the strict expansion fails
  refine Resolver.coupled_first_append hFront (coupled_of_fails fun s => ?_)
  exact ⟨_, rfl⟩

theorem coupled_placedAnswer_relaxed (hStrict : rules.allowUndefined = false)
    (further : List (Resolver σ)) (allowUndefined : Bool) (t : Value) (query : Query) :
    Coupled (strictly σ (answerers rules)) ((ofValue t rules).placedAnswer query)
      ((ofValue t (rules.relaxed further allowUndefined)).placedAnswer query) := by
  have hC : (strictly σ (answerers rules)).SameHistory :=
    sameHistory_together (steady_callsBefore _) (steady_false _)
  refine coupled_answerBy hC.history (fun leaf _ => ?_) query
  exact coupled_resolveBy hC (coupled_first_relaxed hStrict further allowUndefined) _ none leaf

end

end Expansion

namespace Value

open Expansion

/-- **Relaxing the rules never changes a strict success.** If every reference of a tree is
answered under strict rules, the tree expands to the same value with further default
resolvers, whatever these do, and with undefined references allowed. The client's state is
the same in the end, and the same resolvers have been called, with the same requests and in
the same order, none of them from the further ones. -/
theorem expand_relaxed {t v : Value} {rules : ExpansionRules σ}
    (hStrict : rules.allowUndefined = false) {c c' : σ}
    (h : (t.expand rules).run c = (.ok v, c')) (further : List (Resolver σ))
    (allowUndefined : Bool) :
    let relaxed := rules.relaxed further allowUndefined
    (t.expand relaxed).run c = (.ok v, c') ∧
      (Expansion.ofValue t relaxed).placedCalls .all (Session.start c) =
        (Expansion.ofValue t rules).placedCalls .all (Session.start c) ∧
      ∀ call ∈ (Expansion.ofValue t relaxed).placedCalls .all (Session.start c),
        call.place < answerers rules := by
  intro relaxed
  obtain ⟨s, hAnswer, hClient⟩ := run_expand_eq_ok.1 h
  have hPlaced := run_placedAnswer (Expansion.ofValue t rules) .all (Session.start c)
  rw [hAnswer] at hPlaced
  have hNoCalls : CallsBefore (answerers rules) ⟨[], (c, [])⟩ :=
    fun call hCall => absurd hCall List.not_mem_nil
  obtain ⟨hSame, hCalls⟩ :=
    run_eq_of_together (coupled_placedAnswer_relaxed hStrict further allowUndefined t .all)
      hNoCalls id fun _ => ⟨_, congrArg Prod.fst hPlaced⟩
  obtain ⟨hAnswers, hPlacedCalls⟩ := answer_eq_of_placed (s := Session.start c) hSame
  refine ⟨run_expand_eq_ok.2 ⟨s, hAnswers ▸ hAnswer, hClient⟩, hPlacedCalls.symm, ?_⟩
  rw [← hPlacedCalls]
  exact hCalls

/-- Answers a name, and counts how often it is asked. -/
def naming (name : String) : Resolver Nat := fun request count =>
  (.ok (if request.expression = name then some (ofString "known") else none), count + 1)

def namingRules : ExpansionRules Nat :=
  { resolvers := [naming "none"]
    defaultResolvers := [naming "name"]
    expandVars := true
    expandEnv := false
    allowUndefined := false
    env := fun _ => none }

def namedTree : Value :=
  .table [("a", ofString "$\x7bb\x7d"), ("b", ofString "$\x7bname\x7d")]

def namedTreeExpanded : Value :=
  .table [("a", ofString "known"), ("b", ofString "known")]

/-- One resolver in front of the chain and one at its end, both of which count. A further one
that fails whenever it is asked is not noticed. -/
theorem expand_relaxed_of_named :
    let relaxed := namingRules.relaxed [fun _ => Eval.fail .undecodable] true
    (namedTree.expand namingRules).run 0 = (.ok namedTreeExpanded, 3) ∧
      (namedTree.expand relaxed).run 0 = (.ok namedTreeExpanded, 3) ∧
      ((Expansion.ofValue namedTree relaxed).placedCalls .all (Session.start 0)).length = 7 ∧
      ∀ call ∈ (Expansion.ofValue namedTree relaxed).placedCalls .all (Session.start 0),
        call.place < 4 := by
  intro relaxed
  have hRun : (namedTree.expand namingRules).run 0 = (.ok namedTreeExpanded, 3) := by cbv
  have hLength : ((Expansion.ofValue namedTree namingRules).placedCalls .all
      (Session.start 0)).length = 7 := by decide +kernel
  obtain ⟨hRelaxed, hCalls, hPlaces⟩ :=
    expand_relaxed rfl hRun [fun _ => Eval.fail .undecodable] true
  have hCount : answerers namingRules = 4 := rfl
  rw [← hCalls] at hLength
  rw [hCount] at hPlaces
  exact ⟨hRun, hRelaxed, hLength, hPlaces⟩

end Value

end LayeredConfig
