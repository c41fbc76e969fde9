import LayeredConfig.Proofs.Lockstep
import LayeredConfig.Proofs.Progress

/-!
# LayeredConfig — calls of resolvers

To interpolate the text of a leaf is to ask resolvers, and a history does not say which
of them were asked, or how often. Here each call of a resolver is kept, of the client's
resolvers and of those that come with the library: with the leaf on whose behalf it was
made, the place of the resolver in the chain, and the history at that moment. Keeping
calls changes nothing else: the same calls give the same results and the same history.

To resolve leaves is to interpolate their texts with some chains of resolvers. Which they
are is a parameter here, so that chains can be compared one by one.

* `Expansion.resolveBy`          — resolving with given chains.
* `Expansion.coupled_resolveBy`  — with coupled chains, resolving is coupled.
* `PlacedCall`                   — a call of a resolver.
* `Expansion.placedCalls`        — the calls of resolvers that a call makes.
* `Expansion.resolverCalls`      — the calls of resolvers on the way through calls.
* `Expansion.run_placedAnswer`   — keeping calls changes nothing else.
* `Expansion.KeptByCalls`        — what events and calls of resolvers keep.
* `Expansion.keeps_placedAnswer` — every call keeps that.
* `Expansion.ongoing_of_call`    — resolvers are only called for leaves whose
  interpolation goes on.
-/

namespace LayeredConfig

open Eval History

/-- A call of a resolver. -/
structure PlacedCall where
  /-- The leaf on whose behalf the resolver was called. -/
  leaf : Location
  request : Request
  /-- The history at the call. -/
  moment : History
  /-- Where in the chain the resolver stands, from the front. -/
  place : Nat

/-- The state of a client, and the calls of resolvers, the last one first. -/
abbrev Placed (σ : Type) := σ × List PlacedCall

namespace Expansion

open Draft

-- ---------------------------------------------------------------------------
-- Chains as a parameter
-- ---------------------------------------------------------------------------

/-- The resolvers for each leaf, once it is known how patterns are answered. -/
abbrev Chains (σ : Type) := Resolver (Session σ) → Leaf → List (Resolver (Session σ))

/-- The value of a leaf, with given chains of resolvers. -/
def resolveBy (chains : Chains σ) (root : Draft) : Nat → Option Location → LeafResolver σ
  | 0, trigger => fun leaf => request (circular trigger leaf) trigger leaf
  | depth + 1, trigger => fun leaf =>
    let inner := resolveBy chains root depth (some leaf.location)
    let resolvers := chains (scope inner root) leaf
    request (Template.interpolate resolvers (some leaf.raw) leaf.raw.text) trigger leaf

theorem resolve_eq_resolveBy (rules : ExpansionRules σ) (root : Draft) (depth : Nat) :
    ∀ trigger : Option Location,
      resolve rules root depth trigger = resolveBy (chain rules) root depth trigger := by
  induction depth with
  | zero => exact fun _ => rfl
  | succ depth ih =>
    intro trigger
    funext leaf
    rw [resolve_succ, evaluation, ih]
    rfl

/-- With coupled chains, resolving is coupled. -/
theorem coupled_resolveBy {C : Coupling (Session σ) (Session τ)} (hC : C.SameHistory)
    {chains : Chains σ} {others : Chains τ} {root : Draft}
    (h : ∀ {scope : Resolver (Session σ)} {otherScope : Resolver (Session τ)},
      (∀ request, Coupled C (scope request) (otherScope request)) → ∀ leaf request,
        Coupled C (Resolver.first (chains scope leaf) request)
          (Resolver.first (others otherScope leaf) request)) (depth : Nat) :
    ∀ (trigger : Option Location) (leaf : Leaf), Coupled C
      (resolveBy chains root depth trigger leaf) (resolveBy others root depth trigger leaf) := by
  induction depth with
  | zero => exact fun trigger leaf => coupled_request hC (coupled_circular hC trigger leaf) _ _
  | succ depth ih =>
    intro trigger leaf
    refine coupled_request hC ?_ trigger leaf
    refine (Coupled.ofExcept _).bind fun template => Template.coupled_eval (h ?_ leaf) template
    exact coupled_scope (coupled_valueAt_of_history hC.history fun other _ => ih _ other)

-- ---------------------------------------------------------------------------
-- With calls kept
-- ---------------------------------------------------------------------------

/-- The session with a call more. -/
def called (s : Session (Placed σ)) (leaf : Leaf) (place : Nat) (request : Request) :
    Session (Placed σ) :=
  { s with client := (s.client.1, ⟨leaf.location, request, s.history, place⟩ :: s.client.2) }

/-- Keeps calls as made for the leaf. -/
def callsFor (leaf : Leaf) : Recorder (Session (Placed σ)) :=
  { made := fun place request s => called s leaf place request }

/-- The chains of the rules, where each call is kept. -/
def placedChain (rules : ExpansionRules σ) : Chains (Placed σ) := fun scope leaf =>
  Resolver.recordingFrom (callsFor leaf) 0
    (chain (rules.mapResolvers (Resolver.beside (List PlacedCall))) scope leaf)

/-- What a call answers, where calls of resolvers are kept. -/
def placedAnswer (x : Expansion σ) (query : Query) : Eval (Session (Placed σ)) (Option Value) :=
  answerBy (resolveBy (placedChain x.rules) x.root x.root.deferredLeaves.length none) x.root query

/-- The calls of resolvers that a call makes, the last one first. -/
def placedCalls (x : Expansion σ) (query : Query) (s : Session σ) : List PlacedCall :=
  ((x.placedAnswer query).run ⟨s.history, (s.client, [])⟩).2.client.2

/-- The session after calls, where calls of resolvers are kept. -/
def placedAfter (x : Expansion σ) : List Query → Session (Placed σ) → Session (Placed σ)
  | [], s => s
  | query :: rest, s => x.placedAfter rest ((x.placedAnswer query).run s).2

/-- The calls of resolvers that calls on a new expansion make, the last one first. -/
def resolverCalls (x : Expansion σ) (queries : List Query) (c : σ) : List PlacedCall :=
  (x.placedAfter queries (Session.start (c, []))).client.2

theorem run_recording_callsFor (leaf : Leaf) (place : Nat) (r : Resolver (Session (Placed σ)))
    (request : Request) (s : Session (Placed σ)) :
    (r.recording (callsFor leaf) place request).run s =
      (r request).run (called s leaf place request) := rfl

-- ---------------------------------------------------------------------------
-- Nothing else changes
-- ---------------------------------------------------------------------------

/-- Couples sessions that differ in the calls kept. -/
abbrev withCalls (σ : Type) : Coupling (Session σ) (Session (Placed σ)) :=
  Coupling.beside σ (List PlacedCall)

theorem records_withCalls (leaf : Leaf) (place : Nat) :
    (withCalls σ).Records .idle (callsFor leaf) place where
  made _ := Coupling.keptBy_throughout fun _ _ h => h
  finished _ _ := Coupling.keptBy_id _

theorem coupled_placedResolve (rules : ExpansionRules σ) (root : Draft) (depth : Nat)
    (trigger : Option Location) (leaf : Leaf) :
    Coupled (withCalls σ) (resolve rules root depth trigger leaf)
      (resolveBy (placedChain rules) root depth trigger leaf) := by
  rw [resolve_eq_resolveBy]
  refine coupled_resolveBy Coupling.sameHistory_beside (fun hScope leaf => ?_) depth trigger leaf
  have hChain := coupled_chain (matching_beside (List PlacedCall) rules) hScope leaf
  exact Resolver.coupled_first
    (Resolver.chains_recordingFrom_right (records_withCalls leaf) hChain 0)

theorem coupled_placedAnswer (x : Expansion σ) (query : Query) :
    Coupled (withCalls σ) (x.answer query) (x.placedAnswer query) := by
  rw [answer_eq]
  exact coupled_answerBy Coupling.sameHistory_beside.history
    (fun leaf _ => coupled_placedResolve x.rules x.root _ none leaf) query

/-- **Keeping calls changes nothing else.** -/
theorem run_placedAnswer (x : Expansion σ) (query : Query) (s : Session σ) :
    (x.placedAnswer query).run ⟨s.history, (s.client, [])⟩ =
      (((x.answer query).run s).1,
        ⟨((x.answer query).run s).2.history,
          (((x.answer query).run s).2.client, x.placedCalls query s)⟩) :=
  run_of_beside (coupled_placedAnswer x query) s []

/-- The same on the way through calls. -/
theorem placedAfter_eq (x : Expansion σ) (queries : List Query) (s : Session σ)
    (calls : List PlacedCall) :
    x.placedAfter queries ⟨s.history, (s.client, calls)⟩ =
      ⟨(x.after queries s).history, ((x.after queries s).client,
        (x.placedAfter queries ⟨s.history, (s.client, calls)⟩).client.2)⟩ := by
  induction queries generalizing s calls with
  | nil => rfl
  | cons query rest ih =>
    rw [placedAfter, run_of_beside (coupled_placedAnswer x query) s calls]
    exact ih ((x.answer query).run s).2 _

-- ---------------------------------------------------------------------------
-- What calls keep
-- ---------------------------------------------------------------------------

/-- The leaf at a location is under evaluation. -/
def IsEvaluating (location : Location) (h : History) : Prop :=
  ∃ trigger, h.progress location = .evaluating trigger

/-- What is kept by the client's resolvers, by calls of resolvers for a leaf under
evaluation, and by the events of the leaves of a draft. -/
structure KeptByCalls (rules : ExpansionRules σ) (root : Draft)
    (I : Session (Placed σ) → Prop) : Prop where
  client : ∀ s c, I s → I { s with client := (c, s.client.2) }
  called : ∀ s (leaf : Leaf) place request, IsEvaluating leaf.location s.history → I s →
    I (called s leaf place request)
  started : ∀ s (leaf : Leaf) trigger, I s → s.history.progress leaf.location = .pending →
    I (begun s trigger leaf)
  failed : ∀ s (leaf : Leaf), I s → I (s.recorded leaf.location .pending)
  succeeded : ∀ leaf ∈ root.deferredLeaves, ∀ scope s w s',
    (Template.interpolate (placedChain rules scope leaf) (some leaf.raw) leaf.raw.text).run s =
      (.ok w, s') → I s' → I (s'.recorded leaf.location (.resolved (withOriginOf leaf w)))

section

variable {rules : ExpansionRules σ} {root : Draft} {I : Session (Placed σ) → Prop}

/-- Resolving leaves a leaf under evaluation. -/
theorem keeps_isEvaluating (location : Location) (depth : Nat) (trigger : Option Location)
    (leaf : Leaf) : (resolveBy (placedChain rules) root depth trigger leaf).Keeps
      fun s => IsEvaluating location s.history := by
  rintro s ⟨started, hs⟩
  have hKeeps := keeps_of_beside (I := fun h => h.progress location = .evaluating started)
    (coupled_placedResolve rules root depth trigger leaf)
    (keeps_evaluating location started depth trigger leaf)
  exact ⟨started, hKeeps s hs⟩

/-- While the leaf is under evaluation, its resolvers may be called. -/
theorem keeps_placedInterpolation (h : KeptByCalls rules root I) {inner : LeafResolver (Placed σ)}
    {leaf : Leaf}
    (hLeaf : ∀ other, (inner other).Keeps fun s => IsEvaluating leaf.location s.history)
    (hInner : ∀ other ∈ root.deferredLeaves, (inner other).Keeps I) :
    (Template.interpolate (placedChain rules (scope inner root) leaf) (some leaf.raw)
      leaf.raw.text).Keeps (fun s => IsEvaluating leaf.location s.history ∧ I s) := by
  have hP := inherited_keeps fun s : Session (Placed σ) =>
    IsEvaluating leaf.location s.history ∧ I s
  refine Template.inherited_interpolate hP (fun r hr request s hs => ?_) (Keeps.ofExcept _)
  obtain ⟨place, plain, hPlain, rfl⟩ := Resolver.exists_of_mem_recordingFrom hr
  refine inherited_chain hP ?_ ?_ (fun _ => Keeps.fail _) plain hPlain request _
    ⟨hs.1, h.called s leaf place request hs.1 hs.2⟩
  · intro r' hr' request
    obtain ⟨r, -, rfl⟩ := ExpansionRules.exists_of_mem_mapResolvers hr'
    exact fun s hs => ⟨hs.1, h.client s _ hs.2⟩
  · exact inherited_scope hP (Keeps.of_unchanged fun _ => rfl)
      fun other hOther s hs => ⟨hLeaf other s hs.1, hInner other hOther s hs.2⟩

theorem keeps_request_placed (h : KeptByCalls rules root I) {x : Eval (Session (Placed σ)) Value}
    {trigger : Option Location} {leaf : Leaf}
    (hBody : x.Keeps fun s => IsEvaluating leaf.location s.history ∧ I s)
    (hDone : ∀ s w s', x.run s = (.ok w, s') → I s' →
      I (s'.recorded leaf.location (.resolved (withOriginOf leaf w)))) :
    (request x trigger leaf).Keeps I := by
  intro s hs
  rcases run_request_cases x trigger leaf s with
    ⟨v, -, hRun⟩ | ⟨other, -, hRun⟩ | ⟨hPending, hEnd⟩
  · rw [hRun]
    exact hs
  · rw [hRun]
    exact hs
  · have hBegun : IsEvaluating leaf.location (begun s trigger leaf).history ∧
        I (begun s trigger leaf) :=
      ⟨⟨trigger, progress_cons_self _ _ _⟩, h.started s leaf trigger hs hPending⟩
    rcases hEnd with ⟨e, s', hFailed, hRun⟩ | ⟨w, s', hOk, hRun⟩
    · rw [hRun]
      exact h.failed s' leaf (hBody.of_run hFailed hBegun).2
    · rw [hRun]
      exact hDone _ w s' hOk (hBody.of_run hOk hBegun).2

theorem keeps_placedResolve (h : KeptByCalls rules root I) (depth : Nat) :
    ∀ (trigger : Option Location), ∀ leaf ∈ root.deferredLeaves,
      (resolveBy (placedChain rules) root depth trigger leaf).Keeps I := by
  induction depth with
  | zero =>
    intro trigger leaf _
    refine keeps_request_placed h (keeps_circular _ trigger leaf) fun s w s' hRun => ?_
    cases hRun
  | succ depth ih =>
    intro trigger leaf hLeaf
    exact keeps_request_placed h
      (keeps_placedInterpolation h (keeps_isEvaluating leaf.location depth _) (ih _))
      (h.succeeded leaf hLeaf _)

/-- What events and calls of resolvers keep, every call keeps. -/
theorem keeps_placedAnswer {x : Expansion σ} (h : KeptByCalls x.rules x.root I) (query : Query) :
    (x.placedAnswer query).Keeps I :=
  keeps_answerBy (keeps_placedResolve h _ none) query

theorem keeps_placedAfter {x : Expansion σ} (h : KeptByCalls x.rules x.root I)
    (queries : List Query) : ∀ s, I s → I (x.placedAfter queries s) := by
  induction queries with
  | nil => exact fun _ hs => hs
  | cons query rest ih => exact fun s hs => ih _ (keeps_placedAnswer h query s hs)

end

-- ---------------------------------------------------------------------------
-- Whom resolvers are called for
-- ---------------------------------------------------------------------------

/-- Whenever a resolver was called, it was for a leaf under evaluation. -/
def CallsUnderWay (s : Session (Placed σ)) : Prop :=
  ∀ call ∈ s.client.2, call.moment <:+ s.history ∧ IsEvaluating call.leaf call.moment

theorem CallsUnderWay.recorded {s : Session (Placed σ)} (hs : CallsUnderWay s)
    (location : Location) (p : Progress) : CallsUnderWay (s.recorded location p) := by
  intro call hCall
  obtain ⟨hMoment, hLeaf⟩ := hs call hCall
  exact ⟨hMoment.trans (List.suffix_cons _ _), hLeaf⟩

theorem keptByCalls_callsUnderWay (rules : ExpansionRules σ) (root : Draft) :
    KeptByCalls rules root CallsUnderWay where
  client _ _ hs := hs
  called s leaf place request hLeaf hs := by
    intro call hCall
    rcases List.mem_cons.1 hCall with rfl | hCall
    · exact ⟨List.suffix_rfl, hLeaf⟩
    · exact hs call hCall
  started _ _ _ hs _ := hs.recorded _ _
  failed _ _ hs := hs.recorded _ _
  succeeded _ _ _ _ _ _ _ hs := hs.recorded _ _

/-- A resolver is only called for a leaf whose interpolation goes on at that moment. -/
theorem ongoing_of_call (t : Value) (rules : ExpansionRules σ) (queries : List Query) (c : σ)
    {call : PlacedCall} (hCall : call ∈ (ofValue t rules).resolverCalls queries c) :
    call.moment <:+ ((ofValue t rules).after queries (Session.start c)).history ∧
      call.leaf ∈ call.moment.ongoing := by
  obtain ⟨hMoment, hLeaf⟩ := keeps_placedAfter (x := ofValue t rules)
    (keptByCalls_callsUnderWay rules _) queries (Session.start (c, []))
    (fun _ h => absurd h List.not_mem_nil) call hCall
  have hSame := congrArg Session.history
    (placedAfter_eq (ofValue t rules) queries (Session.start c) [])
  have hFinal : call.moment <:+ ((ofValue t rules).after queries (Session.start c)).history :=
    hSame ▸ hMoment
  obtain ⟨⟨stack, hNested⟩, -⟩ := (nested_after t rules queries c).of_suffix hFinal
  rw [hNested.ongoing_eq]
  exact ⟨hFinal, (hNested.underWay.2.evaluating call.leaf).1 hLeaf⟩

end Expansion

end LayeredConfig
