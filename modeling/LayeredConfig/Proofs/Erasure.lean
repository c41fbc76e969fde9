import LayeredConfig.Proofs.Blindness
import LayeredConfig.Proofs.PathNames

/-!
# LayeredConfig — expansions without origins

Nothing but the path function looks at origins. Where no call of it gets as far as it, and the
client's resolvers do not look at origins either, a tree and the same tree without
its origins expand to values that differ in origins only, or fail alike.

Origins may still appear where there were none: a resolver may answer with texts that have
some. Such a text is as it is in both values, unless it stands for a leaf, whose origin it
takes. Without such answers the one value is the other one without its origins.

* `Resolver.IgnoresOrigins`  — resolvers that do not look at origins.
* `Resolver.AddsNoOrigins`   — resolvers that answer without origins, asked without origins.
* `Expansion.unseen`         — couples expansions of trees that differ in origins only.
* `Expansion.alike_chain`    — their chains.
* `Value.expand_bare`        — expanding without origins.
-/

namespace LayeredConfig

open Eval
open View (blind full)

-- ---------------------------------------------------------------------------
-- Resolvers and origins
-- ---------------------------------------------------------------------------

/-- The request without origins. -/
def Request.bare (request : Request) : Request :=
  ⟨request.expression, request.call.map fun call => ⟨call.name, call.arg.bare⟩,
    request.subject.map Text.bare⟩

namespace Resolver

/-- Asked for what differs in origins only, in states that are alike, the resolver gives
answers that differ in origins only, or fails alike. The states are alike then, too. -/
def IgnoresOrigins (alike : σ → σ → Prop) (r : Resolver σ) : Prop :=
  ∀ request other, Request.bare request = other.bare → ∀ c d, alike c d →
    ((r request).run c).1.map (Option.map Value.bare) =
        ((r other).run d).1.map (Option.map Value.bare) ∧
      alike ((r request).run c).2 ((r other).run d).2

/-- Asked without origins, the resolver answers without origins. -/
def AddsNoOrigins (r : Resolver σ) : Prop :=
  ∀ request c v, ((r (Request.bare request)).run c).1 = .ok (some v) → v.bare = v

/-- Ignores origins, where answers on the right are looked at by `W`. -/
def SeenBy (W : View) (alike : σ → σ → Prop) (r : Resolver σ) : Prop :=
  ∀ request other, blind.request request = W.request other → ∀ c d, alike c d →
    ((r request).run c).1.map (Option.map blind.value) =
        ((r other).run d).1.map (Option.map W.value) ∧
      alike ((r request).run c).2 ((r other).run d).2

theorem IgnoresOrigins.seenBy_full {alike : σ → σ → Prop} {r : Resolver σ}
    (h : r.IgnoresOrigins alike) (hAdds : r.AddsNoOrigins) : r.SeenBy full alike := by
  intro request other hSame c d hcd
  rw [View.request_full] at hSame
  subst hSame
  have hBlind : request.bare = (blind.request request).bare :=
    (View.request_bare (V := blind) request).symm
  obtain ⟨hResult, hState⟩ := h request (blind.request request) hBlind c d hcd
  refine ⟨hResult.trans ?_, hState⟩
  -- what is answered has no origins that could be left out
  cases hRun : ((r (blind.request request)).run d).1 with
  | error e => rfl
  | ok found =>
    cases found with
    | none => rfl
    | some v =>
      have hBare : v.bare = full.value v := (hAdds request d v hRun).trans (View.value_full v).symm
      exact congrArg (fun w => Except.ok (some w)) hBare

/-- Answers that show of origins only what is seen of the requests. -/
theorem alike_of_answers {C : Coupling σ τ} {W : View} {f : Request → Option Value}
    (h : ∀ (V : View) request, (f request).map V.value = f (V.request request)) :
    Alike C W (fun request => pure (f request)) (fun request => pure (f request)) :=
  fun request other hRequest => CoupledBy.pure
    ((h blind request).trans ((congrArg f hRequest).trans (h W other).symm))

theorem alike_envFunction {C : Coupling σ τ} {W : View} (env : EnvLookup) :
    Alike C W (envFunction env) (envFunction env) :=
  alike_of_answers fun _ => View.envFunction_request env

theorem alike_envVariable {C : Coupling σ τ} {W : View} (env : EnvLookup) :
    Alike C W (envVariable env) (envVariable env) :=
  alike_of_answers fun _ => View.envVariable_request env

end Resolver

namespace Expansion

open Draft

-- ---------------------------------------------------------------------------
-- Calls of the path function
-- ---------------------------------------------------------------------------

/-- One of the calls is one of the path function, and asks the resolver at the place `n`. -/
def PathCalled (n : Nat) (calls : List PlacedCall) : Prop :=
  ∃ call ∈ calls, call.place = n ∧ (call.request.callOf? "path").isSome = true

instance (n : Nat) (calls : List PlacedCall) : Decidable (PathCalled n calls) :=
  inferInstanceAs (Decidable (∃ call ∈ calls,
    call.place = n ∧ (call.request.callOf? "path").isSome = true))

/-- Couples expansions of trees that differ in origins only. Nothing is claimed once the path
function was called, which stands behind the client's resolvers. -/
def unseen (W : View) (rules : ExpansionRules σ) (alike : σ → σ → Prop) :
    Coupling (Session (Placed σ)) (Session σ) :=
  { related := fun s t => blind.history s.history = W.history t.history ∧
      alike s.client.1 t.client
    leftVoid := fun s => PathCalled rules.resolvers.length s.client.2
    rightVoid := fun _ => False
    forgiving := False }

section

variable {W : View} {rules : ExpansionRules σ} {alike : σ → σ → Prop}

theorem oneSided_unseen : (unseen W rules alike).OneSided := ⟨fun _ => id, id⟩

theorem seenHistory_unseen : (unseen W rules alike).SeenHistory W where
  oneSided := oneSided_unseen
  history _ _ h := h.1
  record _ _ location _ _ h hSame :=
    ⟨congrArg₂ List.cons (congrArg (Prod.mk location) hSame) h.1, h.2⟩
  leftVoid _ _ _ h := h

/-- A call more does not make a call of the path function undone. -/
theorem PathCalled.cons {n : Nat} {calls : List PlacedCall} (h : PathCalled n calls)
    (call : PlacedCall) : PathCalled n (call :: calls) :=
  h.imp fun _ hCall => ⟨List.mem_cons_of_mem _ hCall.1, hCall.2⟩

theorem alike_recording (leaf : Leaf) (place : Nat) {r : Resolver (Session (Placed σ))}
    {r' : Resolver (Session σ)} (h : Resolver.Alike (unseen W rules alike) W r r') :
    Resolver.Alike (unseen W rules alike) W (r.recording (callsFor leaf) place) r' := by
  intro request other hRequest
  have hPlain := h request other hRequest
  refine CoupledBy.of_run oneSided_unseen (fun s hs => ?_) fun s t hst => ?_
  · exact hPlain.keeps (called s leaf place request) (hs.cons _)
  · exact hPlain.run_cases oneSided_unseen (s := called s leaf place request) hst

theorem alike_recordingFrom (leaf : Leaf) {chain : List (Resolver (Session (Placed σ)))}
    {other : List (Resolver (Session σ))}
    (h : List.Forall₂ (Resolver.Alike (unseen W rules alike) W) chain other) :
    ∀ place : Nat, List.Forall₂ (Resolver.Alike (unseen W rules alike) W)
      (Resolver.recordingFrom (callsFor leaf) place chain) other := by
  induction h with
  | nil => exact fun _ => .nil
  | cons hHead _ ih =>
    exact fun place => .cons (alike_recording leaf place hHead) (ih (place + 1))

/-- Where the path function is not called, it declines. -/
theorem alike_recording_path (leaf : Leaf) : Resolver.Alike (unseen W rules alike) W
    (Resolver.path.recording (callsFor leaf) rules.resolvers.length)
    (Resolver.path : Resolver (Session σ)) := by
  intro request other hRequest
  refine CoupledBy.of_run oneSided_unseen (fun s hs => hs.cons _) fun s t hst => ?_
  rw [run_recording_callsFor]
  cases hCall : request.callOf? "path" with
  | some arg =>
    have hPath : (request.callOf? "path").isSome = true := hCall ▸ rfl
    exact .inl ⟨⟨leaf.location, request, s.history, _⟩, List.mem_cons_self, rfl, hPath⟩
  | none =>
    have hOther : other.callOf? "path" = none := by
      have hSeen : (request.callOf? "path").map blind.value =
          (other.callOf? "path").map W.value := by
        rw [← View.callOf?_request, ← View.callOf?_request, hRequest]
      rw [hCall] at hSeen
      exact Option.map_eq_none_iff.1 hSeen.symm
    rw [Resolver.path, Resolver.path, hCall, hOther]
    exact .inr ⟨rfl, hst⟩

-- ---------------------------------------------------------------------------
-- Chains
-- ---------------------------------------------------------------------------

theorem alike_ofClient {r : Resolver σ} (h : r.SeenBy W alike) :
    Resolver.Alike (unseen W rules alike) W (ofClient (r.beside (List PlacedCall)))
      (ofClient r) := by
  intro request other hRequest
  refine CoupledBy.of_run oneSided_unseen (fun s hs => hs) fun s t hst => .inr ?_
  obtain ⟨hResult, hState⟩ := h request other hRequest s.client.1 t.client hst.2
  exact ⟨hResult, hst.1, hState⟩

/-- Chains for leaves that look the same, with lookups that look the same. -/
theorem alike_chain
    (hRules : ∀ r ∈ rules.resolvers ++ rules.defaultResolvers, r.SeenBy W alike)
    {scope : Resolver (Session (Placed σ))} {otherScope : Resolver (Session σ)}
    (hScope : Resolver.Alike (unseen W rules alike) W scope otherScope)
    {leaf other : Leaf} (hLeaf : blind.leaf leaf = W.leaf other) :
    List.Forall₂ (Resolver.Alike (unseen W rules alike) W)
      (placedChain rules scope leaf) (chain rules otherScope other) := by
  have hClients : ∀ resolvers : List (Resolver σ), (∀ r ∈ resolvers, r.SeenBy W alike) →
      List.Forall₂ (Resolver.Alike (unseen W rules alike) W)
        ((resolvers.map (Resolver.beside (List PlacedCall))).map ofClient)
        (resolvers.map ofClient) := by
    intro resolvers hSeen
    rw [List.map_map, List.forall₂_map_left_iff, List.forall₂_map_right_iff]
    exact List.forall₂_same.2 fun r hr => alike_ofClient (hSeen r hr)
  have hReject : Resolver.Alike (unseen W rules alike) W (Resolver.reject (some leaf.originPath))
      (Resolver.reject (some other.originPath)) := by
    intro request request' hRequest
    rw [Resolver.reject, Resolver.reject, (Request.mk.inj hRequest).1, Leaf.originPath,
      Leaf.originPath, (Leaf.mk.inj hLeaf).1]
    exact CoupledBy.fail _
  rw [placedChain, chain_eq_append, chain_eq_append, Resolver.recordingFrom_append]
  -- the path function stands behind the client's resolvers, and the others behind it
  refine List.rel_append (alike_recordingFrom leaf ?_ 0)
    (.cons ?_ (alike_recordingFrom leaf ?_ _))
  · exact hClients rules.resolvers fun r hr => hRules r (List.mem_append_left _ hr)
  · simp only [ExpansionRules.mapResolvers, List.length_map, Nat.zero_add]
    exact alike_recording_path leaf
  · refine forall₂_behindPath rfl rfl rfl (Resolver.alike_envFunction rules.env) hScope
      (Resolver.alike_envVariable rules.env) ?_ hReject
    exact hClients rules.defaultResolvers fun r hr => hRules r (List.mem_append_right _ hr)

-- ---------------------------------------------------------------------------
-- Whole trees
-- ---------------------------------------------------------------------------

/-- Trees that look the same are expanded to values that do. -/
theorem alike_all
    (hRules : ∀ r ∈ rules.resolvers ++ rules.defaultResolvers, r.SeenBy W alike) {t u : Value}
    (hSame : blind.value t = W.value u) :
    CoupledBy (unseen W rules alike) W.valueLook.option
      ((ofValue t rules).placedAnswer .all) ((ofValue u rules).answer .all) := by
  have hC : (unseen W rules alike).SeenHistory W := seenHistory_unseen
  have hRoot : W.draftLook.Same (Draft.ofValue t) (Draft.ofValue u) :=
    (View.draft_ofValue t).trans ((congrArg Draft.ofValue hSame).trans (View.draft_ofValue u).symm)
  have hDepth : (Draft.ofValue t).deferredLeaves.length =
      (Draft.ofValue u).deferredLeaves.length := by
    have hSeen : (deferredLeaves (blind.draft (Draft.ofValue t))).length =
        (deferredLeaves (W.draft (Draft.ofValue u))).length :=
      congrArg (fun d => (deferredLeaves d).length) hRoot
    rwa [View.deferredLeaves_draft, View.deferredLeaves_draft, List.length_map,
      List.length_map] at hSeen
  have hLeaves : LeavesAlike (unseen W rules alike) W
      (resolveBy (placedChain rules) (Draft.ofValue t) (Draft.ofValue t).deferredLeaves.length none)
      (resolveBy (chain rules) (Draft.ofValue u) (Draft.ofValue u).deferredLeaves.length none) := by
    rw [← hDepth]
    refine alike_resolveBy hC hRoot (fun hScope leaf other hLeaf => ?_) _ none
    exact Resolver.alike_first hC.oneSided (alike_chain hRules hScope hLeaf)
  rw [answer_eq, placedAnswer, answerBy, answerBy, resolveLeaf, resolve_eq_resolveBy]
  exact (alike_complete hC.oneSided hLeaves hRoot).map hC.oneSided fun v w hv => congrArg some hv

end

/-- While the whole tree is expanded, no call of the path function gets as far as it. -/
def PathFree (x : Expansion σ) (s : Session σ) : Prop :=
  ¬ PathCalled x.rules.resolvers.length (x.placedCalls .all s)

instance (x : Expansion σ) (s : Session σ) : Decidable (x.PathFree s) :=
  inferInstanceAs (Decidable (¬ PathCalled x.rules.resolvers.length (x.placedCalls .all s)))

theorem fst_answer_all (t : Value) (rules : ExpansionRules σ) (c : σ) :
    (((ofValue t rules).answer .all).run (Session.start c)).1 =
      ((t.expand rules).run c).1.map some :=
  congrArg Prod.fst (run_answer_all (ofValue t rules) (Session.start c))

/-- Trees that look the same, expanded from client states that are alike. -/
theorem expand_alike {W : View} {alike : σ → σ → Prop} {rules : ExpansionRules σ}
    (hRules : ∀ r ∈ rules.resolvers ++ rules.defaultResolvers, r.SeenBy W alike) {t u : Value}
    (hSame : blind.value t = W.value u) {c d : σ} (hStart : alike c d)
    (hPath : (ofValue t rules).PathFree (Session.start c)) :
    ((t.expand rules).run c).1.map blind.value = ((u.expand rules).run d).1.map W.value := by
  have hRelated : (unseen W rules alike).related ⟨[], (c, [])⟩ (Session.start d) :=
    ⟨rfl, hStart⟩
  rcases (alike_all hRules hSame).run_cases oneSided_unseen hRelated with hVoid | ⟨hResult, -⟩
  · exact absurd hVoid hPath
  · have hPlaced : (((ofValue t rules).placedAnswer .all).run ⟨[], (c, [])⟩).1 =
        ((t.expand rules).run c).1.map some :=
      (congrArg Prod.fst (run_placedAnswer _ .all (Session.start c))).trans
        (fst_answer_all t rules c)
    have hSome : ∀ (V : View) (r : Except ConfigError Value),
        (r.map some).map (Option.map V.value) = (r.map V.value).map some := by
      intro V r
      cases r <;> rfl
    have hStrip : ∀ {r r' : Except ConfigError Value}, r.map some = r'.map some → r = r' := by
      intro r r' h
      cases r <;> cases r' <;> cases h <;> rfl
    rw [hPlaced, fst_answer_all] at hResult
    exact hStrip ((hSome blind _).symm.trans (hResult.trans (hSome W _)))

end Expansion

-- ---------------------------------------------------------------------------
-- Smart strings
-- ---------------------------------------------------------------------------

theorem Source.allLayers_smartStrings (world : World) (options : Options) (smart : Bool)
    (sources : List Source) :
    allLayers world { options with smartStrings := smart } sources =
      allLayers world options sources := by
  induction sources with
  | nil => rfl
  | cons source rest ih =>
    have hFirst : source.layers world { options with smartStrings := smart } =
        source.layers world options := by
      cases source <;> rfl
    rw [allLayers, allLayers, hFirst, ih]

namespace Setup

/-- The setup with smart strings or without. -/
def withSmartStrings (setup : Setup σ) (smart : Bool) : Setup σ :=
  { setup with options := { setup.options with smartStrings := smart } }

section

variable {setup : Setup σ} {world : World}

theorem fst_build_of_error {e : ConfigError}
    (h : Source.allLayers world setup.options setup.sources = .error e) (c : σ) :
    ((setup.build world).run c).1 = .error e := by
  rw [build, h]
  rfl

theorem fst_build_of_ok {layers : List Layer}
    (h : Source.allLayers world setup.options setup.sources = .ok layers) (c : σ) :
    ((setup.build world).run c).1 =
      (((merged setup.options layers).expand (setup.rules world.environment)).run c).1.map
        Configuration.mk := by
  rw [build, h]
  exact congrArg Prod.fst (run_map Configuration.mk _ c)

/-- Without calls of the path function, smart strings change nothing but origins. -/
theorem build_withSmartStrings {alike : σ → σ → Prop}
    (hRules : ∀ r ∈ setup.resolvers ++ setup.defaultResolvers, r.IgnoresOrigins alike)
    {c : σ} (hStart : alike c c)
    (hPath : ∀ layers, Source.allLayers world setup.options setup.sources = .ok layers →
      (setup.expansion world layers).PathFree (Session.start c)) (smart : Bool) :
    (((setup.withSmartStrings smart).build world).run c).1.map (fun tree => tree.value.bare) =
      ((setup.build world).run c).1.map (fun tree => tree.value.bare) := by
  have hLayers : Source.allLayers world (setup.withSmartStrings smart).options setup.sources =
      Source.allLayers world setup.options setup.sources :=
    Source.allLayers_smartStrings world setup.options smart setup.sources
  cases h : Source.allLayers world setup.options setup.sources with
  | error e => rw [fst_build_of_error h, fst_build_of_error (hLayers.trans h)]
  | ok layers =>
    have hSame := (bare_merged_smartStrings setup.options layers smart).symm
    have hValues := Expansion.expand_alike (W := blind) hRules hSame hStart (hPath layers h)
    have hBare : ∀ r : Except ConfigError Value,
        (r.map Configuration.mk).map (fun tree => tree.value.bare) = r.map Value.bare := by
      intro r
      cases r <;> rfl
    rw [fst_build_of_ok h, fst_build_of_ok (hLayers.trans h), hBare, hBare]
    exact hValues.symm

end

end Setup

-- ---------------------------------------------------------------------------
-- Without origins
-- ---------------------------------------------------------------------------

namespace Value

/-- **Nothing but the path function looks at origins.** As long as no call of it gets as far
as it, and the client's resolvers do not look at origins, a tree without its origins
expands to what the tree expands to, origins apart, or fails with the same error. Where the
client's resolvers do not bring in origins of their own, it expands to the same value
without its origins. A setup with such a tree may have smart strings or not: that changes no
text, no number, no key and no error of its configuration. -/
theorem expand_bare {alike : σ → σ → Prop} {rules : ExpansionRules σ}
    (hRules : ∀ r ∈ rules.resolvers ++ rules.defaultResolvers, r.IgnoresOrigins alike)
    {c : σ} (hStart : alike c c) {t : Value}
    (hPath : (Expansion.ofValue t rules).PathFree (Session.start c)) :
    ((t.bare.expand rules).run c).1.map Value.bare = ((t.expand rules).run c).1.map Value.bare ∧
      ((∀ r ∈ rules.resolvers ++ rules.defaultResolvers, r.AddsNoOrigins) →
        ((t.bare.expand rules).run c).1 = ((t.expand rules).run c).1.map Value.bare) ∧
      ∀ (setup : Setup σ) (world : World) (smart : Bool),
        setup.rules world.environment = rules →
        (∀ layers, Source.allLayers world setup.options setup.sources = .ok layers →
          Setup.merged setup.options layers = t) →
        (((setup.withSmartStrings smart).build world).run c).1.map (fun tree => tree.value.bare) =
          ((setup.build world).run c).1.map (fun tree => tree.value.bare) := by
  refine ⟨?_, fun hAdds => ?_, fun setup world smart hSetup hTree => ?_⟩
  · have hSame : blind.value t = blind.value t.bare := (View.value_bare t).symm
    exact (Expansion.expand_alike hRules hSame hStart hPath).symm
  · have hFull : ∀ r ∈ rules.resolvers ++ rules.defaultResolvers, r.SeenBy full alike :=
      fun r hr => (hRules r hr).seenBy_full (hAdds r hr)
    have hSame : blind.value t = full.value t.bare := (View.value_full t.bare).symm
    have hValues := Expansion.expand_alike hFull hSame hStart hPath
    have hId : ∀ r : Except ConfigError Value, r.map full.value = r := by
      intro r
      cases r with
      | error e => rfl
      | ok v => exact congrArg Except.ok (View.value_full v)
    rw [hId] at hValues
    exact hValues.symm
  · subst hSetup
    refine Setup.build_withSmartStrings hRules hStart (fun layers hLayers => ?_) smart
    rw [Setup.expansion, hTree layers hLayers]
    exact hPath

/-- Answers calls of `echo` with their arguments, and counts how often it is asked. -/
def echo : Resolver Nat := fun request count => (.ok (request.callOf? "echo"), count + 1)

theorem ignoresOrigins_echo : echo.IgnoresOrigins Eq := by
  rintro request other hSame c _ rfl
  have hAnswer : (request.callOf? "echo").map Value.bare =
      (other.callOf? "echo").map Value.bare := by
    have hBlind : blind.request request = blind.request other := hSame
    have hSeen := congrArg (fun r => Request.callOf? r "echo") hBlind
    rwa [View.callOf?_request, View.callOf?_request] at hSeen
  exact ⟨congrArg Except.ok hAnswer, rfl⟩

theorem addsNoOrigins_echo : echo.AddsNoOrigins := by
  intro request c v hRun
  have hSome : request.bare.callOf? "echo" = some v := Except.ok.inj hRun
  have hSeen : (request.callOf? "echo").map blind.value = some v :=
    (View.callOf?_request (V := blind) request "echo").symm.trans hSome
  obtain ⟨arg, -, rfl⟩ := Option.map_eq_some_iff.1 hSeen
  exact View.value_bare (V := blind) arg

/-- Layers of different directories. The text `a` is a call whose argument is a reference. -/
def echoingLayers : List Layer :=
  [⟨.table [("a", ofString "$\x7becho:$\x7bb\x7d\x7d"), ("b", .seq [ofString "x"])],
      some "/first"⟩,
    ⟨.table [("b", .seq [ofString "y"])], some "/second"⟩]

def echoing : Setup Nat :=
  { sources := echoingLayers.map Source.given
    options := Options.default
    resolvers := [echo]
    defaultResolvers := []
    env := some fun _ => none }

def echoingRules : ExpansionRules Nat := echoing.rules Setup.bareWorld.environment

def echoingList : Value :=
  .seq [.leaf (.text ⟨"x", some "/first"⟩), .leaf (.text ⟨"y", some "/second"⟩)]

def echoingTree : Value :=
  .table [("a", .leaf (.text ⟨"$\x7becho:$\x7bb\x7d\x7d", some "/first"⟩)), ("b", echoingList)]

def echoingTreeExpanded : Value := .table [("a", echoingList), ("b", echoingList)]

/-- Origins get into the list `a` by way of an argument. Without them, and without smart
strings, nothing else changes. -/
theorem expand_bare_echoing :
    (∀ r ∈ echoingRules.resolvers ++ echoingRules.defaultResolvers, r.IgnoresOrigins Eq) ∧
      (Expansion.ofValue echoingTree echoingRules).PathFree (Session.start 0) ∧
      ((echoingTree.expand echoingRules).run 0).1 = .ok echoingTreeExpanded ∧
      ((echoingTree.bare.expand echoingRules).run 0).1 = .ok echoingTreeExpanded.bare ∧
      (((echoing.withSmartStrings false).build Setup.bareWorld).run 0).1.map
        (fun tree => tree.value.bare) = .ok echoingTreeExpanded.bare := by
  have hRules : ∀ r ∈ echoingRules.resolvers ++ echoingRules.defaultResolvers,
      r.IgnoresOrigins Eq := by
    intro r hr
    cases List.mem_singleton.1 hr
    exact ignoresOrigins_echo
  have hAdds : ∀ r ∈ echoingRules.resolvers ++ echoingRules.defaultResolvers,
      r.AddsNoOrigins := by
    intro r hr
    cases List.mem_singleton.1 hr
    exact addsNoOrigins_echo
  have hPath : (Expansion.ofValue echoingTree echoingRules).PathFree (Session.start 0) := by
    decide +kernel
  have hExpand : ((echoingTree.expand echoingRules).run 0).1 = .ok echoingTreeExpanded := by cbv
  have hLayers : Source.allLayers Setup.bareWorld echoing.options echoing.sources =
      .ok echoingLayers := rfl
  obtain ⟨-, hBare, hSetup⟩ := expand_bare hRules (c := 0) rfl hPath
  refine ⟨hRules, hPath, hExpand, (hBare hAdds).trans ?_, ?_⟩
  · rw [hExpand]
    rfl
  · have hTree : ∀ layers, Source.allLayers Setup.bareWorld echoing.options echoing.sources =
        .ok layers → Setup.merged echoing.options layers = echoingTree := by
      intro layers h
      rw [← Except.ok.inj (hLayers.symm.trans h)]
      rfl
    have hValue := Setup.fst_build_of_ok hLayers 0
    rw [hTree echoingLayers hLayers, ← echoingRules, hExpand] at hValue
    rw [hSetup echoing Setup.bareWorld false rfl hTree, hValue]
    rfl

/-- Answers a name with a table, the text in which has an origin. -/
def annotating : Resolver Unit := fun request =>
  pure (if request.expression = "x" then some (.table [("k", .leaf (.text ⟨"a", some "/d"⟩))])
    else none)

def annotatingRules : ExpansionRules Unit :=
  { ExpansionRules.treeOnly with resolvers := [annotating] }

def annotatedTree : Value := .table [("y", ofString "$\x7bx\x7d")]

/-- Without its origins, a tree may still expand to a value with some. -/
theorem not_expand_bare_eq :
    ¬ ∀ (rules : ExpansionRules Unit) (t : Value),
      (∀ r ∈ rules.resolvers ++ rules.defaultResolvers, r.IgnoresOrigins Eq) →
      (Expansion.ofValue t rules).PathFree (Session.start ()) →
      ((t.bare.expand rules).run ()).1 = ((t.expand rules).run ()).1.map Value.bare := by
  intro h
  have hRules : ∀ r ∈ annotatingRules.resolvers ++ annotatingRules.defaultResolvers,
      r.IgnoresOrigins Eq := by
    intro r hr
    cases List.mem_singleton.1 hr
    rintro request other hSame c _ rfl
    have hExpression : request.expression = other.expression := (Request.mk.inj hSame).1
    rw [annotating, annotating, hExpression]
    exact ⟨rfl, rfl⟩
  have hExpand : ((annotatedTree.expand annotatingRules).run ()).1 =
      .ok (.table [("y", .table [("k", .leaf (.text ⟨"a", some "/d"⟩))])]) := by cbv
  have hSame := h annotatingRules annotatedTree hRules (by decide +kernel)
  rw [show annotatedTree.bare = annotatedTree from rfl, hExpand] at hSame
  cases hSame

end Value

end LayeredConfig
