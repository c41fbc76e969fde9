import LayeredConfig.Proofs.Lookup
import LayeredConfig.Proofs.Template

/-!
# LayeredConfig — laws of resolving

What resolving a leaf does to the history is a matter of three events: a pending
leaf is put under evaluation, and a leaf under evaluation becomes resolved or
pending again. A property of histories that these events keep is kept by every
call (`Expansion.keeps_resolve`).

* `Expansion.Matching`          — rules whose resolvers are coupled.
* `Expansion.chain_eq_append`   — the resolvers in front of the path function and
  those behind it.
* `Expansion.interpolateLeaf`   — the value of a leaf's text, given a scope.
* `Expansion.evaluation`        — what the evaluation of a leaf runs.
* `Expansion.keeps_evaluating`  — a leaf under evaluation stays so.
* `Expansion.KeptByEvents`      — what the three events keep.
* `Expansion.faithful_resolve`, `Expansion.recalls_resolve` — resolved leaves are
  recorded, and looked up when they are requested again.
-/

namespace LayeredConfig

open Eval History

/-- Answers alike in every state of the client. -/
def Resolver.Functional (r : Resolver σ) : Prop :=
  ∀ request c d, ((r request).run c).1 = ((r request).run d).1

/-- The client's resolvers are functions of what they are asked. -/
def ExpansionRules.Functional (rules : ExpansionRules σ) : Prop :=
  ∀ r ∈ rules.resolvers ++ rules.defaultResolvers, r.Functional

/-- References to paths in the tree, and no others. -/
def ExpansionRules.treeOnly : ExpansionRules Unit :=
  { resolvers := []
    defaultResolvers := []
    expandVars := true
    expandEnv := false
    allowUndefined := false
    env := fun _ => none }

theorem ExpansionRules.functional_treeOnly : treeOnly.Functional := fun _ h =>
  absurd h List.not_mem_nil

/-- The rules with the client's resolvers changed. -/
def ExpansionRules.mapResolvers (f : Resolver σ → Resolver τ) (rules : ExpansionRules σ) :
    ExpansionRules τ :=
  { resolvers := rules.resolvers.map f
    defaultResolvers := rules.defaultResolvers.map f
    expandVars := rules.expandVars
    expandEnv := rules.expandEnv
    allowUndefined := rules.allowUndefined
    env := rules.env }

theorem ExpansionRules.exists_of_mem_mapResolvers {f : Resolver σ → Resolver τ}
    {rules : ExpansionRules σ} {r' : Resolver τ}
    (h : r' ∈ (rules.mapResolvers f).resolvers ++ (rules.mapResolvers f).defaultResolvers) :
    ∃ r ∈ rules.resolvers ++ rules.defaultResolvers, f r = r' := by
  rw [mapResolvers, ← List.map_append] at h
  exact List.mem_map.1 h

namespace Expansion

open Draft

-- ---------------------------------------------------------------------------
-- Chains
-- ---------------------------------------------------------------------------

/-- Rules that differ only in the client's resolvers, and those are coupled. -/
structure Matching (C : Coupling (Session σ) (Session τ)) (rules : ExpansionRules σ)
    (others : ExpansionRules τ) : Prop where
  resolvers : C.Chains (rules.resolvers.map ofClient) (others.resolvers.map ofClient)
  defaults : C.Chains (rules.defaultResolvers.map ofClient) (others.defaultResolvers.map ofClient)
  expandVars : rules.expandVars = others.expandVars
  expandEnv : rules.expandEnv = others.expandEnv
  allowUndefined : rules.allowUndefined = others.allowUndefined
  env : rules.env = others.env

theorem matching_map {C : Coupling (Session σ) (Session τ)} {rules : ExpansionRules σ}
    {f : Resolver σ → Resolver τ}
    (h : ∀ r ∈ rules.resolvers ++ rules.defaultResolvers, ∀ request,
      Coupled C (ofClient r request) (ofClient (f r) request)) :
    Matching C rules (rules.mapResolvers f) := by
  have hClient : ∀ resolvers : List (Resolver σ),
      (∀ r ∈ resolvers, r ∈ rules.resolvers ++ rules.defaultResolvers) →
        C.Chains (resolvers.map ofClient) ((resolvers.map f).map ofClient) := by
    intro resolvers hIn
    rw [List.map_map, Coupling.Chains, List.forall₂_map_left_iff, List.forall₂_map_right_iff]
    exact List.forall₂_same.2 fun r hr => h r (hIn r hr)
  exact ⟨hClient _ fun _ => List.mem_append_left _, hClient _ fun _ => List.mem_append_right _,
    rfl, rfl, rfl, rfl⟩

theorem matching_self {C : Coupling (Session σ) (Session σ)} {rules : ExpansionRules σ}
    (h : ∀ r ∈ rules.resolvers ++ rules.defaultResolvers, ∀ request,
      Coupled C (ofClient r request) (ofClient r request)) : Matching C rules rules := by
  have hMatching := matching_map (f := fun r => r) h
  rwa [ExpansionRules.mapResolvers, List.map_id', List.map_id'] at hMatching

theorem coupled_onClient {C : Coupling (Session σ) (Session τ)} {x : Eval σ α} {y : Eval τ α}
    (hLeft : (Session.onClient x).Keeps C.leftVoid)
    (hRight : (Session.onClient y).Keeps C.rightVoid)
    (hSame : ∀ c d, (x.run c).1 = (y.run d).1)
    (hRelated : ∀ s t, C.related s t →
      C.related ((Session.onClient x).run s).2 ((Session.onClient y).run t).2) :
    Coupled C (Session.onClient x) (Session.onClient y) :=
  ⟨hLeft, hRight, fun s t h => .inr (.inr (.inr ⟨hSame s.client t.client, hRelated s t h⟩))⟩

/-- A property of histories is kept by all of the client's resolvers. -/
theorem matching_history (I : History → Prop) (rules : ExpansionRules σ) :
    Matching (Coupling.diagonal fun s : Session σ => I s.history) rules rules :=
  matching_self fun r _ request =>
    keeps_iff_coupled.1 (Session.keeps_onClient I (r request))

/-- The resolvers of a chain that stand behind the path function. -/
def behindPath (rules : ExpansionRules σ) (scope : Resolver (Session σ)) (leaf : Leaf) :
    List (Resolver (Session σ)) :=
  (if rules.expandEnv then [Resolver.envFunction rules.env] else [])
    ++ (if rules.expandVars then [scope] else [])
    ++ (if rules.expandEnv then [Resolver.envVariable rules.env] else [])
    ++ rules.defaultResolvers.map ofClient
    ++ (if rules.allowUndefined then [] else [Resolver.reject (some leaf.originPath)])

/-- The first resolvers of a chain are the client's, and the next one is the path
function. -/
theorem chain_eq_append (rules : ExpansionRules σ) (scope : Resolver (Session σ)) (leaf : Leaf) :
    chain rules scope leaf =
      rules.resolvers.map ofClient ++ Resolver.path :: behindPath rules scope leaf := by
  simp only [chain, behindPath, List.append_assoc, List.cons_append, List.nil_append]

/-- Chains are related behind the path function as the resolvers there are. -/
theorem forall₂_behindPath {R : Resolver (Session σ) → Resolver (Session τ) → Prop}
    {rules : ExpansionRules σ} {others : ExpansionRules τ} {scope : Resolver (Session σ)}
    {otherScope : Resolver (Session τ)} {leaf other : Leaf}
    (hVars : rules.expandVars = others.expandVars) (hEnv : rules.expandEnv = others.expandEnv)
    (hUndefined : rules.allowUndefined = others.allowUndefined)
    (hFunction : R (Resolver.envFunction rules.env) (Resolver.envFunction others.env))
    (hScope : R scope otherScope)
    (hVariable : R (Resolver.envVariable rules.env) (Resolver.envVariable others.env))
    (hDefaults : List.Forall₂ R (rules.defaultResolvers.map ofClient)
      (others.defaultResolvers.map ofClient))
    (hReject : R (Resolver.reject (some leaf.originPath))
      (Resolver.reject (some other.originPath))) :
    List.Forall₂ R (behindPath rules scope leaf) (behindPath others otherScope other) := by
  have hOne : ∀ {r : Resolver (Session σ)} {r' : Resolver (Session τ)} (b : Bool), R r r' →
      List.Forall₂ R (if b then [r] else []) (if b then [r'] else []) := by
    intro r r' b hr
    cases b with
    | false => exact .nil
    | true => exact .cons hr .nil
  rw [behindPath, behindPath, hVars, hEnv, hUndefined]
  -- from the back of the chain to its front
  refine List.rel_append ?_ ?_
  · refine List.rel_append ?_ hDefaults
    refine List.rel_append ?_ (hOne _ hVariable)
    exact List.rel_append (hOne _ hFunction) (hOne _ hScope)
  · cases others.allowUndefined with
    | true => exact .nil
    | false => exact .cons hReject .nil

theorem coupled_chain {C : Coupling (Session σ) (Session τ)} {rules : ExpansionRules σ}
    {others : ExpansionRules τ} (h : Matching C rules others) {scope : Resolver (Session σ)}
    {otherScope : Resolver (Session τ)}
    (hScope : ∀ request, Coupled C (scope request) (otherScope request)) (leaf : Leaf) :
    C.Chains (chain rules scope leaf) (chain others otherScope leaf) := by
  rw [chain_eq_append, chain_eq_append]
  refine List.rel_append h.resolvers (.cons (fun _ => Coupled.pure _) ?_)
  refine forall₂_behindPath h.expandVars h.expandEnv h.allowUndefined ?_ hScope ?_ h.defaults
    fun _ => Coupled.fail _
  · rw [h.env]
    exact fun _ => Coupled.pure _
  · rw [h.env]
    exact fun _ => Coupled.pure _

/-- The value of a leaf's text, where patterns are answered by `scope`. -/
def interpolateLeaf (rules : ExpansionRules σ) (scope : Resolver (Session σ)) (leaf : Leaf) :
    Eval (Session σ) Value :=
  Template.interpolate (chain rules scope leaf) (some leaf.raw) leaf.raw.text

theorem coupled_interpolateLeaf {C : Coupling (Session σ) (Session τ)} {rules : ExpansionRules σ}
    {others : ExpansionRules τ} (h : Matching C rules others) {scope : Resolver (Session σ)}
    {otherScope : Resolver (Session τ)}
    (hScope : ∀ request, Coupled C (scope request) (otherScope request)) (leaf : Leaf) :
    Coupled C (interpolateLeaf rules scope leaf) (interpolateLeaf others otherScope leaf) :=
  Template.coupled_interpolate (coupled_chain h hScope leaf) (some leaf.raw) leaf.raw.text

theorem coupled_scope {C : Coupling (Session σ) (Session τ)} {resolveLeaf : LeafResolver σ}
    {otherLeaf : LeafResolver τ} {root : Draft}
    (h : ∀ pattern, Coupled C (valueAt resolveLeaf root pattern) (valueAt otherLeaf root pattern))
    (request : Request) :
    Coupled C (scope resolveLeaf root request) (scope otherLeaf root request) := by
  rw [scope, scope]
  split
  · exact Coupled.pure none
  · cases Pattern.parse request.expression with
    | error reason => exact Coupled.pure none
    | ok pattern => exact h pattern

-- ---------------------------------------------------------------------------
-- Requests
-- ---------------------------------------------------------------------------

/-- What the evaluation of a leaf runs. -/
def evaluation (rules : ExpansionRules σ) (root : Draft) (depth : Nat) (leaf : Leaf) :
    Eval (Session σ) Value :=
  interpolateLeaf rules (scope (resolve rules root depth (some leaf.location)) root) leaf

theorem resolve_succ (rules : ExpansionRules σ) (root : Draft) (depth : Nat)
    (trigger : Option Location) (leaf : Leaf) :
    resolve rules root (depth + 1) trigger leaf =
      request (evaluation rules root depth leaf) trigger leaf := rfl

section

variable {x : Eval (Session σ) Value} {trigger other : Option Location} {leaf : Leaf}
  {s : Session σ}

theorem run_circular (trigger : Option Location) (leaf : Leaf) (s : Session σ) :
    (circular trigger leaf).run s =
      (.error (.circularReference (s.history.cycleTrace trigger leaf.location)), s) := rfl

theorem run_request_of_resolved {v : Value} (h : s.history.progress leaf.location = .resolved v) :
    (request x trigger leaf).run s = (.ok v, s) := by
  rw [request, run_bind, Session.run_currentHistory]
  simp only [h, run_pure]

theorem run_request_of_evaluating (h : s.history.progress leaf.location = .evaluating other) :
    (request x trigger leaf).run s = (circular trigger leaf).run s := by
  rw [request, run_bind, Session.run_currentHistory]
  simp only [h]

theorem run_request_of_pending (h : s.history.progress leaf.location = .pending) :
    (request x trigger leaf).run s = (evaluate x trigger leaf).run s := by
  rw [request, run_bind, Session.run_currentHistory]
  simp only [h]

/-- The session in which a leaf is evaluated. -/
def begun (s : Session σ) (trigger : Option Location) (leaf : Leaf) : Session σ :=
  s.recorded leaf.location (.evaluating trigger)

theorem run_evaluate_of_ok {s' : Session σ} {w : Value}
    (h : x.run (begun s trigger leaf) = (.ok w, s')) :
    (evaluate x trigger leaf).run s =
      (.ok (withOriginOf leaf w), s'.recorded leaf.location (.resolved (withOriginOf leaf w))) := by
  rw [evaluate, run_bind_of_ok (Session.run_record _ _ s), run_bind, run_attempt, ← begun, h]
  rfl

theorem run_evaluate_of_error {s' : Session σ} {e : ConfigError}
    (h : x.run (begun s trigger leaf) = (.error e, s')) :
    (evaluate x trigger leaf).run s = (.error e, s'.recorded leaf.location .pending) := by
  rw [evaluate, run_bind_of_ok (Session.run_record _ _ s), run_bind, run_attempt, ← begun, h]
  rfl

/-- All that a request can come to: the value is known, the leaf is under evaluation
already, or it is pending and its evaluation fails or gives a value. -/
theorem run_request_cases (x : Eval (Session σ) Value) (trigger : Option Location) (leaf : Leaf)
    (s : Session σ) :
    (∃ v, s.history.progress leaf.location = .resolved v ∧
      (request x trigger leaf).run s = (.ok v, s)) ∨
    (∃ other, s.history.progress leaf.location = .evaluating other ∧
      (request x trigger leaf).run s =
        (.error (.circularReference (s.history.cycleTrace trigger leaf.location)), s)) ∨
    (s.history.progress leaf.location = .pending ∧
      ((∃ e s', x.run (begun s trigger leaf) = (.error e, s') ∧
        (request x trigger leaf).run s = (.error e, s'.recorded leaf.location .pending)) ∨
      ∃ w s', x.run (begun s trigger leaf) = (.ok w, s') ∧
        (request x trigger leaf).run s =
          (.ok (withOriginOf leaf w),
            s'.recorded leaf.location (.resolved (withOriginOf leaf w))))) := by
  cases hProgress : s.history.progress leaf.location with
  | resolved v => exact .inl ⟨v, rfl, run_request_of_resolved hProgress⟩
  | evaluating other => exact .inr (.inl ⟨other, rfl, run_request_of_evaluating hProgress⟩)
  | pending =>
    refine .inr (.inr ⟨rfl, ?_⟩)
    rw [run_request_of_pending hProgress]
    rcases hRun : x.run (begun s trigger leaf) with ⟨r, s'⟩
    cases r with
    | error e => exact .inl ⟨e, s', rfl, run_evaluate_of_error hRun⟩
    | ok w => exact .inr ⟨w, s', rfl, run_evaluate_of_ok hRun⟩

end

-- ---------------------------------------------------------------------------
-- Events
-- ---------------------------------------------------------------------------

section

variable {rules : ExpansionRules σ} {root : Draft}

theorem keeps_scope {I : Session σ → Prop} {resolveLeaf : LeafResolver σ}
    (h : ∀ leaf ∈ root.deferredLeaves, (resolveLeaf leaf).Keeps I) (request : Request) :
    (scope resolveLeaf root request).Keeps I :=
  keeps_iff_coupled.2
    (coupled_scope (fun _ => keeps_iff_coupled.1 (keeps_valueAt h)) request)

theorem keeps_evaluation {I : History → Prop} {depth : Nat} {leaf : Leaf}
    (h : ∀ other ∈ root.deferredLeaves,
      (resolve rules root depth (some leaf.location) other).Keeps (fun s => I s.history)) :
    (evaluation rules root depth leaf).Keeps (fun s => I s.history) := by
  exact keeps_iff_coupled.2
    (coupled_interpolateLeaf (matching_history I rules)
      (fun request => keeps_iff_coupled.1 (keeps_scope h request)) leaf)

theorem keeps_circular (I : Session σ → Prop) (trigger : Option Location) (leaf : Leaf) :
    (circular trigger leaf : Eval (Session σ) Value).Keeps I :=
  Keeps.of_unchanged fun s => by rw [run_circular]

/-- What the start, the failure and the success of an evaluation keep, a request
keeps. -/
theorem keeps_request {I : History → Prop} {x : Eval (Session σ) Value} {trigger : Option Location}
    {leaf : Leaf} (hBody : x.Keeps (fun s => I s.history))
    (hBegun : ∀ s : Session σ, I s.history → s.history.progress leaf.location = .pending →
      I (begun s trigger leaf).history)
    (hFailed : ∀ s e s', x.run (begun s trigger leaf) = (.error e, s') → I s'.history →
      I ((leaf.location, .pending) :: s'.history))
    (hDone : ∀ s w s', x.run (begun s trigger leaf) = (.ok w, s') → I s'.history →
      I ((leaf.location, .resolved (withOriginOf leaf w)) :: s'.history)) :
    (request x trigger leaf).Keeps (fun s => I s.history) := by
  intro s hs
  rcases run_request_cases x trigger leaf s with
    ⟨v, -, hRun⟩ | ⟨other, -, hRun⟩ | ⟨hPending, hEnd⟩
  · rw [hRun]
    exact hs
  · rw [hRun]
    exact hs
  · -- the only case with events: one at the start and one at the end
    have hStart := hBegun s hs hPending
    rcases hEnd with ⟨e, s', hFail, hRun⟩ | ⟨w, s', hOk, hRun⟩
    · rw [hRun]
      exact hFailed s e s' hFail (hBody.of_run hFail hStart)
    · rw [hRun]
      exact hDone s w s' hOk (hBody.of_run hOk hStart)

/-- A leaf under evaluation stays so, whatever else is requested. -/
theorem keeps_evaluating (location : Location) (started : Option Location) (depth : Nat) :
    ∀ (trigger : Option Location) (leaf : Leaf), (resolve rules root depth trigger leaf).Keeps
      (fun s => s.history.progress location = .evaluating started) := by
  -- events of other leaves do not matter, and the leaf itself has none while
  -- it is under evaluation
  have hRequest : ∀ {x : Eval (Session σ) Value} (trigger : Option Location) (leaf : Leaf),
      x.Keeps (fun s => s.history.progress location = .evaluating started) →
        (request x trigger leaf).Keeps
          (fun s => s.history.progress location = .evaluating started) := by
    intro x trigger leaf hBody
    by_cases hSame : leaf.location = location
    · intro s hs
      have hLeaf : s.history.progress leaf.location = .evaluating started := hSame ▸ hs
      rw [run_request_of_evaluating hLeaf]
      exact hs
    · exact keeps_request (I := fun h => h.progress location = .evaluating started) hBody
        (fun s hs _ => (progress_cons_of_ne hSame _ _).trans hs)
        (fun s e s' _ hs' => (progress_cons_of_ne hSame _ _).trans hs')
        (fun s w s' _ hs' => (progress_cons_of_ne hSame _ _).trans hs')
  induction depth with
  | zero => exact fun trigger leaf => hRequest trigger leaf (keeps_circular _ trigger leaf)
  | succ depth ih =>
    intro trigger leaf
    exact hRequest trigger leaf
      (keeps_evaluation (I := fun h => h.progress location = .evaluating started)
        fun other _ => ih (some leaf.location) other)

/-- After the evaluation of a leaf the leaf is still under evaluation. -/
theorem progress_after_evaluation {depth : Nat} {trigger : Option Location} {leaf : Leaf}
    {s s' : Session σ} {r : Except ConfigError Value}
    (h : (evaluation rules root depth leaf).run (begun s trigger leaf) = (r, s')) :
    s'.history.progress leaf.location = .evaluating trigger :=
  Keeps.of_run (keeps_evaluation (I := fun h => h.progress leaf.location = .evaluating trigger)
    fun other _ => keeps_evaluating leaf.location trigger depth (some leaf.location) other) h
    (progress_cons_self _ _ _)

/-- What the events keep that evaluations of the leaves of a draft bring about. -/
structure KeptByEvents (rules : ExpansionRules σ) (root : Draft) (I : History → Prop) : Prop where
  started : ∀ leaf ∈ root.deferredLeaves, ∀ (trigger : Option Location) (h : History),
    I h → h.progress leaf.location = .pending → I ((leaf.location, .evaluating trigger) :: h)
  failed : ∀ leaf ∈ root.deferredLeaves, ∀ (trigger : Option Location) (h : History),
    I h → h.progress leaf.location = .evaluating trigger → I ((leaf.location, .pending) :: h)
  succeeded : ∀ leaf ∈ root.deferredLeaves, ∀ depth trigger s w s',
    (evaluation rules root depth leaf).run (begun s trigger leaf) = (.ok w, s') →
      I s'.history → s'.history.progress leaf.location = .evaluating trigger →
        I ((leaf.location, .resolved (withOriginOf leaf w)) :: s'.history)

/-- What the events keep, every call keeps. -/
theorem keeps_resolve {I : History → Prop} (h : KeptByEvents rules root I) (depth : Nat) :
    ∀ (trigger : Option Location), ∀ leaf ∈ root.deferredLeaves,
      (resolve rules root depth trigger leaf).Keeps (fun s => I s.history) := by
  induction depth with
  | zero =>
    -- an evaluation that only reports the cycle
    intro trigger leaf hLeaf
    refine keeps_request (keeps_circular _ trigger leaf)
      (fun s hs hPending => h.started leaf hLeaf trigger s.history hs hPending) ?_ ?_
    · intro s e s' hRun hs'
      cases hRun
      exact h.failed leaf hLeaf trigger _ hs' (progress_cons_self _ _ _)
    · intro s w s' hRun
      cases hRun
  | succ depth ih =>
    intro trigger leaf hLeaf
    refine keeps_request (keeps_evaluation fun other hOther => ih (some leaf.location) other hOther)
      (fun s hs hPending => h.started leaf hLeaf trigger s.history hs hPending) ?_ ?_
    · intro s e s' hRun hs'
      exact h.failed leaf hLeaf trigger _ hs' (progress_after_evaluation hRun)
    · intro s w s' hRun hs'
      exact h.succeeded leaf hLeaf depth trigger s w s' hRun hs' (progress_after_evaluation hRun)

-- ---------------------------------------------------------------------------
-- Records
-- ---------------------------------------------------------------------------

theorem precedes_kept (earlier : History) : KeptByEvents rules root earlier.Precedes where
  started _ _ trigger _ h hPending := h.cons (value?_of_pending hPending) (.evaluating trigger)
  failed _ _ _ _ h hEvaluating := h.cons (value?_of_evaluating hEvaluating) .pending
  succeeded _ _ _ _ _ _ _ _ h hEvaluating := h.cons (value?_of_evaluating hEvaluating) _

theorem run_resolve_of_evaluating {depth : Nat} {trigger other : Option Location} {leaf : Leaf}
    {s : Session σ} (h : s.history.progress leaf.location = .evaluating other) :
    (resolve rules root depth trigger leaf).run s =
      (.error (.circularReference (s.history.cycleTrace trigger leaf.location)), s) := by
  cases depth with
  | zero => exact run_request_of_evaluating h
  | succ depth => exact run_request_of_evaluating h

theorem recalls_resolve (depth : Nat) (trigger : Option Location) :
    Recalls (resolve rules root depth trigger) := by
  intro leaf s v h
  have hResolved := value?_eq_some_iff.1 h
  cases depth with
  | zero => exact run_request_of_resolved hResolved
  | succ depth => exact run_request_of_resolved hResolved

/-- A request that gives a value has it recorded. -/
theorem request_records {x : Eval (Session σ) Value} {trigger : Option Location} {leaf : Leaf}
    {s s' : Session σ} {v : Value} (h : (request x trigger leaf).run s = (.ok v, s')) :
    s'.history.leafValue? leaf = some v := by
  rcases run_request_cases x trigger leaf s with
    ⟨w, hResolved, hRun⟩ | ⟨other, -, hRun⟩ | ⟨-, ⟨e, s₁, -, hRun⟩ | ⟨w, s₁, -, hRun⟩⟩
  · rw [hRun] at h
    cases h
    exact value?_eq_some_iff.2 hResolved
  · rw [hRun] at h
    cases h
  · rw [hRun] at h
    cases h
  · rw [hRun] at h
    cases h
    exact value?_cons_self _ _ _

theorem faithful_resolve (depth : Nat) (trigger : Option Location) :
    Faithful (resolve rules root depth trigger) root where
  grows leaf hLeaf earlier := keeps_resolve (precedes_kept earlier) depth trigger leaf hLeaf
  records leaf _ s v s' h := by
    cases depth with
    | zero => exact request_records h
    | succ depth => exact request_records h

theorem scope_precedes {resolveLeaf : LeafResolver σ} (h : Faithful resolveLeaf root)
    {request : Request} {s s' : Session σ} {r : Except ConfigError (Option Value)}
    (hRun : (scope resolveLeaf root request).run s = (r, s')) : s.history.Precedes s'.history :=
  Session.precedes_of_keeps
    (fun earlier => keeps_scope (fun leaf hLeaf => h.grows leaf hLeaf earlier) request) hRun

end

end Expansion

end LayeredConfig
