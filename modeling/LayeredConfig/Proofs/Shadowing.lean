import LayeredConfig.Proofs.Independence
import LayeredConfig.Proofs.PathNames
import LayeredConfig.Proofs.SameCalls

/-!
# LayeredConfig — paths and environment variables of the same name

A reference `${N}` gets to the scope before it gets to the environment variables. Where `N`
is a path of the tree the scope has a value for it, or fails; it never declines. So the
variable `N` is not looked at, whatever else the tree is made of. The other way to it is a call
`${env:N}`, whose function stands before the scope.

Two environments that agree on all other variables are run side by side. The chains are the
same but for what they do with a request for `N`, and there the scope stands between.

* `ExpansionRules.withEnv`       — rules with another environment.
* `Expansion.EnvCalled`          — a call of the environment function for a name.
* `Expansion.run_scope_ne_none`  — the scope does not decline a path of the tree.
* `Expansion.coupled_first_withEnv` — the chains in two environments.
* `Value.expand_withEnv`         — a path of the tree shadows the variable of its name.
-/

namespace LayeredConfig

open Eval

/-- The rules with another environment. -/
def ExpansionRules.withEnv (rules : ExpansionRules σ) (env : EnvLookup) : ExpansionRules σ :=
  { rules with env := env }

/-- Chains with coupled heads are coupled on a request if the rest is, where a head can
decline. -/
theorem Resolver.coupled_first_cons {C : Coupling σ τ} {r : Resolver σ} {r' : Resolver τ}
    {request : Request} (h : Coupled C (r request) (r' request)) {rest : List (Resolver σ)}
    {rest' : List (Resolver τ)}
    (hRest : ((∃ s s', (r request).run s = (.ok none, s')) ∨
      ∃ t t', (r' request).run t = (.ok none, t')) →
        Coupled C (first rest request) (first rest' request)) :
    Coupled C (first (r :: rest) request) (first (r' :: rest') request) := by
  refine h.bind_of_run fun answer hAnswer => ?_
  cases answer with
  | none => exact hRest hAnswer
  | some v => exact Coupled.pure (some v)

namespace Expansion

open Draft

-- ---------------------------------------------------------------------------
-- The scope at a path of the tree
-- ---------------------------------------------------------------------------

section

variable {resolveLeaf : LeafResolver σ} {t node : Value} {path : KeyPath}

/-- A path that leads on from leaf to leaf in a tree is followed in its draft without a
request for any of them. -/
theorem exists_follow_ofValueAt (h : t.follow? path = some node) (location : Location) :
    ∃ d, follow resolveLeaf path (ofValueAt location t) = pure (some d) := by
  induction path generalizing t location with
  | nil => exact ⟨ofValueAt location t, rfl⟩
  | cons segment rest ih =>
    obtain ⟨next, hNext, hRest⟩ := Option.bind_eq_some_iff.1 h
    obtain ⟨step, hSpelled, hBelow⟩ := Tree.child?_eq_some_iff.1 hNext
    have hChild : (ofValueAt location t).child? segment =
        some (ofValueAt (location ++ [step]) next) :=
      Tree.child?_eq_some_iff.2 ⟨step, hSpelled, below?_ofValueAt location hBelow⟩
    have hNoLeaf : ∀ leaf, ofValueAt location t ≠ .leaf (.deferred leaf) := by
      intro leaf hLeaf
      rw [hLeaf] at hChild
      cases hChild
    rw [follow_of_child? hNoLeaf, hChild]
    exact ih hRest (location ++ [step])

/-- The scope does not decline a path of the tree. -/
theorem run_scope_ne_none (hPath : path.Plain) (h : t.get? path = some node)
    (subject : Option Text) (s s' : Session σ) :
    (scope resolveLeaf (Draft.ofValue t) ⟨path.toString, none, subject⟩).run s ≠
      (.ok none, s') := by
  intro hRun
  rw [scope_of_pattern (Pattern.parse_toString hPath), valueAt, run_bind_eq_ok] at hRun
  obtain ⟨o, s₁, hSelect, hRest⟩ := hRun
  obtain ⟨found, hWalk, rfl⟩ := run_select_eq_ok.1 hSelect
  have hNonempty : path.isEmpty = false := List.isEmpty_eq_false_iff.2 hPath.1
  rw [Tree.get?, hNonempty] at h
  obtain ⟨d, hFollow⟩ : ∃ d, follow resolveLeaf path (Draft.ofValue t) = pure (some d) :=
    exists_follow_ofValueAt h []
  -- there is one path, and something stands at it
  have hFind : find resolveLeaf (Draft.ofValue t) path = pure (some d) := by
    rw [find, hNonempty]
    exact hFollow
  rw [walk, Pattern.mapPaths_eq_mapM, Pattern.paths_word, List.mapM_cons, hFind] at hWalk
  have hOne : found = [some d] := by
    cases hWalk
    rfl
  rw [hOne, List.map_singleton, Tree.merge_singleton] at hRest
  obtain ⟨v, -, hValue⟩ := run_map_eq_ok.1 hRest
  cases hValue

end

-- ---------------------------------------------------------------------------
-- Calls of the environment function
-- ---------------------------------------------------------------------------

/-- One of the calls is one of the environment function for the name. That function, if there
is one, stands behind the client's resolvers and the path function. -/
def EnvCalled (rules : ExpansionRules σ) (name : String) (calls : List PlacedCall) : Prop :=
  rules.expandEnv = true ∧ ∃ call ∈ calls, call.place = rules.resolvers.length + 1 ∧
    (call.request.callOf? "env").map Value.render = some name

instance (rules : ExpansionRules σ) (name : String) (calls : List PlacedCall) :
    Decidable (EnvCalled rules name calls) :=
  inferInstanceAs (Decidable (_ ∧ ∃ call ∈ calls, _ ∧ _))

/-- A call more does not make a call of the environment function undone. -/
theorem EnvCalled.cons {rules : ExpansionRules σ} {name : String} {calls : List PlacedCall}
    (h : EnvCalled rules name calls) (call : PlacedCall) : EnvCalled rules name (call :: calls) :=
  ⟨h.1, h.2.imp fun _ hCall => ⟨List.mem_cons_of_mem _ hCall.1, hCall.2⟩⟩

/-- The rules with resolvers that leave the calls kept as they are. -/
abbrev keeping (rules : ExpansionRules σ) : ExpansionRules (Placed σ) :=
  rules.mapResolvers (Resolver.beside (List PlacedCall))

/-- Couples expansions in two environments. Nothing is claimed once the environment function
was called for the name. -/
abbrev shadowed (rules : ExpansionRules σ) (name : String) :
    Coupling (Session (Placed σ)) (Session (Placed σ)) :=
  together (fun _ => True) (fun s => EnvCalled rules name s.client.2) False

-- ---------------------------------------------------------------------------
-- Chains in two environments
-- ---------------------------------------------------------------------------

section

variable {rules : ExpansionRules σ} {name : String} {env : EnvLookup}

theorem steady_envCalled (n : Nat) :
    Steady n fun s : Session (Placed σ) => EnvCalled rules name s.client.2 where
  recorded _ _ _ h := h
  client _ _ h := h
  called _ _ _ _ _ h := h.cons _

theorem sameHistory_shadowed : (shadowed rules name).SameHistory :=
  sameHistory_together (steady_true 0) (steady_envCalled 0)

/-- Keeping the call of a resolver does not come between the two. -/
theorem coupled_recording_shadowed {r r' : Resolver (Session (Placed σ))} {request : Request}
    (h : Coupled (shadowed rules name) (r request) (r' request)) (leaf : Leaf) (place : Nat) :
    Coupled (shadowed rules name) (r.recording (callsFor leaf) place request)
      (r'.recording (callsFor leaf) place request) :=
  Resolver.coupled_recording
    (records_together (steady_true _) (steady_envCalled _) leaf (Nat.lt_succ_self place)) h

theorem chains_shadowed {chain other : List (Resolver (Session (Placed σ)))}
    (h : (shadowed rules name).Chains chain other) (leaf : Leaf) (place : Nat) :
    (shadowed rules name).Chains (Resolver.recordingFrom (callsFor leaf) place chain)
      (Resolver.recordingFrom (callsFor leaf) place other) :=
  chains_together (steady_true _) (steady_envCalled _) h leaf place (Nat.le_refl _)

theorem matching_shadowed (rules : ExpansionRules σ) (name : String) :
    Matching (shadowed rules name) (keeping rules) (keeping rules) :=
  matching_together (steady_true 0) (steady_envCalled 0) rules

/-- Only calls for the name tell the environments apart. -/
theorem coupled_recording_envFunction (hExpand : rules.expandEnv = true)
    (hEnv : ∀ other, other ≠ name → env other = rules.env other) (leaf : Leaf)
    (request : Request) :
    Coupled (shadowed rules name)
      ((Resolver.envFunction rules.env).recording (callsFor leaf) (rules.resolvers.length + 1)
        request)
      ((Resolver.envFunction env).recording (callsFor leaf) (rules.resolvers.length + 1)
        request) := by
  by_cases hName : (request.callOf? "env").map Value.render = some name
  · refine ⟨fun s hs => hs.cons _, fun _ hVoid => hVoid, fun s t hst => .inl ⟨hExpand, ?_⟩⟩
    exact ⟨⟨leaf.location, request, s.history, _⟩, List.mem_cons_self, rfl, hName⟩
  · have hSame : (Resolver.envFunction rules.env request : Eval (Session (Placed σ)) _) =
        Resolver.envFunction env request := by
      rw [Resolver.envFunction, Resolver.envFunction]
      cases hCall : request.callOf? "env" with
      | none => rfl
      | some arg =>
        rw [hCall] at hName
        rw [Option.bind_some, Option.bind_some,
          hEnv _ fun h => hName (congrArg some h)]
    refine coupled_recording_shadowed ?_ leaf _
    rw [hSame]
    exact Coupled.pure _

/-- The environment function behind others. -/
theorem chains_envFunction (hExpand : rules.expandEnv = true)
    (hEnv : ∀ other, other ≠ name → env other = rules.env other)
    {front : List (Resolver (Session (Placed σ)))}
    (hFront : (shadowed rules name).Chains front front)
    (hLength : front.length = rules.resolvers.length + 1) {leaf : Leaf} :
    (shadowed rules name).Chains
      (Resolver.recordingFrom (callsFor leaf) 0 (front ++ [Resolver.envFunction rules.env]))
      (Resolver.recordingFrom (callsFor leaf) 0 (front ++ [Resolver.envFunction env])) := by
  rw [Resolver.recordingFrom_append, Resolver.recordingFrom_append, hLength, Nat.zero_add]
  refine List.rel_append (chains_shadowed hFront leaf 0) (.cons ?_ .nil)
  exact coupled_recording_envFunction hExpand hEnv leaf

/-- Only requests for the name tell the environments apart. -/
theorem coupled_envVariable (hEnv : ∀ other, other ≠ name → env other = rules.env other)
    {request : Request} (hRequest : request.call = none → request.expression ≠ name) :
    Coupled (shadowed rules name) (Resolver.envVariable rules.env request)
      (Resolver.envVariable env request) := by
  rw [Resolver.envVariable, Resolver.envVariable]
  cases hCall : request.call with
  | some call => exact Coupled.pure none
  | none =>
    rw [hEnv _ (hRequest hCall)]
    exact Coupled.pure _

variable {scope otherScope : Resolver (Session (Placed σ))} {leaf : Leaf}

/-- What stands before the scope. -/
theorem chains_beforeScope (hEnv : ∀ other, other ≠ name → env other = rules.env other) :
    (shadowed rules name).Chains
      (Resolver.recordingFrom (callsFor leaf) 0 (beforeScope (keeping rules)))
      (Resolver.recordingFrom (callsFor leaf) 0
        (beforeScope ((keeping rules).withEnv env))) := by
  have hFront : (shadowed rules name).Chains
      ((keeping rules).resolvers.map ofClient ++ [Resolver.path])
      ((keeping rules).resolvers.map ofClient ++ [Resolver.path]) :=
    List.rel_append (matching_shadowed rules name).resolvers
      (.cons (fun _ => Coupled.pure _) .nil)
  have hLength : ((keeping rules).resolvers.map ofClient ++ [Resolver.path]).length =
      rules.resolvers.length + 1 := by
    simp only [ExpansionRules.mapResolvers, List.length_append, List.length_map,
      List.length_singleton]
  cases hExpand : rules.expandEnv with
  | false =>
    simp only [beforeScope, ExpansionRules.withEnv, ExpansionRules.mapResolvers, hExpand]
    exact chains_shadowed (List.rel_append hFront .nil) leaf 0
  | true =>
    simp only [beforeScope, ExpansionRules.withEnv, ExpansionRules.mapResolvers, hExpand, if_true]
    exact chains_envFunction hExpand hEnv hFront hLength

/-- What stands behind the scope, asked for anything but the name. -/
theorem coupled_first_afterScope (hEnv : ∀ other, other ≠ name → env other = rules.env other)
    {request : Request} (hRequest : request.call = none → request.expression ≠ name)
    (place : Nat) :
    Coupled (shadowed rules name)
      (Resolver.first
        (Resolver.recordingFrom (callsFor leaf) place (afterScope (keeping rules) leaf)) request)
      (Resolver.first (Resolver.recordingFrom (callsFor leaf) place
        (afterScope ((keeping rules).withEnv env) leaf)) request) := by
  have hBack : (shadowed rules name).Chains
      ((keeping rules).defaultResolvers.map ofClient ++
        if rules.allowUndefined then [] else [Resolver.reject (some leaf.originPath)])
      ((keeping rules).defaultResolvers.map ofClient ++
        if rules.allowUndefined then [] else [Resolver.reject (some leaf.originPath)]) := by
    refine List.rel_append (matching_shadowed rules name).defaults ?_
    cases rules.allowUndefined with
    | true => exact .nil
    | false => exact .cons (fun _ => Coupled.fail _) .nil
  rw [afterScope, afterScope, List.append_assoc, List.append_assoc]
  cases hExpand : rules.expandEnv with
  | false =>
    simp only [ExpansionRules.withEnv, ExpansionRules.mapResolvers, hExpand]
    exact Resolver.coupled_first (chains_shadowed hBack leaf place) request
  | true =>
    simp only [ExpansionRules.withEnv, ExpansionRules.mapResolvers, hExpand, if_true]
    refine Resolver.coupled_first_cons ?_ fun _ => ?_
    · exact coupled_recording_shadowed (coupled_envVariable hEnv hRequest) leaf place
    · exact Resolver.coupled_first (chains_shadowed hBack leaf (place + 1)) request

/-- With a scope that does not decline the name, the chains in both environments do the
same. -/
theorem coupled_first_withEnv (hVars : rules.expandVars = true)
    (hEnv : ∀ other, other ≠ name → env other = rules.env other)
    (hScope : ∀ request, Coupled (shadowed rules name) (scope request) (otherScope request))
    (hName : ∀ subject s s', (scope ⟨name, none, subject⟩).run s ≠ (.ok none, s'))
    (hOther : ∀ subject s s', (otherScope ⟨name, none, subject⟩).run s ≠ (.ok none, s'))
    (request : Request) :
    Coupled (shadowed rules name) (Resolver.first (placedChain rules scope leaf) request)
      (Resolver.first (placedChain (rules.withEnv env) otherScope leaf) request) := by
  have hLength : (beforeScope ((keeping rules).withEnv env)).length =
      (beforeScope (keeping rules)).length := by
    rw [beforeScope, beforeScope]
    cases hExpand : rules.expandEnv <;>
      simp [ExpansionRules.mapResolvers, ExpansionRules.withEnv, hExpand]
  have hKept : (keeping rules).expandVars = true := hVars
  have hOtherKept : ((keeping rules).withEnv env).expandVars = true := hVars
  show Coupled _
    (Resolver.first
      (Resolver.recordingFrom (callsFor leaf) 0 (chain (keeping rules) scope leaf)) request)
    (Resolver.first (Resolver.recordingFrom (callsFor leaf) 0
      (chain ((keeping rules).withEnv env) otherScope leaf)) request)
  rw [chain_eq hKept, chain_eq hOtherKept, Resolver.recordingFrom_append,
    Resolver.recordingFrom_append, hLength]
  refine Resolver.coupled_first_append (chains_beforeScope hEnv) ?_
  refine Resolver.coupled_first_cons (coupled_recording_shadowed (hScope request) leaf _)
    fun hDeclined => ?_
  refine coupled_first_afterScope hEnv ?_ _
  -- who asks for the name does not get behind the scope
  obtain ⟨expression, call, subject⟩ := request
  rintro rfl rfl
  rcases hDeclined with ⟨s, s', hRun⟩ | ⟨s, s', hRun⟩
  · exact hName subject _ s' hRun
  · exact hOther subject _ s' hRun

end

-- ---------------------------------------------------------------------------
-- Whole trees
-- ---------------------------------------------------------------------------

section

variable {rules : ExpansionRules σ} {env : EnvLookup} {t node : Value} {path : KeyPath}

theorem coupled_resolveBy_withEnv (hVars : rules.expandVars = true) (hPath : path.Plain)
    (h : t.get? path = some node)
    (hEnv : ∀ other, other ≠ path.toString → env other = rules.env other) (depth : Nat) :
    ∀ (trigger : Option Location) (leaf : Leaf), Coupled (shadowed rules path.toString)
      (resolveBy (placedChain rules) (Draft.ofValue t) depth trigger leaf)
      (resolveBy (placedChain (rules.withEnv env)) (Draft.ofValue t) depth trigger leaf) := by
  have hC : (shadowed rules path.toString).SameHistory := sameHistory_shadowed
  induction depth with
  | zero => exact fun trigger leaf => coupled_request hC (coupled_circular hC trigger leaf) _ _
  | succ depth ih =>
    intro trigger leaf
    refine coupled_request hC ?_ trigger leaf
    refine (Coupled.ofExcept _).bind fun template => Template.coupled_eval ?_ template
    refine coupled_first_withEnv hVars hEnv ?_ (run_scope_ne_none hPath h)
      (run_scope_ne_none hPath h)
    exact coupled_scope (coupled_valueAt_of_history hC.history fun other _ => ih _ other)

theorem coupled_placedAnswer_withEnv (hVars : rules.expandVars = true) (hPath : path.Plain)
    (h : t.get? path = some node)
    (hEnv : ∀ other, other ≠ path.toString → env other = rules.env other) (query : Query) :
    Coupled (shadowed rules path.toString) ((Expansion.ofValue t rules).placedAnswer query)
      ((Expansion.ofValue t (rules.withEnv env)).placedAnswer query) := by
  refine coupled_answerBy sameHistory_shadowed.history (fun leaf _ => ?_) query
  exact coupled_resolveBy_withEnv hVars hPath h hEnv _ none leaf

/-- Expansions that answer alike give the same value or error, and the same state. -/
theorem run_expand_eq_of_answer {t u : Value} {rules others : ExpansionRules σ} {c : σ}
    (h : ((Expansion.ofValue t rules).answer .all).run (Session.start c) =
      ((Expansion.ofValue u others).answer .all).run (Session.start c)) :
    (t.expand rules).run c = (u.expand others).run c := by
  rw [run_answer_all, run_answer_all] at h
  obtain ⟨hResult, hSession⟩ := Prod.mk.inj h
  refine Prod.ext ?_ (congrArg Session.client hSession)
  show ((Expansion.ofValue t rules).all.run (Session.start c)).1 =
    ((Expansion.ofValue u others).all.run (Session.start c)).1
  cases hLeft : ((Expansion.ofValue t rules).all.run (Session.start c)).1 <;>
    cases hRight : ((Expansion.ofValue u others).all.run (Session.start c)).1 <;>
      rw [hLeft, hRight] at hResult <;> cases hResult <;> rfl

end

end Expansion

namespace Value

open Expansion

/-- **A path of the tree shadows the environment variable of its name.** Where a plain path
leads to something in the tree, and the environment function is not called for the text of that
path, the tree expands alike in all environments that differ in that variable only: to the same
value or with the same error, with the same state of the client in the end, and with the same
calls of resolvers on the way. -/
theorem expand_withEnv {t : Value} {rules : ExpansionRules σ} (hVars : rules.expandVars = true)
    {path : KeyPath} (hPath : path.Plain) (hFound : (t.get? path).isSome = true)
    {env : EnvLookup} (hEnv : ∀ other, other ≠ path.toString → env other = rules.env other)
    {c : σ} (hFree : ¬ EnvCalled rules path.toString
      ((Expansion.ofValue t rules).placedCalls .all (Session.start c))) :
    (t.expand (rules.withEnv env)).run c = (t.expand rules).run c ∧
      (Expansion.ofValue t (rules.withEnv env)).placedCalls .all (Session.start c) =
        (Expansion.ofValue t rules).placedCalls .all (Session.start c) := by
  obtain ⟨node, hNode⟩ := Option.isSome_iff_exists.1 hFound
  obtain ⟨hSame, -⟩ := run_eq_of_together
    (coupled_placedAnswer_withEnv hVars hPath hNode hEnv .all) trivial hFree False.elim
  obtain ⟨hAnswers, hCalls⟩ := answer_eq_of_placed (s := Session.start c) hSame
  exact ⟨(run_expand_eq_of_answer hAnswers).symm, hCalls.symm⟩

/-- The text at `ann.home` calls the function for the variable `HOME`. It is referred to by its
path, part of which another reference spells. -/
def homeTree : Value :=
  .table [("ann", .table [("home", ofString "$\x7benv:HOME\x7d")]),
    ("key", ofString "home"), ("path", ofString "$\x7bann.\x7bkey\x7d\x7d")]

def homeRules : ExpansionRules Unit :=
  { ExpansionRules.treeOnly with
    expandEnv := true
    env := fun name => if name = "HOME" then some "/a" else none }

def homeExpanded : Value :=
  .table [("ann", .table [("home", ofString "/a")]), ("key", ofString "home"),
    ("path", ofString "/a")]

/-- A variable `ann.home` changes nothing. -/
theorem expand_withEnv_of_home :
    let env : EnvLookup := fun name => if name = "ann.home" then some "/b" else homeRules.env name
    (homeTree.expand (homeRules.withEnv env)).run () = (.ok homeExpanded, ()) ∧
      ¬ EnvCalled homeRules "ann.home"
        ((Expansion.ofValue homeTree homeRules).placedCalls .all (Session.start ())) := by
  intro env
  have hText : KeyPath.toString ["ann", "home"] = "ann.home" := by decide
  have hFree : ¬ EnvCalled homeRules "ann.home"
      ((Expansion.ofValue homeTree homeRules).placedCalls .all (Session.start ())) := by
    decide +kernel
  have hEnv : ∀ other, other ≠ KeyPath.toString ["ann", "home"] →
      env other = homeRules.env other := fun other hOther => if_neg (hText ▸ hOther)
  have hExpand : (homeTree.expand homeRules).run () = (.ok homeExpanded, ()) := by cbv
  have hVars : homeRules.expandVars = true := rfl
  have hPath : KeyPath.Plain ["ann", "home"] := by decide
  have hFound : (homeTree.get? ["ann", "home"]).isSome = true := by decide
  obtain ⟨hSame, -⟩ := expand_withEnv hVars hPath hFound hEnv (c := ()) (hText ▸ hFree)
  exact ⟨hSame.trans hExpand, hFree⟩

end Value

end LayeredConfig
