import LayeredConfig.Proofs.Inheritance
import LayeredConfig.Proofs.Progress
import LayeredConfig.Proofs.Requests
import Mathlib

/-!
# LayeredConfig — reported cycles

A call that reports a cycle gives the leaves on the way to it. The trace is put
together from what the history says of leaves under evaluation, and here it is tied to
the requests that the call made: the first leaf of the trace was requested by the call,
each further one while the one before it was being interpolated, and the last one is
one of the others. So no trace reports a cycle that is not there, whatever calls went
before, also those that failed.

* `RequestedInTurn`          — leaves that were requested one from the other.
* `Expansion.Cycle`          — a way along requests that comes back to itself.
* `Expansion.circularReference_of_cycle` — each reported cycle is one.
-/

namespace LayeredConfig

open Eval History

/-- The first of the leaves was requested by `requester`, each further one by the one
before it. -/
def RequestedInTurn (requests : List LeafRequest) : Option Location → List Location → Prop
  | _, [] => True
  | requester, location :: rest =>
    ⟨requester, location⟩ ∈ requests ∧ RequestedInTurn requests (some location) rest

namespace RequestedInTurn

variable {requests : List LeafRequest} {requester : Option Location} {chain : List Location}

theorem mono (h : RequestedInTurn requests requester chain) (request : LeafRequest) :
    RequestedInTurn (request :: requests) requester chain := by
  induction chain generalizing requester with
  | nil => trivial
  | cons location rest ih => exact ⟨List.mem_cons_of_mem _ h.1, ih h.2⟩

theorem append_singleton_iff {location : Location} :
    RequestedInTurn requests requester (chain ++ [location]) ↔
      RequestedInTurn requests requester chain ∧
        ⟨chain.getLast?.or requester, location⟩ ∈ requests := by
  induction chain generalizing requester with
  | nil => simp [RequestedInTurn]
  | cons first rest ih =>
    rw [List.cons_append, RequestedInTurn, RequestedInTurn, ih, and_assoc]
    cases rest with
    | nil => simp
    | cons second rest =>
      have hLast : ∀ other : Option Location,
          (second :: rest).getLast?.or other = (second :: rest).getLast? := by
        intro other
        rw [List.getLast?_eq_some_getLast (List.cons_ne_nil second rest)]
        rfl
      rw [List.getLast?_cons_cons, hLast, hLast]

end RequestedInTurn

namespace Expansion

open Draft

/-- A way along requests, from the call to a leaf that is on the way already. -/
structure Cycle (root : Draft) (requests : List LeafRequest) (chain : List Location)
    (last : Location) : Prop where
  leaves : chain ⊆ root.deferredLeaves.map Leaf.location
  nodup  : chain.Nodup
  closes : last ∈ chain
  inTurn : RequestedInTurn requests none (chain ++ [last])

/-- A cycle that is reported is one. -/
def ReportsCycle (root : Draft) (e : ConfigError) (s : Session (Tracked σ)) : Prop :=
  ∀ trace, e = .circularReference trace → ∃ chain last,
    trace = (chain ++ [last]).map Location.originPath ∧ Cycle root s.client.2 chain last

/-- The leaves on the stack are those under evaluation, and were requested from the
bottom to the top. -/
structure Descends (stack : List Location) (s : Session (Tracked σ)) : Prop where
  underWay : UnderWay stack s.history
  inTurn   : RequestedInTurn s.client.2 none stack.reverse

section

variable {rules : ExpansionRules σ} {root : Draft} {stack : List Location} {leaf : Leaf}
  {s : Session (Tracked σ)}

theorem reportsCycle_of_ne {e : ConfigError} (h : ∀ trace, e ≠ .circularReference trace) :
    ReportsCycle root e s := fun trace hTrace => absurd hTrace (h trace)

-- ---------------------------------------------------------------------------
-- One request
-- ---------------------------------------------------------------------------

theorem Descends.tracked (h : Descends stack s) (leaf : Leaf) :
    Descends stack (tracked s stack.head? leaf) :=
  ⟨h.underWay, h.inTurn.mono _⟩

theorem Descends.inTurn_tracked (h : Descends stack s) (leaf : Leaf) :
    RequestedInTurn (Expansion.tracked s stack.head? leaf).client.2 none
      (stack.reverse ++ [leaf.location]) := by
  refine RequestedInTurn.append_singleton_iff.2 ⟨h.inTurn.mono _, ?_⟩
  rw [List.getLast?_reverse, Option.or_none]
  exact List.mem_cons_self

/-- A leaf that is requested again while it is under evaluation closes a cycle, and the
trace that is reported has its leaves in the order of the requests. -/
theorem reportsCycle_of_evaluating {depth : Nat} (hStack : root.Stack depth stack)
    (h : Descends stack s) {other : Option Location}
    (hEvaluating : s.history.progress leaf.location = .evaluating other) :
    ReportsCycle root (.circularReference (s.history.cycleTrace stack.head? leaf.location))
      (tracked s stack.head? leaf) := by
  intro trace hTrace
  cases hTrace
  have hIn := (h.underWay.evaluating leaf.location).1 ⟨other, hEvaluating⟩
  refine ⟨stack.reverse, leaf.location, ?_, ?_, ?_, ?_, h.inTurn_tracked leaf⟩
  · rw [h.underWay.cycleTrace_eq hIn, List.reverse_cons]
  · exact fun location hLocation => hStack.within (List.mem_reverse.1 hLocation)
  · exact List.nodup_reverse.2 hStack.nodup
  · exact List.mem_reverse.2 hIn

/-- What goes on within the evaluation of a leaf has the leaf on the stack, and a cycle
reported there is reported by the request for the leaf. -/
theorem failsOnly_request {depth : Nat} (hStack : root.Stack depth stack)
    {x : Eval (Session (Tracked σ)) Value}
    (hBody : leaf.location ∉ stack →
      FailsOnly (Descends (leaf.location :: stack)) (ReportsCycle root) x) :
    FailsOnly (Descends stack) (ReportsCycle root)
      (track stack.head? leaf >>= fun _ => request x stack.head? leaf) := by
  intro s hs
  rw [run_track_bind]
  have hTracked := hs.tracked leaf
  rcases run_request_cases x stack.head? leaf (tracked s stack.head? leaf) with
    ⟨v, -, hRun⟩ | ⟨other, hEvaluating, hRun⟩ | ⟨hPending, hEnd⟩
  · rw [hRun]
    exact ⟨hTracked, fun e he => by cases he⟩
  · rw [hRun]
    refine ⟨hTracked, fun e he => ?_⟩
    cases he
    exact reportsCycle_of_evaluating hStack hs hEvaluating
  · have hNew := hTracked.underWay.not_mem_of_pending hPending
    have hBegun : Descends (leaf.location :: stack)
        (begun (tracked s stack.head? leaf) stack.head? leaf) := by
      refine ⟨hTracked.underWay.push hNew, ?_⟩
      rw [List.reverse_cons]
      exact hs.inTurn_tracked leaf
    have hAfter := hBody hNew _ hBegun
    -- the leaf is taken off the stack, whatever its evaluation came to
    have hPop : ∀ {s' : Session (Tracked σ)} (p : Progress), (∀ trigger, p ≠ .evaluating trigger) →
        Descends (leaf.location :: stack) s' → Descends stack (s'.recorded leaf.location p) := by
      intro s' p hOver hInner
      refine ⟨hInner.underWay.pop hNew hOver, ?_⟩
      have hReverse := hInner.inTurn
      rw [List.reverse_cons] at hReverse
      exact (RequestedInTurn.append_singleton_iff.1 hReverse).1
    rcases hEnd with ⟨e, s', hFailed, hRun⟩ | ⟨w, s', hDone, hRun⟩
    · rw [hFailed] at hAfter
      rw [hRun]
      refine ⟨hPop .pending (fun _ h => by cases h) hAfter.1, fun e' he' => ?_⟩
      cases he'
      exact hAfter.2 e rfl
    · rw [hDone] at hAfter
      rw [hRun]
      exact ⟨hPop _ (fun _ h => by cases h) hAfter.1, fun e' he' => by cases he'⟩

-- ---------------------------------------------------------------------------
-- Resolving
-- ---------------------------------------------------------------------------

/-- No resolver of the client reports a cycle. -/
def NeverCircular (rules : ExpansionRules σ) : Prop :=
  ∀ r ∈ rules.resolvers ++ rules.defaultResolvers, ∀ request c trace,
    ((r request).run c).1 ≠ .error (.circularReference trace)

theorem failsOnly_ofClient {r : Resolver σ} {request : Request}
    (h : ∀ c trace, ((r request).run c).1 ≠ .error (.circularReference trace)) :
    FailsOnly (Descends stack) (ReportsCycle root)
      (ofClient (r.beside (List LeafRequest)) request) := by
  intro s hs
  refine ⟨⟨hs.underWay, hs.inTurn⟩, fun e he => reportsCycle_of_ne fun trace hTrace => ?_⟩
  rw [hTrace] at he
  exact h s.client.1 trace he

theorem failsOnly_interpolateLeaf (hRules : NeverCircular rules) {inner : LeafResolver (Tracked σ)}
    (hInner : ∀ other ∈ root.deferredLeaves,
      FailsOnly (Descends stack) (ReportsCycle root) (inner other)) (leaf : Leaf) :
    FailsOnly (Descends stack) (ReportsCycle root)
      (interpolateLeaf (rules.mapResolvers (Resolver.beside (List LeafRequest))) (scope inner root)
        leaf) := by
  have hP := inherited_failsOnly (Descends (σ := σ) stack) (ReportsCycle root)
  refine inherited_interpolateLeaf hP ?_ ?_ ?_ ?_
  · intro r' hr' request
    obtain ⟨r, hr, rfl⟩ := ExpansionRules.exists_of_mem_mapResolvers hr'
    exact failsOnly_ofClient (hRules r hr request)
  · exact inherited_scope hP (fun s hs => ⟨hs, fun e he => by cases he⟩) hInner
  · exact fun request => FailsOnly.fail fun _ _ => reportsCycle_of_ne fun _ h => by cases h
  · intro s hs
    refine ⟨hs, fun e he => reportsCycle_of_ne fun trace hTrace => ?_⟩
    rw [Template.eq_unclosedReference_of_parse he] at hTrace
    cases hTrace

theorem failsOnly_trackedResolve (hRules : NeverCircular rules) (depth : Nat) :
    ∀ stack : List Location, root.Stack depth stack → ∀ leaf ∈ root.deferredLeaves,
      FailsOnly (Descends stack) (ReportsCycle root)
        (trackedResolve rules root depth stack.head? leaf) := by
  induction depth with
  | zero =>
    intro stack hStack leaf hLeaf
    -- with all leaves on the stack, there is none to evaluate
    exact failsOnly_request hStack fun hNew => absurd (hStack.mem_of_zero hLeaf) hNew
  | succ depth ih =>
    intro stack hStack leaf hLeaf
    exact failsOnly_request hStack fun hNew =>
      failsOnly_interpolateLeaf hRules (ih (leaf.location :: stack) (hStack.push hLeaf hNew)) leaf

end

-- ---------------------------------------------------------------------------
-- Calls
-- ---------------------------------------------------------------------------

theorem failsOnly_trackedAnswer {t : Value} {rules : ExpansionRules σ}
    (hRules : NeverCircular rules) (query : Query) :
    FailsOnly (Descends []) (ReportsCycle (Draft.ofValue t))
      ((ofValue t rules).trackedAnswer query) := by
  have hP := inherited_failsOnly (Descends (σ := σ) []) (ReportsCycle (Draft.ofValue t))
  have hLeaves := failsOnly_trackedResolve hRules _ [] (Stack.nil (Draft.ofValue t))
  exact inherited_answerBy hP (fun s hs => ⟨hs, fun e he => by cases he⟩)
    (fun reason => FailsOnly.fail fun _ _ => reportsCycle_of_ne fun _ h => by cases h) hLeaves query

/-- **A reported cycle is a real one.** After any calls, if a call reports a cycle, the
trace has the origin paths of leaves of which the first was requested by the call, each
further one while the one before it was being interpolated, and of which all are
different but the last one, which is one of those before it. -/
theorem circularReference_of_cycle {t : Value} {rules : ExpansionRules σ}
    (hRules : NeverCircular rules) (queries : List Query) (query : Query) (c : σ)
    {trace : List String} {s' : Session σ}
    (hRun : ((ofValue t rules).answer query).run
      ((ofValue t rules).after queries (Session.start c)) =
        (.error (.circularReference trace), s')) :
    ∃ chain last, trace = (chain ++ [last]).map Location.originPath ∧
      Cycle (Draft.ofValue t)
        ((ofValue t rules).requests query ((ofValue t rules).after queries (Session.start c)))
        chain last := by
  have hTracked := run_trackedAnswer (ofValue t rules) query
    ((ofValue t rules).after queries (Session.start c))
  have hStart : Descends (σ := σ) []
      ⟨((ofValue t rules).after queries (Session.start c)).history,
        (((ofValue t rules).after queries (Session.start c)).client, [])⟩ :=
    ⟨(nested_after t rules queries c).underWay.2, trivial⟩
  obtain ⟨-, hReports⟩ := failsOnly_trackedAnswer hRules query _ hStart
  rw [hTracked, hRun] at hReports
  exact hReports _ rfl trace rfl

/-- A cycle through a section, and through a leaf met on the way to another one. -/
def sectionCycle : Value :=
  .table [("a", Value.ofString "${s}"), ("b", Value.ofString "${a}"),
    ("s", .table [("x", Value.ofString "${b.y}")])]

/-- The trace begins at the leaf that the call requests, also when the cycle was met
before from another side. -/
theorem circularReference_of_section :
    let s := (ofValue sectionCycle .treeOnly).after [.get "b", .all] (Session.start ())
    ∃ chain last, ["s.x", "b", "a", "s.x"] = (chain ++ [last]).map Location.originPath ∧
      Cycle (Draft.ofValue sectionCycle)
        ((ofValue sectionCycle .treeOnly).requests (.get "s") s) chain last := by
  intro s
  have hRules : NeverCircular .treeOnly := fun r hr => absurd hr List.not_mem_nil
  have hError : (((ofValue sectionCycle .treeOnly).answer (.get "s")).run
      ((ofValue sectionCycle .treeOnly).after [.get "b", .all] (Session.start ()))).1 =
        .error (.circularReference ["s.x", "b", "a", "s.x"]) := by cbv
  exact circularReference_of_cycle hRules [.get "b", .all] (.get "s") () (run_eq_of_fst hError)

end Expansion

end LayeredConfig
