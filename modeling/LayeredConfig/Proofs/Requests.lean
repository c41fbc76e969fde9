import LayeredConfig.Proofs.Lockstep

/-!
# LayeredConfig — requests for leaves

A history has the leaves that were evaluated, not each request for a leaf: a request
for a leaf that is resolved, or under evaluation, leaves nothing there. Here every
request is kept, with the leaf that was being interpolated when it was made. Keeping
them changes nothing else: the same calls give the same results and the same history.

* `LeafRequest`              — a request, and who made it.
* `Expansion.trackedResolve` — resolving, with all requests kept.
* `Expansion.requests`       — the requests that a call makes.
* `Expansion.run_trackedAnswer` — keeping requests changes no call.
-/

namespace LayeredConfig

open Eval History

/-- A request for the value of a leaf. -/
structure LeafRequest where
  /-- The leaf whose text was being interpolated; none if the call itself asked. -/
  requester : Option Location
  requested : Location

/-- The state of a client, and the requests for leaves, the last one first. -/
abbrev Tracked (σ : Type) := σ × List LeafRequest

namespace Expansion

open Draft

/-- Keeps a request. -/
def track (requester : Option Location) (leaf : Leaf) : Eval (Session (Tracked σ)) Unit :=
  Session.onClient (Eval.modify fun s => (s.1, ⟨requester, leaf.location⟩ :: s.2))

/-- The value of a leaf as `resolve` gives it, where each request is kept. -/
def trackedResolve (rules : ExpansionRules σ) (root : Draft) :
    Nat → Option Location → LeafResolver (Tracked σ)
  | 0, trigger => fun leaf => do
    track trigger leaf
    request (circular trigger leaf) trigger leaf
  | depth + 1, trigger => fun leaf => do
    track trigger leaf
    let inner := trackedResolve rules root depth (some leaf.location)
    let beside := rules.mapResolvers (Resolver.beside (List LeafRequest))
    request (interpolateLeaf beside (scope inner root) leaf) trigger leaf

/-- What a call answers, where each request is kept. -/
def trackedAnswer (x : Expansion σ) (query : Query) : Eval (Session (Tracked σ)) (Option Value) :=
  answerBy (trackedResolve x.rules x.root x.root.deferredLeaves.length none) x.root query

/-- The requests that a call makes, the last one first. -/
def requests (x : Expansion σ) (query : Query) (s : Session σ) : List LeafRequest :=
  ((x.trackedAnswer query).run ⟨s.history, (s.client, [])⟩).2.client.2

-- ---------------------------------------------------------------------------
-- Nothing else changes
-- ---------------------------------------------------------------------------

/-- The session with a request more. -/
def tracked (s : Session (Tracked σ)) (requester : Option Location) (leaf : Leaf) :
    Session (Tracked σ) :=
  { s with client := (s.client.1, ⟨requester, leaf.location⟩ :: s.client.2) }

theorem run_track_bind (requester : Option Location) (leaf : Leaf)
    (x : Eval (Session (Tracked σ)) α) (s : Session (Tracked σ)) :
    (track requester leaf >>= fun _ => x).run s = x.run (tracked s requester leaf) := rfl

/-- Couples sessions that differ in the requests kept. -/
abbrev withRequests (σ : Type) : Coupling (Session σ) (Session (Tracked σ)) :=
  Coupling.beside σ (List LeafRequest)

theorem coupled_track {x : Eval (Session σ) α} {y : Eval (Session (Tracked σ)) α}
    (h : Coupled (withRequests σ) x y) (requester : Option Location) (leaf : Leaf) :
    Coupled (withRequests σ) x (track requester leaf >>= fun _ => y) :=
  ⟨fun _ hVoid => hVoid, fun _ hVoid => hVoid.elim,
    fun s t hst => h.step s (tracked t requester leaf) hst⟩

theorem coupled_trackedResolve (rules : ExpansionRules σ) (root : Draft) (depth : Nat) :
    ∀ (trigger : Option Location) (leaf : Leaf), Coupled (withRequests σ)
      (resolve rules root depth trigger leaf) (trackedResolve rules root depth trigger leaf) := by
  have hC : (withRequests σ).SameHistory := Coupling.sameHistory_beside
  induction depth with
  | zero =>
    intro trigger leaf
    exact coupled_track (coupled_request hC (coupled_circular hC trigger leaf) trigger leaf) _ _
  | succ depth ih =>
    intro trigger leaf
    refine coupled_track (coupled_request hC ?_ trigger leaf) trigger leaf
    refine coupled_interpolateLeaf (matching_beside _ rules) (coupled_scope ?_) leaf
    exact coupled_valueAt_of_history hC.history fun other _ => ih _ other

/-- **Keeping requests changes no call.** -/
theorem run_trackedAnswer (x : Expansion σ) (query : Query) (s : Session σ) :
    (x.trackedAnswer query).run ⟨s.history, (s.client, [])⟩ =
      (((x.answer query).run s).1,
        ⟨((x.answer query).run s).2.history,
          (((x.answer query).run s).2.client, x.requests query s)⟩) := by
  have hCoupled : Coupled (withRequests σ) (x.answer query) (x.trackedAnswer query) := by
    rw [answer_eq]
    exact coupled_answerBy Coupling.sameHistory_beside.history
      (fun leaf _ => coupled_trackedResolve x.rules x.root _ none leaf) query
  exact run_of_beside hCoupled s []

end Expansion

end LayeredConfig
