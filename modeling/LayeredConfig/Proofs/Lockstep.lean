import LayeredConfig.Proofs.Independence
import LayeredConfig.Proofs.Recording

/-!
# LayeredConfig — expansions in lockstep

Two expansions of one tree that have the same history at each step look into the tree
alike: they merge the same drafts and find the same leaves resolved. If their leaves
are resolved alike, so is what patterns name, and calls answer alike.

* `Coupling.SameHistory`              — couplings of such expansions.
* `Expansion.coupled_request`         — requests for a leaf, given its evaluations.
* `Expansion.coupled_valueAt_of_history`, `Expansion.coupled_answerBy` — lookups and
  calls, given how leaves are resolved.
-/

namespace LayeredConfig

open Eval History

/-- Related sessions have the same history, and events for both change nothing about
what the coupling claims. -/
structure Coupling.SameHistory (C : Coupling (Session σ) (Session τ)) : Prop where
  history : ∀ s t, C.related s t → s.history = t.history
  record : ∀ s t location p, C.related s t →
    C.related (s.recorded location p) (t.recorded location p)
  leftVoid : ∀ s location p, C.leftVoid s → C.leftVoid (s.recorded location p)
  rightVoid : ∀ t location p, C.rightVoid t → C.rightVoid (t.recorded location p)

theorem Coupling.sameHistory_beside : (Coupling.beside σ κ).SameHistory where
  history _ _ h := h.1
  record _ _ location p h := ⟨congrArg ((location, p) :: ·) h.1, h.2⟩
  leftVoid _ _ _ h := h
  rightVoid _ _ _ h := h

namespace Expansion

open Draft

variable {C : Coupling (Session σ) (Session τ)}

-- ---------------------------------------------------------------------------
-- Requests
-- ---------------------------------------------------------------------------

/-- A property of sessions that events do not touch is kept by a request if it still
holds once the leaf, put under evaluation, has been evaluated. -/
theorem keeps_request_of_recorded {I : Session σ → Prop}
    (hRecord : ∀ s location p, I s → I (s.recorded location p)) {x : Eval (Session σ) Value}
    {trigger : Option Location} {leaf : Leaf}
    (hBody : ∀ s, I s → I (x.run (begun s trigger leaf)).2) :
    (request x trigger leaf).Keeps I := by
  intro s hs
  have hAfter := hBody s hs
  rcases run_request_cases x trigger leaf s with
    ⟨v, -, hRun⟩ | ⟨other, -, hRun⟩ | ⟨-, ⟨e, s', hFailed, hRun⟩ | ⟨w, s', hDone, hRun⟩⟩
  · rw [hRun]
    exact hs
  · rw [hRun]
    exact hs
  · rw [hFailed] at hAfter
    rw [hRun]
    exact hRecord s' _ _ hAfter
  · rw [hDone] at hAfter
    rw [hRun]
    exact hRecord s' _ _ hAfter

theorem coupled_request (hC : C.SameHistory) {x : Eval (Session σ) Value}
    {y : Eval (Session τ) Value} (h : Coupled C x y) (trigger : Option Location) (leaf : Leaf) :
    Coupled C (request x trigger leaf) (request y trigger leaf) where
  keepsLeft := keeps_request_of_recorded hC.leftVoid fun s hs =>
    h.keepsLeft _ (hC.leftVoid s _ _ hs)
  keepsRight := keeps_request_of_recorded hC.rightVoid fun t ht =>
    h.keepsRight _ (hC.rightVoid t _ _ ht)
  step s t hst := by
    have hHistory := hC.history s t hst
    cases hProgress : s.history.progress leaf.location with
    | resolved v =>
      rw [run_request_of_resolved hProgress, run_request_of_resolved (hHistory ▸ hProgress)]
      exact .inr (.inr (.inr ⟨rfl, hst⟩))
    | evaluating other =>
      rw [run_request_of_evaluating hProgress, run_request_of_evaluating (hHistory ▸ hProgress),
        run_circular, run_circular, hHistory]
      exact .inr (.inr (.inr ⟨rfl, hst⟩))
    | pending =>
      rw [run_request_of_pending hProgress, run_request_of_pending (hHistory ▸ hProgress)]
      have hStep := h.step (begun s trigger leaf) (begun t trigger leaf) (hC.record s t _ _ hst)
      rcases hx : x.run (begun s trigger leaf) with ⟨r, s'⟩
      rcases hy : y.run (begun t trigger leaf) with ⟨r', t'⟩
      rw [hx, hy] at hStep
      rcases hStep with hVoid | hVoid | ⟨hForgiving, e, he⟩ | ⟨hSame, hRel⟩
      · left
        cases r with
        | error e => rw [run_evaluate_of_error hx]; exact hC.leftVoid s' _ _ hVoid
        | ok w => rw [run_evaluate_of_ok hx]; exact hC.leftVoid s' _ _ hVoid
      · right; left
        cases r' with
        | error e => rw [run_evaluate_of_error hy]; exact hC.rightVoid t' _ _ hVoid
        | ok w => rw [run_evaluate_of_ok hy]; exact hC.rightVoid t' _ _ hVoid
      · cases he
        rw [run_evaluate_of_error hx]
        exact .inr (.inr (.inl ⟨hForgiving, e, rfl⟩))
      · cases hSame
        right; right; right
        cases r with
        | error e =>
          rw [run_evaluate_of_error hx, run_evaluate_of_error hy]
          exact ⟨rfl, hC.record s' t' _ _ hRel⟩
        | ok w =>
          rw [run_evaluate_of_ok hx, run_evaluate_of_ok hy]
          exact ⟨rfl, hC.record s' t' _ _ hRel⟩

theorem coupled_circular (hC : C.SameHistory) (trigger : Option Location) (leaf : Leaf) :
    Coupled C (circular trigger leaf) (circular trigger leaf) := by
  refine ⟨keeps_circular _ trigger leaf, keeps_circular _ trigger leaf, fun s t hst => ?_⟩
  rw [run_circular, run_circular, hC.history s t hst]
  exact .inr (.inr (.inr ⟨rfl, hst⟩))

-- ---------------------------------------------------------------------------
-- Lookups and calls
-- ---------------------------------------------------------------------------

section

variable {resolveLeaf : LeafResolver σ} {otherLeaf : LeafResolver τ} {root : Draft}

theorem coupled_valueAt_of_history (hSame : ∀ s t, C.related s t → s.history = t.history)
    (h : ∀ leaf ∈ root.deferredLeaves, Coupled C (resolveLeaf leaf) (otherLeaf leaf))
    (pattern : Pattern) :
    Coupled C (valueAt resolveLeaf root pattern) (valueAt otherLeaf root pattern) := by
  rw [valueAt_eq, valueAt_eq]
  refine (coupled_walk h).bind_of_run fun found hRun => ?_
  have hFound : ∀ e, some e ∈ found → ∀ leaf ∈ e.deferredLeaves, leaf ∈ root.deferredLeaves := by
    intro e he
    rcases hRun with ⟨s, s', hRun⟩ | ⟨t, t', hRun⟩
    · exact mem_deferredLeaves_of_walk hRun he
    · exact mem_deferredLeaves_of_walk hRun he
  have hHistory :
      Coupled C (Session.currentHistory (σ := σ)) (Session.currentHistory (σ := τ)) := by
    refine ⟨Keeps.of_unchanged fun _ => rfl, Keeps.of_unchanged fun _ => rfl, fun s t hst => ?_⟩
    refine .inr (.inr (.inr ⟨?_, hst⟩))
    rw [Session.run_currentHistory, Session.run_currentHistory, hSame s t hst]
  -- so the drafts that are merged are the same on both sides
  refine hHistory.bind fun history => ?_
  cases hMerge : Tree.merge (found.map (Option.map (settle history.leafValue?))) with
  | none => exact Coupled.pure none
  | some d =>
    refine (coupled_complete fun leaf hLeaf => ?_).map some
    obtain ⟨e, he, hIn⟩ := mem_deferredLeaves_of_merge hMerge hLeaf
    exact h leaf (hFound e he leaf hIn)

theorem coupled_answerBy (hSame : ∀ s t, C.related s t → s.history = t.history)
    (h : ∀ leaf ∈ root.deferredLeaves, Coupled C (resolveLeaf leaf) (otherLeaf leaf))
    (query : Query) :
    Coupled C (answerBy resolveLeaf root query) (answerBy otherLeaf root query) := by
  cases query with
  | get spec =>
    rw [answerBy, answerBy]
    cases Pattern.parse spec with
    | error reason => exact Coupled.fail _
    | ok pattern => exact coupled_valueAt_of_history hSame h pattern
  | all => exact (coupled_complete h).map some

end

end Expansion

end LayeredConfig
