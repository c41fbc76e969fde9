import LayeredConfig.Proofs.Lockstep
import LayeredConfig.Proofs.Progress

/-!
# LayeredConfig — resolution ends

To resolve a leaf is to interpolate its text, and that resolves the leaves its references
lead to. How references are arranged bounds this recursion in no way: they may lead
around in circles, or to a section that has the referring leaf in it, and where they
lead may itself be computed. What ends it is the progress of the leaves. Only a pending
leaf is evaluated, and meanwhile it is not pending, so each evaluation within another
has one leaf fewer to start.

The recursion written out to some depth, with anything at all in place of what would
come deeper, is `Expansion.unrolled`. What comes deeper than there are texts is never
asked for anything, so the recursion has ended by then, by itself.

* `Draft.raws_ofValueAt`      — the leaves of a draft are the texts of its value.
* `Expansion.unrolled`        — the recursion of resolving, to a depth.
* `Expansion.coupled_unrolled` — with one level for each leaf that is not under
  evaluation, and one more for the last request, nothing deeper is asked.
* `Expansion.resolution_ends` — each call ends, with as many levels as there are texts.
-/

namespace LayeredConfig

open Eval History

/-- The texts of a value, in order. -/
def Value.texts (v : Value) : List Text := v.leaves.filterMap fun s => Value.text? (.leaf s)

namespace Draft

/-- The leaves of a draft are the texts of its value. -/
theorem raws_ofValueAt (location : Location) (v : Value) :
    (ofValueAt location v).deferredLeaves.map Leaf.raw = v.texts := by
  have hTexts : (ofValueAt location v).map (fun c => (leafOf? c).map Leaf.raw) =
      v.map fun s => Value.text? (.leaf s) :=
    map_ofValueAt (fun _ s => by cases s <;> rfl) location v
  have hLeaves := congrArg (fun t => (Tree.leaves t).filterMap id) hTexts
  simpa only [Tree.leaves_map, List.filterMap_map, deferredLeaves, Value.texts, List.map_filterMap,
    Function.comp_def, id] using hLeaves

theorem length_deferredLeaves_ofValue (v : Value) :
    (ofValue v).deferredLeaves.length = v.texts.length := by
  rw [← raws_ofValueAt [] v, List.length_map]
  rfl

end Draft

namespace Expansion

open Draft

-- ---------------------------------------------------------------------------
-- The recursion, written out
-- ---------------------------------------------------------------------------

/-- Resolving as it recurs, written out to a depth. What a request for a leaf comes to
that is deeper than that is for `beyond` to say. -/
def unrolled (rules : ExpansionRules σ) (root : Draft) (beyond : Option Location → LeafResolver σ) :
    Nat → Option Location → LeafResolver σ
  | 0 => beyond
  | depth + 1 => fun trigger leaf =>
    let inner := unrolled rules root beyond depth (some leaf.location)
    request (interpolateLeaf rules (scope inner root) leaf) trigger leaf

section

variable {rules : ExpansionRules σ} {root : Draft} {beyond : Option Location → LeafResolver σ}

/-- Written out to a depth, and from there to a further one. -/
theorem unrolled_add (depth further : Nat) :
    unrolled rules root beyond (depth + further) =
      unrolled rules root (unrolled rules root beyond further) depth := by
  induction depth with
  | zero => rw [Nat.zero_add, unrolled]
  | succ depth ih =>
    funext trigger leaf
    rw [Nat.add_right_comm, unrolled, unrolled, ih]

/-- Couples an evaluation with one that does the same as long as the leaves on the stack
are those under evaluation. -/
abbrev within (stack : List Location) : Coupling (Session σ) (Session σ) :=
  Coupling.diagonal fun s => UnderWay stack s.history

/-- Two ways to evaluate a leaf come to the same for whoever requests it, if they come to
the same with the leaf on the stack. On the stack already, it is not evaluated at all. -/
theorem coupled_request_within {x y : Eval (Session σ) Value} {stack : List Location} {leaf : Leaf}
    (hBody : leaf.location ∉ stack → Coupled (within (leaf.location :: stack)) x y) :
    Coupled (within stack) (request x stack.head? leaf) (request y stack.head? leaf) := by
  refine coupled_throughout_iff.2 ?_
  rintro s t ⟨rfl, hUnder⟩
  cases hProgress : s.history.progress leaf.location with
  | resolved v =>
    rw [run_request_of_resolved hProgress, run_request_of_resolved hProgress]
    exact ⟨rfl, rfl, hUnder⟩
  | evaluating other =>
    rw [run_request_of_evaluating hProgress, run_request_of_evaluating hProgress, run_circular]
    exact ⟨rfl, rfl, hUnder⟩
  | pending =>
    have hNew := hUnder.not_mem_of_pending hProgress
    obtain ⟨hSame, hState, hAfter⟩ := coupled_throughout_iff.1 (hBody hNew)
      (begun s stack.head? leaf) (begun s stack.head? leaf) ⟨rfl, hUnder.push hNew⟩
    have hRun := Prod.ext hSame hState
    rw [run_request_of_pending hProgress, run_request_of_pending hProgress]
    rcases hx : x.run (begun s stack.head? leaf) with ⟨r, s'⟩
    rw [hx] at hRun hAfter
    cases r with
    | error e =>
      rw [run_evaluate_of_error hx, run_evaluate_of_error hRun.symm]
      exact ⟨rfl, rfl, hAfter.pop hNew fun _ h => by cases h⟩
    | ok w =>
      rw [run_evaluate_of_ok hx, run_evaluate_of_ok hRun.symm]
      exact ⟨rfl, rfl, hAfter.pop hNew fun _ h => by cases h⟩

/-- Written out one level further than leaves can be evaluated, resolving never comes to
what is beyond. -/
theorem coupled_unrolled (beyond : Option Location → LeafResolver σ) (depth : Nat) :
    ∀ stack : List Location, root.Stack depth stack → ∀ leaf ∈ root.deferredLeaves,
      Coupled (within stack) (resolve rules root depth stack.head? leaf)
        (unrolled rules root beyond (depth + 1) stack.head? leaf) := by
  induction depth with
  | zero =>
    intro stack hStack leaf hLeaf
    -- all leaves are under evaluation, so there is none to evaluate
    exact coupled_request_within fun hNew => absurd (hStack.mem_of_zero hLeaf) hNew
  | succ depth ih =>
    intro stack hStack leaf hLeaf
    refine coupled_request_within fun hNew => ?_
    refine coupled_interpolateLeaf (matching_history _ rules) (coupled_scope ?_) leaf
    exact coupled_valueAt_of_history (fun s t hst => congrArg Session.history hst.1)
      (ih (leaf.location :: stack) (hStack.push hLeaf hNew))

-- ---------------------------------------------------------------------------
-- Calls
-- ---------------------------------------------------------------------------

theorem answerBy_unrolled (x : Expansion σ) (query : Query) {s : Session σ}
    (hUnder : UnderWay [] s.history) (beyond : Option Location → LeafResolver σ) (further : Nat) :
    (answerBy (unrolled x.rules x.root beyond (x.root.deferredLeaves.length + 1 + further) none)
      x.root query).run s = (x.answer query).run s := by
  have hCoupled : Coupled (within []) (x.answer query)
      (answerBy (unrolled x.rules x.root (unrolled x.rules x.root beyond further)
        (x.root.deferredLeaves.length + 1) none) x.root query) := by
    have hSame : ∀ s t : Session σ, (within []).related s t → s.history = t.history :=
      fun s t hst => congrArg Session.history hst.1
    rw [answer_eq]
    exact coupled_answerBy hSame (coupled_unrolled _ _ [] (Stack.nil x.root)) query
  obtain ⟨hSame, hState, -⟩ := coupled_throughout_iff.1 hCoupled s s ⟨rfl, hUnder⟩
  rw [unrolled_add]
  exact Prod.ext hSame.symm hState.symm

theorem Nested.within {stack : List Location} {h : History} (hNested : Nested rules root stack h) :
    stack ⊆ root.deferredLeaves.map Leaf.location := by
  induction hNested with
  | nothing => exact List.nil_subset _
  | begins before isLeaf pending ih => exact List.cons_subset.2 ⟨List.mem_map_of_mem isLeaf, ih⟩
  | fails before isLeaf failure ih => exact (List.cons_subset.1 ih).2
  | succeeds before isLeaf explains ih => exact (List.cons_subset.1 ih).2

/-- As each interpolation that goes on is one of another leaf, there are not more of them
than leaves. -/
theorem Nested.length_le {stack : List Location} {h : History}
    (hNested : Nested rules root stack h) : stack.length ≤ root.deferredLeaves.length := by
  have hLength := (hNested.underWay.1.subperm hNested.within).length_le
  rwa [List.length_map] at hLength

end

/-- **Resolution ends.** After any calls, whether they succeeded or failed, each call ends
with a value or an error: written out to any depth beyond the number of texts in the
tree, the recursion comes to what the call answers, and leaves the session as the call
does, whatever stands for what would come deeper. And at every moment on the way there
are at most as many interpolations that go on as there are texts. -/
theorem resolution_ends (t : Value) (rules : ExpansionRules σ) (queries : List Query)
    (query : Query) (c : σ) :
    let s := (ofValue t rules).after queries (Session.start c)
    let final := ((ofValue t rules).answer query).run s
    (∀ (beyond : Option Location → LeafResolver σ) (depth : Nat), t.texts.length < depth →
      (answerBy (unrolled rules (Draft.ofValue t) beyond depth none) (Draft.ofValue t)
        query).run s = final) ∧
    ∀ moment : History, moment <:+ final.2.history → moment.ongoing.length ≤ t.texts.length := by
  intro s final
  have hNested : Nested rules (Draft.ofValue t) [] final.2.history :=
    nested_answer t rules queries query c
  rw [← length_deferredLeaves_ofValue]
  constructor
  · intro beyond depth hDepth
    obtain ⟨further, rfl⟩ := Nat.exists_eq_add_of_le hDepth
    exact answerBy_unrolled (ofValue t rules) query (nested_after t rules queries c).underWay.2
      beyond further
  · intro moment hMoment
    obtain ⟨⟨stack, hStack⟩, -⟩ := hNested.of_suffix hMoment
    rw [hStack.ongoing_eq]
    exact hStack.length_le

/-- Around a cycle the recursion ends with an error, and not by what is put beyond it. -/
theorem resolution_ends_of_cycle :
    let x := ofValue cyclicTree .treeOnly
    let s := x.after [.get "b"] (Session.start ())
    let written := unrolled .treeOnly x.root (fun _ _ => Eval.fail .undecodable) 5 none
    ((answerBy written x.root (.get "a")).run s).1 =
      .error (.circularReference ["a", "b", "a"]) := by
  intro x s written
  have hDepth : cyclicTree.texts.length < 5 := by decide
  have hEnds := (resolution_ends cyclicTree .treeOnly [.get "b"] (.get "a") ()).1
    (fun _ _ => Eval.fail .undecodable) 5 hDepth
  have hAnswer : ((x.answer (.get "a")).run s).1 = .error (.circularReference ["a", "b", "a"]) := by
    rfl
  exact (congrArg Prod.fst hEnds).trans hAnswer

end Expansion

end LayeredConfig
