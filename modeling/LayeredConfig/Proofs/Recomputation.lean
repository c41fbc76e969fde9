import LayeredConfig.Proofs.Explanation
import Mathlib.Data.List.Perm.Subperm

/-!
# LayeredConfig — recomputing leaves

The same expansion without a memory: `Expansion.recompute` evaluates a leaf each
time it is requested. It is told which leaves are under evaluation, and so needs no
history at all. Where leaves give terminals only, a value that an expansion has in
its history is the one that recomputing gives, whatever the stack of leaves under
evaluation is, as long as none of these has a value in the history
(`Expansion.recompute_of_explained`).

* `History.Terminals`          — histories in which leaves become terminals only.
* `Draft.Stack`                — leaves under evaluation, and room for the others.
* `Expansion.recompute`        — the value of a leaf, from scratch.
* `Expansion.coupled_valueAt`  — looking patterns up with a memory and without.
-/

namespace LayeredConfig

open Eval History

/-- Not resolved to a sequence or a table. -/
def Progress.isTerminal : Progress → Bool
  | .resolved v => v.isTerminal
  | _ => true

namespace History

/-- No leaf was resolved to a sequence or a table. -/
def Terminals (h : History) : Prop := ∀ event ∈ h, event.2.isTerminal = true

instance (h : History) : Decidable h.Terminals :=
  inferInstanceAs (Decidable (∀ event ∈ h, event.2.isTerminal = true))

theorem mem_of_value? {h : History} {location : Location} {v : Value}
    (hv : h.value? location = some v) : (location, Progress.resolved v) ∈ h := by
  induction h with
  | nil => cases hv
  | cons event earlier ih =>
    obtain ⟨l, p⟩ := event
    by_cases hSame : l = location
    · have hResolved := value?_eq_some_iff.1 hv
      rw [hSame, progress_cons_self] at hResolved
      rw [hSame, hResolved]
      exact List.mem_cons_self
    · rw [value?_cons_of_ne hSame] at hv
      exact List.mem_cons_of_mem _ (ih hv)

theorem Terminals.isTerminal {h : History} (hTerminals : h.Terminals) {location : Location}
    {v : Value} (hv : h.value? location = some v) : v.isTerminal = true :=
  hTerminals _ (mem_of_value? hv)

theorem Terminals.of_precedes {earlier later : History} (h : later.Terminals)
    (hPrecedes : earlier.Precedes later) : earlier.Terminals :=
  fun event hEvent => h event (hPrecedes.suffix.subset hEvent)

end History

-- ---------------------------------------------------------------------------
-- Stacks
-- ---------------------------------------------------------------------------

/-- Leaves of a draft that are under evaluation, the latest one first, where
`depth` leaves are not. -/
structure Draft.Stack (root : Draft) (depth : Nat) (stack : List Location) : Prop where
  nodup : stack.Nodup
  within : stack ⊆ root.deferredLeaves.map Leaf.location
  room : depth + stack.length = root.deferredLeaves.length

namespace Draft.Stack

variable {root : Draft} {depth : Nat} {stack : List Location} {leaf : Leaf}

theorem nil (root : Draft) : Stack root root.deferredLeaves.length [] :=
  ⟨List.nodup_nil, List.nil_subset _, rfl⟩

theorem push (h : Stack root (depth + 1) stack) (hLeaf : leaf ∈ root.deferredLeaves)
    (hNew : leaf.location ∉ stack) : Stack root depth (leaf.location :: stack) where
  nodup := List.nodup_cons.2 ⟨hNew, h.nodup⟩
  within := List.cons_subset.2 ⟨List.mem_map_of_mem hLeaf, h.within⟩
  room := by
    have hRoom := h.room
    rw [List.length_cons]
    omega

/-- A leaf that is not under evaluation leaves room for itself. -/
theorem exists_succ (h : Stack root depth stack) (hLeaf : leaf ∈ root.deferredLeaves)
    (hNew : leaf.location ∉ stack) : ∃ d, depth = d + 1 := by
  have hNodup : (leaf.location :: stack).Nodup := List.nodup_cons.2 ⟨hNew, h.nodup⟩
  have hWithin : leaf.location :: stack ⊆ root.deferredLeaves.map Leaf.location :=
    List.cons_subset.2 ⟨List.mem_map_of_mem hLeaf, h.within⟩
  have hLength := (hNodup.subperm hWithin).length_le
  rw [List.length_cons, List.length_map] at hLength
  have hRoom := h.room
  exact ⟨depth - 1, by omega⟩

/-- Where no leaf is left, all are under evaluation. -/
theorem mem_of_zero (h : Stack root 0 stack) (hLeaf : leaf ∈ root.deferredLeaves) :
    leaf.location ∈ stack := by
  by_contra hNew
  obtain ⟨d, hDepth⟩ := h.exists_succ hLeaf hNew
  cases hDepth

end Draft.Stack

namespace Expansion

open Draft

-- ---------------------------------------------------------------------------
-- Without a memory
-- ---------------------------------------------------------------------------

/-- The error for a leaf that is under evaluation already. -/
def cycleError (stack : List Location) (leaf : Leaf) : ConfigError :=
  .circularReference ((leaf.location :: stack).reverse.map Location.originPath)

/-- The value of a leaf from scratch, and of all it depends on. `stack` has the
leaves under evaluation, and `depth` bounds the number of others. -/
def recompute (rules : ExpansionRules σ) (root : Draft) : Nat → List Location → LeafResolver σ
  | 0, stack => fun leaf => Eval.fail (cycleError stack leaf)
  | depth + 1, stack => fun leaf =>
    if leaf.location ∈ stack then Eval.fail (cycleError stack leaf)
    else
      let inner := recompute rules root depth (leaf.location :: stack)
      withOriginOf leaf <$> interpolateLeaf rules (scope inner root) leaf

section

variable {rules : ExpansionRules σ} {root : Draft} {depth : Nat} {stack : List Location}
  {leaf : Leaf}

theorem recompute_of_mem (h : leaf.location ∈ stack) :
    recompute rules root depth stack leaf = Eval.fail (cycleError stack leaf) := by
  cases depth with
  | zero => rfl
  | succ depth => exact if_pos h

theorem recompute_of_not_mem (h : leaf.location ∉ stack) :
    recompute rules root (depth + 1) stack leaf =
      withOriginOf leaf <$>
        interpolateLeaf rules
          (scope (recompute rules root depth (leaf.location :: stack)) root) leaf :=
  if_neg h

end

-- ---------------------------------------------------------------------------
-- Patterns with a memory and without
-- ---------------------------------------------------------------------------

section

variable {resolveLeaf : LeafResolver σ} {root d : Draft}

/-- Leaves that have a value by now may be replaced before the others are
completed. -/
theorem complete_settle (hRecalls : Recalls resolveLeaf)
    (hGrows : ∀ leaf ∈ d.deferredLeaves, ∀ earlier : History,
      (resolveLeaf leaf).Keeps (fun s => earlier.Precedes s.history)) (s : Session σ) :
    (complete resolveLeaf (settle s.history.leafValue? d)).run s =
      (complete resolveLeaf d).run s := by
  have hCoupled : Coupled (Coupling.diagonal fun later : Session σ =>
      s.history.Precedes later.history)
      (complete resolveLeaf (settle s.history.leafValue? d)) (complete resolveLeaf d) := by
    rw [complete, complete, settle, Tree.graftM_graft]
    refine Tree.coupled_graftM fun cell hCell => ?_
    cases cell with
    | known scalar => exact Coupled.pure (Tree.leaf scalar)
    | deferred leaf =>
      cases hValue : s.history.leafValue? leaf with
      | none =>
        rw [settleCell_of_none hValue]
        exact keeps_iff_coupled.1 (hGrows leaf (mem_deferredLeaves.2 hCell) s.history)
      | some w =>
        -- resolving the leaf only looks its value up
        rw [settleCell_of_some hValue, ← complete, complete_known]
        refine coupled_throughout_iff.2 ?_
        rintro later _ ⟨rfl, hLater⟩
        have hRun := hRecalls leaf later w (hLater.leafValue leaf w hValue)
        rw [completeCell, hRun]
        exact ⟨rfl, rfl, hLater⟩
  obtain ⟨hSame, hState, -⟩ := coupled_throughout_iff.1 hCoupled s s ⟨rfl, Precedes.refl _⟩
  exact Prod.ext hSame hState

theorem coupled_complete {C : Coupling (Session σ) (Session τ)} {otherLeaf : LeafResolver τ}
    (h : ∀ leaf ∈ d.deferredLeaves, Coupled C (resolveLeaf leaf) (otherLeaf leaf)) :
    Coupled C (complete resolveLeaf d) (complete otherLeaf d) := by
  refine Tree.coupled_graftM fun cell hCell => ?_
  cases cell with
  | known scalar => exact Coupled.pure (Tree.leaf scalar)
  | deferred leaf => exact h leaf (mem_deferredLeaves.2 hCell)

/-- What remains of a lookup once the paths have been walked. -/
def mergeFound (resolveLeaf : LeafResolver σ) (found : List (Option Draft)) :
    Eval (Session σ) (Option Value) := do
  let history ← Session.currentHistory
  match Tree.merge (found.map (Option.map (settle history.leafValue?))) with
  | none => pure none
  | some d => some <$> complete resolveLeaf d

theorem valueAt_eq (resolveLeaf : LeafResolver σ) (root : Draft) (pattern : Pattern) :
    valueAt resolveLeaf root pattern =
      walk resolveLeaf root pattern >>= mergeFound resolveLeaf := by
  rw [valueAt, select, ← walk, bind_assoc]
  congr 1
  funext found
  rw [mergeFound, bind_assoc]
  congr 1
  funext history
  rw [pure_bind, Tree.mergeWith_eq_merge (fun _ => isTerminal_of_isDeferred)]
  rfl

theorem keeps_mergeFound {I : Session σ → Prop} {found : List (Option Draft)}
    (hFound : ∀ e, some e ∈ found → ∀ leaf ∈ e.deferredLeaves, leaf ∈ root.deferredLeaves)
    (h : ∀ leaf ∈ root.deferredLeaves, (resolveLeaf leaf).Keeps I) :
    (mergeFound resolveLeaf found).Keeps I := by
  refine (Keeps.of_unchanged fun _ => rfl).bind fun history => ?_
  cases hMerge : Tree.merge (found.map (Option.map (settle history.leafValue?))) with
  | none => exact Keeps.pure none
  | some d =>
    refine (keeps_complete fun leaf hLeaf => ?_).map some
    obtain ⟨e, he, hIn⟩ := mem_deferredLeaves_of_merge hMerge hLeaf
    exact h leaf (hFound e he leaf hIn)

section

variable {C : Coupling (Session σ) (Session τ)} {otherLeaf : LeafResolver τ}

/-- On the one side some leaves are replaced before the merge, on the other side
none are. With terminals in their places that comes to the same. -/
theorem coupled_mergeFound {found : List (Option Draft)}
    (hFound : ∀ e, some e ∈ found → ∀ leaf ∈ e.deferredLeaves, leaf ∈ root.deferredLeaves)
    (hFaithful : Faithful resolveLeaf root) (hRecalls : Recalls resolveLeaf)
    (hTerminals : ∀ s, C.leftVoid s ∨ s.history.Terminals)
    (hBlank : ∀ s t, C.related s t → t.history = [])
    (h : ∀ leaf ∈ root.deferredLeaves, Coupled C (resolveLeaf leaf) (otherLeaf leaf)) :
    Coupled C (mergeFound resolveLeaf found) (mergeFound otherLeaf found) where
  keepsLeft := keeps_mergeFound hFound fun leaf hLeaf => (h leaf hLeaf).keepsLeft
  keepsRight := keeps_mergeFound hFound fun leaf hLeaf => (h leaf hLeaf).keepsRight
  step s t hst := by
    rcases hTerminals s with hVoid | hTerminal
    -- void before the merge, void after it
    · exact .inl (keeps_mergeFound hFound (fun leaf hLeaf => (h leaf hLeaf).keepsLeft) s hVoid)
    have hLeft : Tree.merge (found.map (Option.map (settle s.history.leafValue?))) =
        (Tree.merge found).map (settle s.history.leafValue?) :=
      merge_settle_of_terminals fun _ _ _ _ _ hv => hTerminal.isTerminal hv
    -- a history without events replaces nothing
    have hRight : found.map (Option.map (settle t.history.leafValue?)) = found := by
      have hSame : settle t.history.leafValue? = id :=
        funext (settle_of_none fun leaf => by rw [hBlank s t hst]; rfl)
      rw [hSame, Option.map_id_fun, List.map_id]
    rw [mergeFound, mergeFound, run_bind_of_ok (Session.run_currentHistory s),
      run_bind_of_ok (Session.run_currentHistory t), hLeft, hRight]
    cases hMerge : Tree.merge found with
    | none => exact .inr (.inr (.inr ⟨rfl, hst⟩))
    | some d =>
      have hIn : ∀ leaf ∈ deferredLeaves d, leaf ∈ root.deferredLeaves := by
        intro leaf hLeaf
        obtain ⟨e, he, hIn⟩ := Tree.mem_leaves_of_merge hMerge (mem_deferredLeaves.1 hLeaf)
        exact hFound e he leaf (mem_deferredLeaves.2 hIn)
      have hSettle := complete_settle hRecalls
        (fun leaf hLeaf => hFaithful.grows leaf (hIn leaf hLeaf)) s
      have hComplete : Coupled C (complete resolveLeaf d) (complete otherLeaf d) :=
        coupled_complete fun leaf hLeaf => h leaf (hIn leaf hLeaf)
      have hStep := (hComplete.map some).step s t hst
      rw [run_map, ← hSettle, ← run_map] at hStep
      exact hStep

theorem coupled_valueAt (hFaithful : Faithful resolveLeaf root) (hRecalls : Recalls resolveLeaf)
    (hTerminals : ∀ s, C.leftVoid s ∨ s.history.Terminals)
    (hBlank : ∀ s t, C.related s t → t.history = [])
    (h : ∀ leaf ∈ root.deferredLeaves, Coupled C (resolveLeaf leaf) (otherLeaf leaf))
    (pattern : Pattern) :
    Coupled C (valueAt resolveLeaf root pattern) (valueAt otherLeaf root pattern) := by
  rw [valueAt_eq, valueAt_eq]
  refine (coupled_walk h).bind_of_run fun found hRun => ?_
  refine coupled_mergeFound (fun e he => ?_) hFaithful hRecalls hTerminals hBlank h
  rcases hRun with ⟨s, s', hRun⟩ | ⟨t, t', hRun⟩
  · exact mem_deferredLeaves_of_walk hRun he
  · exact mem_deferredLeaves_of_walk hRun he

end

end

-- ---------------------------------------------------------------------------
-- Values recomputed
-- ---------------------------------------------------------------------------

section

variable {rules : ExpansionRules σ} {root : Draft}

/-- Couples an evaluation that led to a history to one without a memory. -/
def replaying (σ : Type) (h : History) : Coupling (Session σ) (Session σ) :=
  { related := fun _ t => t.history = []
    leftVoid := fun s => ¬ s.history.Precedes h
    rightVoid := fun _ => False
    forgiving := True }

theorem matching_replaying (hRules : rules.Functional) (h : History) :
    Matching (replaying σ h) rules rules :=
  matching_self fun r hr request => coupled_onClient (fun _ hVoid => hVoid) (fun _ hVoid => hVoid)
    (fun c d => hRules r hr request c d) fun _ _ hBlank => hBlank

/-- An evaluation and a recomputation are coupled if they resolve leaves alike. -/
theorem coupled_evaluation {C : Coupling (Session σ) (Session σ)} (hRules : Matching C rules rules)
    (hTerminals : ∀ s, C.leftVoid s ∨ s.history.Terminals)
    (hBlank : ∀ s t, C.related s t → t.history = []) {n depth : Nat} {stack : List Location}
    {leaf : Leaf}
    (h : ∀ other ∈ root.deferredLeaves, Coupled C (resolve rules root n (some leaf.location) other)
      (recompute rules root depth stack other)) :
    Coupled C (evaluation rules root n leaf)
      (interpolateLeaf rules (scope (recompute rules root depth stack) root) leaf) :=
  coupled_interpolateLeaf hRules
    (coupled_scope
      (coupled_valueAt (faithful_resolve n _) (recalls_resolve n _) hTerminals hBlank h))
    leaf

/-- Recomputing a leaf gives the value that the history has for it. -/
def Recomputes (rules : ExpansionRules σ) (root : Draft) (h : History) (depth : Nat)
    (stack : List Location) : Prop :=
  ∀ leaf ∈ root.deferredLeaves, ∀ v, h.leafValue? leaf = some v → ∀ t : Session σ, t.history = [] →
    ∃ t', (recompute rules root depth stack leaf).run t = (.ok v, t') ∧ t'.history = []

theorem coupled_replaying {h : History} {depth : Nat} {stack : List Location}
    (hRecomputes : Recomputes rules root h depth stack) (n : Nat) (trigger : Option Location) :
    ∀ leaf ∈ root.deferredLeaves, Coupled (replaying σ h) (resolve rules root n trigger leaf)
      (recompute rules root depth stack leaf) := by
  intro leaf hLeaf
  have hFaithful : Faithful (resolve rules root n trigger) root := faithful_resolve n trigger
  refine ⟨fun s hs hLater => ?_, fun _ hVoid => hVoid.elim, fun s t hBlank => ?_⟩
  · exact hs ((Session.precedes_of_keeps (hFaithful.grows leaf hLeaf) rfl).trans hLater)
  · rcases hRun : (resolve rules root n trigger leaf).run s with ⟨r, s'⟩
    cases r with
    | error e => exact .inr (.inr (.inl ⟨trivial, e, rfl⟩))
    | ok v =>
      by_cases hLater : s'.history.Precedes h
      · -- what has been resolved on the way to `h` has a value in `h`
        have hValue := hLater.leafValue leaf v (hFaithful.records leaf hLeaf s v s' hRun)
        obtain ⟨t', hAgain, hBlank'⟩ := hRecomputes leaf hLeaf v hValue t hBlank
        rw [hAgain]
        exact .inr (.inr (.inr ⟨rfl, hBlank'⟩))
      · exact .inl hLater

/-- **Values can be recomputed.** The explanation of a value ends with the history
before it, in which all that the value depends on has been recomputed already. -/
theorem recomputes_of_explained (hRules : rules.Functional) {h : History}
    (hExplained : Explained rules root h) (hTerminals : h.Terminals) :
    ∀ (depth : Nat) (stack : List Location), root.Stack depth stack →
      (∀ location ∈ stack, h.value? location = none) → Recomputes rules root h depth stack := by
  induction hExplained with
  | nil =>
    intro _ _ _ _ leaf _ v hValue
    cases hValue
  | @cons location p h earlier unresolved explains ih =>
    intro depth stack hStack hFree leaf hLeaf v hValue t hBlank
    have hGrows : h.Precedes ((location, p) :: h) := (Precedes.refl h).cons unresolved p
    -- the induction is on the history: `h` has one event less
    have hEarlier := ih (hTerminals.of_precedes hGrows)
    have hFreeBefore : ∀ l ∈ stack, h.value? l = none :=
      fun l hl => hGrows.value?_eq_none (hFree l hl)
    by_cases hSame : leaf.location = location
    · -- the value was recorded last, so its explanation ends with `h`
      have hNew : leaf.location ∉ stack := by
        intro hIn
        rw [leafValue?, hFree leaf.location hIn] at hValue
        cases hValue
      obtain ⟨depth, rfl⟩ := hStack.exists_succ hLeaf hNew
      have hResolved := value?_eq_some_iff.1 hValue
      rw [hSame, progress_cons_self] at hResolved
      obtain ⟨n, trigger, s, w, s', hRun, hEnd, rfl⟩ := explains leaf hLeaf hSame v hResolved
      -- what the leaf depends on is recomputed with the leaf on the stack
      have hInner : Recomputes rules root h depth (leaf.location :: stack) := by
        refine hEarlier depth _ (hStack.push hLeaf hNew) fun l hl => ?_
        rcases List.mem_cons.1 hl with rfl | hl
        · rw [hSame, unresolved]
        · exact hFreeBefore l hl
      have hCoupled : Coupled (replaying σ h) (evaluation rules root n leaf)
          (interpolateLeaf rules
            (scope (recompute rules root depth (leaf.location :: stack)) root) leaf) := by
        refine coupled_evaluation (matching_replaying hRules h) (fun s => ?_)
          (fun _ _ hBlank => hBlank) (coupled_replaying hInner n (some leaf.location))
        exact (Classical.em (s.history.Precedes h)).symm.imp id
          (hTerminals.of_precedes hGrows).of_precedes
      have hReached : ¬ (replaying σ h).leftVoid
          ((evaluation rules root n leaf).run (begun s trigger leaf)).2 := by
        rw [hRun]
        exact not_not.2 (hEnd ▸ Precedes.refl _)
      obtain ⟨hAnswer, hBlank'⟩ := hCoupled.agree hBlank hReached id fun _ => ⟨w, by rw [hRun]⟩
      rw [recompute_of_not_mem hNew, run_map]
      refine ⟨_, Prod.ext ?_ rfl, hBlank'⟩
      rw [← hAnswer, hRun]
      rfl
    · have hOld : h.leafValue? leaf = some v :=
        (value?_cons_of_ne (Ne.symm hSame) p h).symm.trans hValue
      exact hEarlier depth stack hStack hFreeBefore leaf hLeaf v hOld t hBlank

end

end Expansion

end LayeredConfig
