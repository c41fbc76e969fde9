import LayeredConfig.Expansion.Basic
import LayeredConfig.Proofs.Resolution

/-!
# LayeredConfig — where values come from

Every value in the history of an expansion has an explanation: an evaluation of
its leaf that gave it, and that ended with exactly the history that stood before
the value was recorded. So a property of all values can be proved from the oldest
to the latest one, and the evaluation that gave a value can be looked at again.

* `Expansion.Explains`   — an evaluation that gave a value.
* `Expansion.Explained`  — histories all of whose values are explained.
* `Expansion.explained_resolve` — calls lead from such histories to such histories.
* `Expansion.explained_of_all`  — so does the expansion of a whole tree.
-/

namespace LayeredConfig

open Eval History

namespace Expansion

open Draft

/-- An evaluation of the leaf that ended with the history `h` gave the value. -/
def Explains (rules : ExpansionRules σ) (root : Draft) (h : History) (leaf : Leaf) (v : Value) :
    Prop :=
  ∃ depth trigger s w s',
    (evaluation rules root depth leaf).run (begun s trigger leaf) = (.ok w, s') ∧
      s'.history = h ∧ v = withOriginOf leaf w

/-- Nothing was recorded for leaves that had a value, and each value recorded
has its explanation by what was recorded before. -/
inductive Explained (rules : ExpansionRules σ) (root : Draft) : History → Prop
  | nil : Explained rules root []
  | cons {location : Location} {p : Progress} {h : History} (earlier : Explained rules root h)
      (unresolved : h.value? location = none)
      (explains : ∀ leaf ∈ root.deferredLeaves, leaf.location = location →
        ∀ v, p = .resolved v → Explains rules root h leaf v) :
      Explained rules root ((location, p) :: h)

section

variable {rules : ExpansionRules σ} {root : Draft}

/-- The explanation of a value stands somewhere in the history, before the value. -/
theorem Explained.exists_earlier {h : History} (hExplained : Explained rules root h) {leaf : Leaf}
    (hLeaf : leaf ∈ root.deferredLeaves) {v : Value} (hValue : h.leafValue? leaf = some v) :
    ∃ earlier : History, earlier.Precedes h ∧ earlier.length < h.length ∧
      Explained rules root earlier ∧ Explains rules root earlier leaf v := by
  induction hExplained with
  | nil => cases hValue
  | @cons location p h earlier unresolved explains ih =>
    have hGrows : h.Precedes ((location, p) :: h) := (Precedes.refl h).cons unresolved p
    by_cases hSame : leaf.location = location
    · -- the value is the one recorded last
      have hResolved := value?_eq_some_iff.1 hValue
      rw [hSame, progress_cons_self] at hResolved
      exact ⟨h, hGrows, Nat.lt_succ_self _, earlier, explains leaf hLeaf hSame v hResolved⟩
    · have hOld : h.leafValue? leaf = some v :=
        (value?_cons_of_ne (Ne.symm hSame) p h).symm.trans hValue
      obtain ⟨older, hOlder, hShorter, hRest⟩ := ih hOld
      exact ⟨older, hOlder.trans hGrows, Nat.lt_succ_of_lt hShorter, hRest⟩

theorem Explained.exists_explains {h : History} (hExplained : Explained rules root h) {leaf : Leaf}
    (hLeaf : leaf ∈ root.deferredLeaves) {v : Value} (hValue : h.leafValue? leaf = some v) :
    ∃ earlier : History, earlier.Precedes h ∧ Explains rules root earlier leaf v := by
  obtain ⟨earlier, hEarlier, -, -, hExplains⟩ := hExplained.exists_earlier hLeaf hValue
  exact ⟨earlier, hEarlier, hExplains⟩

theorem explained_kept (hRoot : root.Distinct) :
    KeptByEvents rules root (Explained rules root) where
  started leaf _ trigger h hOld hPending := by
    refine .cons hOld (value?_of_pending hPending) fun _ _ _ v hResolved => ?_
    cases hResolved
  failed leaf _ trigger h hOld hEvaluating := by
    refine .cons hOld (value?_of_evaluating hEvaluating) fun _ _ _ v hResolved => ?_
    cases hResolved
  succeeded leaf hLeaf depth trigger s w s' hRun hOld hEvaluating := by
    refine .cons hOld (value?_of_evaluating hEvaluating) fun other hOther hSame v hResolved => ?_
    cases hResolved
    -- the leaf at this location is the one that was evaluated
    rw [hRoot other hOther leaf hLeaf hSame]
    exact ⟨depth, trigger, s, w, s', hRun, rfl, rfl⟩

theorem explained_resolve (hRoot : root.Distinct) (depth : Nat) (trigger : Option Location) :
    ∀ leaf ∈ root.deferredLeaves, (resolve rules root depth trigger leaf).Keeps
      (fun s => Explained rules root s.history) :=
  keeps_resolve (explained_kept hRoot) depth trigger

end

theorem run_all_of_expand {t v : Value} {rules : ExpansionRules σ} {c c' : σ}
    (h : (t.expand rules).run c = (.ok v, c')) :
    ∃ s, (ofValue t rules).all.run (Session.start c) = (.ok v, s) := by
  rcases hRun : (ofValue t rules).all.run (Session.start c) with ⟨r, s⟩
  have hExpand : (t.expand rules).run c = (r, s.client) :=
    congrArg (fun run => (run.1, run.2.client)) hRun
  rw [hExpand] at h
  cases h
  exact ⟨s, rfl⟩

/-- The expansion of a whole tree settles the tree, and explains each value. -/
theorem explained_of_all {t : Value} (ht : t.WellFormed) {rules : ExpansionRules σ} {c : σ}
    {v : Value} {s : Session σ}
    (hRun : (ofValue t rules).all.run (Session.start c) = (.ok v, s)) :
    settle s.history.leafValue? (Draft.ofValue t) = known v ∧
      Explained rules (Draft.ofValue t) s.history := by
  constructor
  · exact complete_settled (faithful_resolve _ none) hRun s.history (Precedes.refl _)
  · exact (keeps_complete (explained_resolve (distinct_ofValue ht) _ none)).of_run hRun .nil

end Expansion

end LayeredConfig
