import LayeredConfig.Proofs.Independence
import LayeredConfig.Proofs.Multipath

/-!
# LayeredConfig — after a full expansion

Once a whole tree has been expanded, every leaf has its value, and the expansion is
no more than that tree: each later call only looks values up. It walks and merges
drafts in which whole sequences and tables stand for leaves, and arrives where
walking and merging in the tree itself arrives.

* `Expansion.finishedAnswer`   — what a finished tree has for a call.
* `Expansion.run_valueAt_of_settled` — the value at a pattern once all leaves have
  values.
* `Expansion.answer_after_all` — after a full expansion, calls answer what the
  finished tree has, and change nothing.
-/

namespace LayeredConfig

open Eval History

namespace Expansion

open Draft

/-- What a finished tree has for a call. -/
def finishedAnswer (tree : Value) : Query → Except ConfigError (Option Value)
  | .get spec => tree.get spec
  | .all => .ok (some tree)

section

variable {resolveLeaf : LeafResolver σ} {root d : Draft} {s : Session σ} {v : Value}

-- ---------------------------------------------------------------------------
-- Walking where all leaves have values
-- ---------------------------------------------------------------------------

theorem run_follow_of_resolved (hRecalls : Recalls resolveLeaf) {path : KeyPath}
    (hAll : ∀ leaf ∈ d.deferredLeaves, ∃ w, s.history.leafValue? leaf = some w) :
    ∃ found, (follow resolveLeaf path d).run s = (.ok found, s) := by
  induction path, d using follow.induct with
  | case1 d => exact ⟨some d, rfl⟩
  | case2 segment rest leaf =>
    obtain ⟨w, hValue⟩ := hAll leaf (mem_deferredLeaves_leaf leaf)
    rw [follow_deferred]
    exact ⟨_, run_map_eq_ok.2 ⟨w, hRecalls leaf s w hValue, rfl⟩⟩
  | case3 segment rest d hNot hChild =>
    rw [follow_of_child? hNot, hChild]
    exact ⟨none, rfl⟩
  | case4 segment rest d hNot below hChild ih =>
    rw [follow_of_child? hNot, hChild]
    exact ih fun leaf hLeaf => hAll leaf (mem_deferredLeaves_of_child? hChild leaf hLeaf)

theorem run_walk_of_resolved (hRecalls : Recalls resolveLeaf) (pattern : Pattern)
    (hAll : ∀ leaf ∈ root.deferredLeaves, ∃ w, s.history.leafValue? leaf = some w) :
    ∃ found, (walk resolveLeaf root pattern).run s = (.ok found, s) := by
  have hFind : ∀ path : KeyPath, ∃ o, (find resolveLeaf root path).run s = (.ok o, s) := by
    intro path
    rw [find]
    split
    · exact ⟨none, rfl⟩
    · exact run_follow_of_resolved hRecalls hAll
  choose o ho using hFind
  rw [walk, Pattern.mapPaths_eq_mapM]
  refine ⟨pattern.paths.map o, run_mapM_of_forall₂ ?_⟩
  rw [List.forall₂_map_right_iff]
  exact List.forall₂_same.2 fun path _ => ho path

-- ---------------------------------------------------------------------------
-- Values where all leaves have values
-- ---------------------------------------------------------------------------

/-- Where every leaf has its value, a pattern has the value that it has in the
finished tree, and nothing is resolved any more. -/
theorem run_valueAt_of_settled (hRecalls : Recalls resolveLeaf) (h : Faithful resolveLeaf root)
    (hSettled : settle s.history.leafValue? root = known v) (pattern : Pattern) :
    (valueAt resolveLeaf root pattern).run s =
      (.ok (Tree.merge (pattern.paths.map v.get?)), s) := by
  obtain ⟨found, hWalk⟩ := run_walk_of_resolved hRecalls pattern
    fun leaf hLeaf => exists_value_of_settle_eq hSettled hLeaf
  have hSelect : (select resolveLeaf root pattern).run s =
      (.ok ((Tree.merge (pattern.paths.map v.get?)).map known), s) := by
    refine run_select_eq_ok.2 ⟨found, hWalk, ?_⟩
    rw [walk_settled h hWalk s.history (Precedes.refl _), merge_places_of_settled hSettled]
  rw [valueAt, run_bind_of_ok hSelect]
  cases Tree.merge (pattern.paths.map v.get?) with
  | none => rfl
  | some w =>
    show (some <$> complete resolveLeaf (known w)).run s = _
    rw [complete_known]
    rfl

theorem run_complete_of_settled (hRecalls : Recalls resolveLeaf) (h : Faithful resolveLeaf root)
    (hSettled : settle s.history.leafValue? root = known v) :
    (complete resolveLeaf root).run s = (.ok v, s) := by
  rw [← complete_settle hRecalls h.grows s, hSettled, complete_known]
  rfl

end

-- ---------------------------------------------------------------------------
-- Calls
-- ---------------------------------------------------------------------------

theorem run_answer_of_settled {t v : Value} {s : Session σ}
    (hSettled : settle s.history.leafValue? (Draft.ofValue t) = known v)
    (rules : ExpansionRules σ) (query : Query) :
    ((ofValue t rules).answer query).run s = (finishedAnswer v query, s) := by
  have hRecalls : Recalls (ofValue t rules).resolveLeaf := recalls_resolve _ none
  have hFaithful : Faithful (ofValue t rules).resolveLeaf (Draft.ofValue t) :=
    faithful_resolve _ none
  rw [answer_eq]
  cases query with
  | get spec =>
    rw [answerBy, finishedAnswer, Value.get]
    cases Pattern.parse spec with
    | error reason => rfl
    | ok pattern => exact run_valueAt_of_settled hRecalls hFaithful hSettled pattern
  | all => exact run_map_eq_ok.2 ⟨v, run_complete_of_settled hRecalls hFaithful hSettled, rfl⟩

theorem after_of_settled {t v : Value} {s : Session σ}
    (hSettled : settle s.history.leafValue? (Draft.ofValue t) = known v)
    (rules : ExpansionRules σ) (queries : List Query) :
    (ofValue t rules).after queries s = s := by
  induction queries with
  | nil => rfl
  | cons query rest ih => rw [after, run_answer_of_settled hSettled, ih]

/-- **After a full expansion the expansion is its tree.** In whatever session the
whole tree was expanded, every later call answers what the finished tree has, and
leaves the session and so the client's state as it is. The rules may be any by then:
no resolver is asked. -/
theorem answer_after_all {t v : Value} {rules : ExpansionRules σ} {s s' : Session σ}
    (hRun : (ofValue t rules).all.run s = (.ok v, s')) (others : ExpansionRules σ)
    (later : List Query) (query : Query) :
    ((ofValue t others).answer query).run ((ofValue t others).after later s') =
      (finishedAnswer v query, s') := by
  have hFaithful : Faithful (ofValue t rules).resolveLeaf (Draft.ofValue t) :=
    faithful_resolve _ none
  have hSettled := complete_settled hFaithful hRun s'.history (Precedes.refl _)
  rw [after_of_settled hSettled, run_answer_of_settled hSettled]

/-- Rules by which every reference is an error. -/
def refusing : ExpansionRules Unit :=
  { ExpansionRules.treeOnly with resolvers := [fun _ => Eval.fail .undecodable] }

def expandedAlternatives : Value :=
  .table [("a", .table [("x", .leaf (.bool true))]), ("b", .table [("y", .leaf (.bool true))]),
    ("d", .table [("x", .leaf (.bool true))])]

/-- The table that came in place of a leaf is merged like any other, and nobody is asked. -/
theorem answer_after_all_merged :
    let first := (ofValue alternatives .treeOnly).all.run (Session.start ())
    ((ofValue alternatives refusing).answer (.get "(a|b)")).run
        ((ofValue alternatives refusing).after [.get "a.x", .all] first.2) =
      (.ok (some (.table [("x", .leaf (.bool true)), ("y", .leaf (.bool true))])), first.2) := by
  intro first
  have hRun : first = (.ok expandedAlternatives, first.2) := Prod.ext (by rfl) rfl
  exact answer_after_all hRun refusing [.get "a.x", .all] (.get "(a|b)")

end Expansion

end LayeredConfig
