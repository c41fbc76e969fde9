import LayeredConfig.Proofs.Explanation
import LayeredConfig.Proofs.Recording
import Mathlib

/-!
# LayeredConfig — expansion solves its equations

Each text of a tree is an equation for the value at its place: it is what the
text comes to when its references are looked up in the expanded tree. Expansion
looks them up in a tree that is only partly expanded, and resolves leaves on the
way; the values it arrives at solve the equations none the less, as long as each
pattern looked up names one path.

* `Resolver.inTree`            — a scope that looks into a finished tree.
* `Expansion.scopeRequests`    — what reaches that scope from a text.
* `Expansion.expand_solves`    — the values of an expanded tree solve the equations.
-/

namespace LayeredConfig

open Eval History

-- ---------------------------------------------------------------------------
-- Finished trees
-- ---------------------------------------------------------------------------

/-- What a finished tree has under the pattern that is asked for. Calls are
declined, and so is text that is no pattern. -/
def Value.answer? (tree : Value) (request : Request) : Option Value :=
  if request.call.isSome then none
  else
    match Value.get tree request.expression with
    | .error _ => none
    | .ok found => found

/-- Looks patterns up in a finished tree. -/
def Resolver.inTree (tree : Value) : Resolver σ := fun request => pure (tree.answer? request)

/-- The expression is no pattern, or one that names a single path. -/
def Request.namesOnePath (request : Request) : Bool :=
  match Pattern.parse request.expression with
  | .error _ => true
  | .ok pattern => pattern.paths.length == 1

-- ---------------------------------------------------------------------------
-- Notes
-- ---------------------------------------------------------------------------

/-- The state of a client, and notes on requests, the last one first. -/
abbrev Noted (σ : Type) := σ × List Request

/-- Makes a note of each request. -/
def Noted.recorder : Recorder (Session (Noted σ)) :=
  { made := fun _ request s => { s with client := (s.client.1, request :: s.client.2) } }

/-- The resolver, with a note made of each request. -/
def Resolver.noting (r : Resolver (Session (Noted σ))) : Resolver (Session (Noted σ)) :=
  r.recording Noted.recorder 0

namespace Expansion

open Draft

/-- The requests that reach the scope while a leaf's text is interpolated against
a finished tree. -/
def scopeRequests (rules : ExpansionRules σ) (tree : Value) (leaf : Leaf) (c : σ) : List Request :=
  ((interpolateLeaf (rules.mapResolvers (Resolver.beside (List Request)))
    (Resolver.noting (Resolver.inTree tree)) leaf).run (Session.start (c, []))).2.client.2

section

variable {rules : ExpansionRules σ} {root : Draft} {v : Value} {final : History}

/-- Couples resolving to looking up in the finished tree, up to the history that
finished the tree and up to requests that name several paths. -/
def solving (σ : Type) (final : History) : Coupling (Session σ) (Session (Noted σ)) :=
  { related := fun _ _ => True
    leftVoid := fun s => ¬ s.history.Precedes final
    rightVoid := fun t => ∃ request ∈ t.client.2, request.namesOnePath = false
    forgiving := True }

/-- Couples two interpolations against one finished tree, with and without notes. -/
def unnoticed (σ : Type) : Coupling (Session σ) (Session (Noted σ)) :=
  Coupling.throughout fun _ _ => True

theorem matching_solving (hRules : rules.Functional) :
    Matching (solving σ final) rules (rules.mapResolvers (Resolver.beside (List Request))) :=
  matching_map fun r hr request => coupled_onClient (fun _ h => h) (fun _ h => h)
    (fun c d => hRules r hr request c d.1) fun _ _ _ => trivial

theorem matching_unnoticed (hRules : rules.Functional) :
    Matching (unnoticed σ) rules (rules.mapResolvers (Resolver.beside (List Request))) :=
  matching_map fun r hr request => coupled_onClient (fun _ h => h) (fun _ h => h)
    (fun c d => hRules r hr request c d.1) fun _ _ _ => trivial

theorem run_noting (request : Request) (t : Session (Noted σ)) :
    (Resolver.noting (Resolver.inTree v) request).run t =
      (.ok (v.answer? request), { t with client := (t.client.1, request :: t.client.2) }) := rfl

/-- What the scope answers, the finished tree answers, too. -/
theorem scope_eq_answer? {resolveLeaf : LeafResolver σ} (h : Faithful resolveLeaf root)
    {request : Request} (hOne : request.namesOnePath = true) {s s' : Session σ} {o : Option Value}
    (hRun : (scope resolveLeaf root request).run s = (.ok o, s'))
    (hFinal : s'.history.Precedes final) (hSettled : settle final.leafValue? root = known v) :
    o = v.answer? request := by
  rw [scope] at hRun
  rw [Value.answer?, Value.get]
  rw [Request.namesOnePath] at hOne
  split at hRun
  · rename_i hCall
    cases hRun
    rw [if_pos hCall]
  · rename_i hCall
    rw [if_neg hCall]
    cases hParse : Pattern.parse request.expression with
    | error reason =>
      rw [hParse] at hRun
      cases hRun
      rfl
    | ok pattern =>
      rw [hParse] at hRun
      simp only [hParse, beq_iff_eq] at hOne
      exact valueAt_eq_merge_of_one_path hOne h hRun hFinal hSettled

theorem coupled_solving (hRules : rules.Functional)
    (hSettled : settle final.leafValue? root = known v) (depth : Nat) (leaf : Leaf) :
    Coupled (solving σ final) (evaluation rules root depth leaf)
      (interpolateLeaf (rules.mapResolvers (Resolver.beside (List Request)))
        (Resolver.noting (Resolver.inTree v)) leaf) := by
  refine coupled_interpolateLeaf (matching_solving hRules) (fun request => ⟨?_, ?_, ?_⟩) leaf
  -- a history that has left the way to `final` does not come back to it
  · intro s hs hFinal
    exact hs ((scope_precedes (faithful_resolve depth _) rfl).trans hFinal)
  · rintro t ⟨noted, hNoted, hPaths⟩
    exact ⟨noted, List.mem_cons_of_mem _ hNoted, hPaths⟩
  · intro s t _
    rcases hRun : (scope (resolve rules root depth (some leaf.location)) root request).run s
      with ⟨r, s'⟩
    rw [run_noting]
    cases r with
    | error e => exact .inr (.inr (.inl ⟨trivial, e, rfl⟩))
    | ok o =>
      -- on the way to `final`, and with one path, the answers are the same
      by_cases hFinal : s'.history.Precedes final
      · cases hOne : request.namesOnePath with
        | false => exact .inr (.inl ⟨request, List.mem_cons_self, hOne⟩)
        | true =>
          rw [scope_eq_answer? (faithful_resolve depth _) hOne hRun hFinal hSettled]
          exact .inr (.inr (.inr ⟨rfl, trivial⟩))
      · exact .inl hFinal

theorem coupled_unnoticed (hRules : rules.Functional) (v : Value) (leaf : Leaf) :
    Coupled (unnoticed σ) (interpolateLeaf rules (Resolver.inTree v) leaf)
      (interpolateLeaf (rules.mapResolvers (Resolver.beside (List Request)))
        (Resolver.noting (Resolver.inTree v)) leaf) :=
  coupled_interpolateLeaf (matching_unnoticed hRules)
    (fun _ => coupled_throughout_iff.2 fun _ _ _ => ⟨rfl, trivial⟩) leaf

end

-- ---------------------------------------------------------------------------
-- Solutions
-- ---------------------------------------------------------------------------

/-- **Expansion solves its equations.** The value of a text in the expanded tree is
what the text comes to when its references are looked up in the expanded tree,
if each pattern that is looked up then names one path. -/
theorem expand_solves {t v : Value} (ht : t.WellFormed) {rules : ExpansionRules σ}
    (hRules : rules.Functional) {c c' : σ} (hRun : (t.expand rules).run c = (.ok v, c'))
    {location : Location} {raw : Text} (hLeaf : t.at? location = some (.leaf (.text raw)))
    (hOne : ∀ request ∈ scopeRequests rules v ⟨location, raw⟩ c, request.namesOnePath = true) :
    ∃ w, (∀ s, ((interpolateLeaf rules (Resolver.inTree v) ⟨location, raw⟩).run s).1 = .ok w) ∧
      v.at? location = some (withOriginOf ⟨location, raw⟩ w) := by
  obtain ⟨s, hAll⟩ := run_all_of_expand hRun
  obtain ⟨hSettled, hExplained⟩ := explained_of_all ht hAll
  obtain ⟨w', hValue, hAt⟩ := value_at_of_settle_eq hSettled (at?_ofValue hLeaf)
  obtain ⟨_, hEarlier, depth, trigger, s₀, w, s₁, hEval, rfl, rfl⟩ :=
    hExplained.exists_explains (mem_deferredLeaves_ofValue hLeaf) hValue
  refine ⟨w, fun s' => ?_, hAt⟩
  have hSingle : ¬ (solving σ s.history).rightVoid ((interpolateLeaf
      (rules.mapResolvers (Resolver.beside (List Request))) (Resolver.noting (Resolver.inTree v))
        ⟨location, raw⟩).run (Session.start (c, []))).2 := by
    rintro ⟨request, hRequest, hPaths⟩
    rw [hOne request hRequest] at hPaths
    cases hPaths
  have hReached : ¬ (solving σ s.history).leftVoid
      ((evaluation rules (Draft.ofValue t) depth ⟨location, raw⟩).run
        (begun s₀ trigger ⟨location, raw⟩)).2 := by
    rw [hEval]
    exact not_not.2 hEarlier
  -- the evaluation gives what the noted interpolation gives
  have hNoted := ((coupled_solving hRules hSettled depth ⟨location, raw⟩).agree trivial hReached
    hSingle fun _ => ⟨w, by rw [hEval]⟩).1
  -- and that gives what the interpolation gives from any state
  have hPlain := (coupled_throughout_iff.1 (coupled_unnoticed hRules v ⟨location, raw⟩) s'
    (Session.start (c, [])) trivial).1
  rw [hPlain, ← hNoted, hEval]

/-- A reference with a reference in it, to a text that is expanded itself. -/
def nestedTree : Value :=
  .table [("a", Value.ofString "$\x7bb.$\x7bk\x7d\x7d"),
    ("b", .table [("x", Value.ofString "v$\x7bc\x7d")]),
    ("c", .leaf (.bool true)), ("k", Value.ofString "x")]

def nestedResult : Value :=
  .table [("a", Value.ofString "vtrue"), ("b", .table [("x", Value.ofString "vtrue")]),
    ("c", .leaf (.bool true)), ("k", Value.ofString "x")]

theorem expand_solves_nested :
    ∃ w, (∀ s, ((interpolateLeaf .treeOnly (Resolver.inTree nestedResult)
        ⟨[.key "a"], Text.plain "$\x7bb.$\x7bk\x7d\x7d"⟩).run s).1 = .ok w) ∧
      nestedResult.at? [.key "a"] =
        some (withOriginOf ⟨[.key "a"], Text.plain "$\x7bb.$\x7bk\x7d\x7d"⟩ w) := by
  have hOrdered : nestedTree.WellFormed :=
    ⟨by decide, trivial, ⟨by decide, trivial, trivial⟩, trivial, trivial, trivial⟩
  have hRun : (nestedTree.expand .treeOnly).run () = (.ok nestedResult, ()) := by cbv
  have hOne : (scopeRequests .treeOnly nestedResult
      ⟨[.key "a"], Text.plain "$\x7bb.$\x7bk\x7d\x7d"⟩ ()).all Request.namesOnePath = true := by
    decide +kernel
  exact expand_solves hOrdered ExpansionRules.functional_treeOnly hRun rfl (List.all_eq_true.1 hOne)

end Expansion

end LayeredConfig
