import LayeredConfig.Proofs.Chain
import LayeredConfig.Proofs.Explanation
import LayeredConfig.Proofs.Reference
import Mathlib.Logic.Relation

/-!
# LayeredConfig — what a leaf depends on

A leaf whose text has a reference to a plain path needs the leaves that the path leads
to: these have values before the leaf has one. The history orders the values that are
given, so no leaf with a value needs itself, by however many steps, and a tree in which
some leaf does has no expansion.

* `Draft.leavesAlong`     — the leaves that a path leads to.
* `Expansion.Needs`       — what the text of a leaf says it depends on.
* `Expansion.expand_fails_of_cycle` — a leaf that needs itself makes expansion fail.
-/

namespace LayeredConfig

open Eval History

-- ---------------------------------------------------------------------------
-- The leaves along a path
-- ---------------------------------------------------------------------------

/-- The leaves that a path leads to: all that stand at its end or below it, or the one
that it runs into before its end. -/
def Draft.leavesAlong : KeyPath → Draft → List Leaf
  | [], draft => draft.deferredLeaves
  | _ :: _, .leaf (.deferred leaf) => [leaf]
  | segment :: rest, draft =>
    match draft.child? segment with
    | none => []
    | some below => leavesAlong rest below

namespace Expansion

open Draft

section

variable {resolveLeaf : LeafResolver σ} {d root : Draft} {leaf : Leaf} {path : KeyPath}
  {s s' : Session σ}

theorem leavesAlong_of_child? (h : ∀ leaf, d ≠ .leaf (.deferred leaf)) (segment : String)
    (rest : KeyPath) :
    leavesAlong (segment :: rest) d =
      match d.child? segment with
      | none => []
      | some below => leavesAlong rest below := by
  cases d with
  | leaf cell =>
    cases cell with
    | known s => rfl
    | deferred leaf => exact absurd rfl (h leaf)
  | seq items => rfl
  | table entries => rfl

/-- Who follows a path has resolved the leaf that it runs into, and is left with those
at its end. -/
theorem follow_leavesAlong (h : Faithful resolveLeaf d) {found : Option Draft}
    (hRun : (follow resolveLeaf path d).run s = (.ok found, s'))
    (hLeaf : leaf ∈ leavesAlong path d) :
    (∃ v, s'.history.leafValue? leaf = some v) ∨
      ∃ e, found = some e ∧ leaf ∈ e.deferredLeaves := by
  induction path, d using follow.induct with
  | case1 d =>
    cases hRun
    exact .inr ⟨d, rfl, hLeaf⟩
  | case2 segment rest met =>
    rw [follow_deferred] at hRun
    obtain ⟨v, hMet, -⟩ := run_map_eq_ok.1 hRun
    cases List.mem_singleton.1 hLeaf
    exact .inl ⟨v, h.records leaf (mem_deferredLeaves_leaf leaf) s v s' hMet⟩
  | case3 segment rest d hNot hChild =>
    rw [leavesAlong_of_child? hNot, hChild] at hLeaf
    exact absurd hLeaf List.not_mem_nil
  | case4 segment rest d hNot below hChild ih =>
    rw [leavesAlong_of_child? hNot, hChild] at hLeaf
    rw [follow_of_child? hNot, hChild] at hRun
    exact ih (h.mono (mem_deferredLeaves_of_child? hChild)) hRun hLeaf

/-- When a pattern that names one path has a value, the leaves that the path leads to
have values. -/
theorem exists_value_of_valueAt {pattern : Pattern} (hOne : pattern.paths = [path])
    (hPath : path ≠ []) (h : Faithful resolveLeaf root) {o : Option Value}
    (hRun : (valueAt resolveLeaf root pattern).run s = (.ok o, s'))
    (hLeaf : leaf ∈ leavesAlong path root) : ∃ v, s'.history.leafValue? leaf = some v := by
  obtain ⟨found, s₁, hWalk, hAfter, hValue⟩ := valueAt_settled h hRun
  have hPlaces : found.map (Option.map (settle s₁.history.leafValue?)) =
      places root pattern s₁.history := walk_settled h hWalk s₁.history (Precedes.refl _)
  rw [walk, Pattern.mapPaths_eq_mapM, hOne, List.mapM_cons, run_bind_eq_ok] at hWalk
  obtain ⟨place, s₂, hFind, hEnd⟩ := hWalk
  cases hEnd
  rw [find, List.isEmpty_eq_false_iff.2 hPath] at hFind
  rcases follow_leavesAlong h hFind hLeaf with ⟨v, hv⟩ | ⟨e, rfl, hIn⟩
  · exact ⟨v, hAfter.leafValue leaf v hv⟩
  · -- what the path leads to was completed, so all its leaves have values now
    have hMerge : Tree.merge (places root pattern s₁.history) =
        some (settle s₁.history.leafValue? e) := by
      rw [← hPlaces]
      rfl
    have hSettled := hValue s'.history (Precedes.refl _)
    rw [hMerge, Option.map_some, settle_settle hAfter.leafValue] at hSettled
    obtain ⟨w, -, hKnown⟩ := Option.map_eq_some_iff.1 hSettled.symm
    exact exists_value_of_settle_eq hKnown.symm hIn

end

-- ---------------------------------------------------------------------------
-- Needs
-- ---------------------------------------------------------------------------

/-- The text of the leaf has a reference, not nested in another one, to a plain path
that leads to the other leaf. -/
def Needs (root : Draft) (leaf other : Leaf) : Prop :=
  leaf ∈ root.deferredLeaves ∧
    ∃ path : KeyPath, path.Plain ∧ leaf.raw.RefersTo path ∧ other ∈ leavesAlong path root

/-- No resolver of the client answers such a reference. -/
def LeavesToScope (rules : ExpansionRules σ) (root : Draft) : Prop :=
  ∀ leaf ∈ root.deferredLeaves, ∀ path : KeyPath, path.Plain → leaf.raw.RefersTo path →
    ∀ r ∈ rules.resolvers, ∀ c a,
      ((r ⟨path.toString, none, some leaf.raw⟩).run c).1 ≠ .ok (some a)

section

variable {rules : ExpansionRules σ} {root : Draft} {h : History} {leaf other : Leaf}

/-- At the end of the evaluation of a leaf, all that the leaf needs has values. -/
theorem Explains.exists_value (hVars : rules.expandVars = true)
    (hClient : LeavesToScope rules root) {v : Value} (hExplains : Explains rules root h leaf v)
    (hNeeds : Needs root leaf other) : ∃ w, h.leafValue? other = some w := by
  obtain ⟨depth, trigger, s, w, s', hRun, rfl, -⟩ := hExplains
  obtain ⟨hLeaf, path, hPlain, hRefers, hOther⟩ := hNeeds
  have hFaithful : Faithful (resolve rules root depth (some leaf.location)) root :=
    faithful_resolve depth (some leaf.location)
  -- the text is a template with the reference in it, and this has been looked up
  rw [evaluation, interpolateLeaf, Template.interpolate, run_bind_eq_ok] at hRun
  obtain ⟨template, s₁, hParse, hEval⟩ := hRun
  have hTemplate : Template.parse leaf.raw.text = .ok template := congrArg Prod.fst hParse
  obtain ⟨s₂, o, s₃, hLookup, hLater⟩ :=
    Template.exists_lookup_of_eval (Template.mem_of_refersTo hRefers hTemplate) hEval
  rw [Template.lookup_text] at hLookup
  -- by the scope, as nobody before it answers
  obtain ⟨s₄, found, s₅, -, hScope, hAfter, -⟩ :=
    run_chain_of_scope hVars (hClient leaf hLeaf path hPlain hRefers) hLookup
  rw [scope_of_pattern (Pattern.parse_toString hPlain)] at hScope
  obtain ⟨x, hx⟩ :=
    exists_value_of_valueAt (Pattern.paths_word _ path) hPlain.1 hFaithful hScope hOther
  -- and what was recorded then still is
  have hKept : s₅.history.Precedes s'.history :=
    hLater (fun s => s₅.history.Precedes s.history)
      (keeps_chain (keeps_scope fun leaf hLeaf => hFaithful.grows leaf hLeaf _))
      (hAfter s₅.history.Precedes (Precedes.refl _))
  exact ⟨x, hKept.leafValue other x hx⟩

/-- A leaf that has a value got it later than all leaves that it needs, by however many
steps. -/
theorem Explained.exists_shorter (hVars : rules.expandVars = true)
    (hClient : LeavesToScope rules root) (hExplained : Explained rules root h) {v : Value}
    (hValue : h.leafValue? leaf = some v) (hNeeds : Relation.TransGen (Needs root) leaf other) :
    ∃ earlier w, Explained rules root earlier ∧ earlier.length < h.length ∧
      earlier.leafValue? other = some w := by
  have hStep : ∀ {h : History} {leaf other : Leaf} {v : Value}, Explained rules root h →
      h.leafValue? leaf = some v → Needs root leaf other →
        ∃ earlier w, Explained rules root earlier ∧ earlier.length < h.length ∧
          earlier.leafValue? other = some w := by
    intro h leaf other v hExplained hValue hNeeds
    obtain ⟨earlier, -, hShorter, hEarlier, hExplains⟩ :=
      hExplained.exists_earlier hNeeds.1 hValue
    obtain ⟨w, hw⟩ := hExplains.exists_value hVars hClient hNeeds
    exact ⟨earlier, w, hEarlier, hShorter, hw⟩
  induction hNeeds with
  | single hNeeds => exact hStep hExplained hValue hNeeds
  | tail _ hNeeds ih =>
    obtain ⟨earlier, w, hEarlier, hShorter, hw⟩ := ih
    obtain ⟨older, x, hOlder, hShorterStill, hx⟩ := hStep hEarlier hw hNeeds
    exact ⟨older, x, hOlder, by omega, hx⟩

theorem Explained.not_needs_self (hVars : rules.expandVars = true)
    (hClient : LeavesToScope rules root) (hExplained : Explained rules root h) {v : Value}
    (hValue : h.leafValue? leaf = some v) : ¬ Relation.TransGen (Needs root) leaf leaf := by
  intro hCycle
  -- around the cycle the leaf had a value before, and so on for ever
  induction hLength : h.length using Nat.strongRecOn generalizing h v with
  | _ n ih =>
    obtain ⟨earlier, w, hEarlier, hShorter, hw⟩ :=
      hExplained.exists_shorter hVars hClient hValue hCycle
    exact ih earlier.length (by omega) hEarlier hw rfl

end

/-- **No cycle is missed.** If some leaf needs itself, by one step or more, and no resolver
of the client answers the references, the expansion of the tree fails, whatever else is in
the tree and whatever the other rules are. -/
theorem expand_fails_of_cycle {t : Value} (ht : t.WellFormed) {rules : ExpansionRules σ}
    (hVars : rules.expandVars = true) (hClient : LeavesToScope rules (Draft.ofValue t))
    {leaf : Leaf} (hCycle : Relation.TransGen (Needs (Draft.ofValue t)) leaf leaf) (c : σ) :
    ∃ e, ((t.expand rules).run c).1 = .error e := by
  rcases hRun : (t.expand rules).run c with ⟨r, c'⟩
  cases r with
  | error e => exact ⟨e, rfl⟩
  | ok v =>
    exfalso
    obtain ⟨s, hAll⟩ := run_all_of_expand hRun
    obtain ⟨hSettled, hExplained⟩ := explained_of_all ht hAll
    obtain ⟨next, hNeeds, -⟩ := Relation.TransGen.head'_iff.1 hCycle
    obtain ⟨w, hw⟩ := exists_value_of_settle_eq hSettled hNeeds.1
    exact hExplained.not_needs_self hVars hClient hw hCycle

/-- A cycle through an item, a leaf met on the way, and a section that a leaf refers to
from within. -/
def itemCycle : Value :=
  .table [("list", .seq [Value.ofString "x", Value.ofString "<$\x7bs.deep\x7d>"]),
    ("s", Value.ofString "$\x7bt\x7d"),
    ("t", .table [("deep", Value.ofString "$\x7blist.1\x7d!"), ("u", .leaf (.bool true))])]

/-- Nothing is undefined. -/
def lenient : ExpansionRules Unit :=
  { ExpansionRules.treeOnly with
    allowUndefined := true
    expandEnv := true
    env := fun _ => some "set" }

theorem expand_fails_of_item : ∃ e, ((itemCycle.expand lenient).run ()).1 = .error e := by
  have hOrdered : itemCycle.WellFormed :=
    ⟨by decide, ⟨trivial, trivial, trivial⟩, trivial, ⟨by decide, trivial, trivial, trivial⟩,
      trivial⟩
  have hClient : LeavesToScope lenient (Draft.ofValue itemCycle) :=
    fun _ _ _ _ _ r hr => absurd hr List.not_mem_nil
  let item : Leaf := ⟨[.key "list", .index 1], Text.plain "<$\x7bs.deep\x7d>"⟩
  let met : Leaf := ⟨[.key "s"], Text.plain "$\x7bt\x7d"⟩
  let within : Leaf := ⟨[.key "t", .key "deep"], Text.plain "$\x7blist.1\x7d!"⟩
  have hItem : Needs (Draft.ofValue itemCycle) item met :=
    ⟨by decide, ["s", "deep"], by decide, ⟨[.text ['<']], [.text ['>']], by decide, rfl⟩, by decide⟩
  have hMet : Needs (Draft.ofValue itemCycle) met within :=
    ⟨by decide, ["t"], by decide, ⟨[], [], by decide, rfl⟩, by decide⟩
  have hWithin : Needs (Draft.ofValue itemCycle) within item :=
    ⟨by decide, ["list", "1"], by decide, ⟨[], [.text ['!']], by decide, rfl⟩, by decide⟩
  exact expand_fails_of_cycle hOrdered rfl hClient (.tail (.tail (.single hItem) hMet) hWithin) ()

end Expansion

end LayeredConfig
