import LayeredConfig.Proofs.Chain
import LayeredConfig.Proofs.Explanation
import Mathlib

/-!
# LayeredConfig — several paths at once

Where a pattern names several paths, what they lead to is merged, and a leaf not
resolved by then takes part as a whole. If it turns out to be a sequence or a
table, the same lookup in a later state merges more than the first one did. The
statements here say what holds none the less, and that it holds as soon as no such
leaf meets anything in the merge.

* `Expansion.get_repeats`      — a successful call can be repeated.
* `Expansion.expand_reference` — what a text that is one reference comes to.
-/

namespace LayeredConfig

open Eval History

namespace Expansion

open Draft

-- ---------------------------------------------------------------------------
-- Repeated calls
-- ---------------------------------------------------------------------------

/-- The history once a call has walked the paths of a pattern. -/
def walked (x : Expansion σ) (pattern : Pattern) (s : Session σ) : History :=
  ((walk x.resolveLeaf x.root pattern).run s).2.history

theorem get_eq_valueAt (x : Expansion σ) {spec : String} {pattern : Pattern}
    (h : Pattern.parse spec = .ok pattern) :
    x.get spec = valueAt x.resolveLeaf x.root pattern := by
  rw [get, h]

/-- **A call can be repeated.** Where no leaf that becomes a sequence or a table
meets anything in the merge, a call that gave a result gives it again and changes
nothing, whatever the rules are by then: they are not consulted. -/
theorem get_repeats {t : Value} {rules : ExpansionRules σ} {spec : String} {pattern : Pattern}
    (hSpec : Pattern.parse spec = .ok pattern) {s s' : Session σ} {r : Option Value}
    (hRun : ((ofValue t rules).get spec).run s = (.ok r, s'))
    (hMeets : Tree.mergesOnly (settlesToTerminal s'.history.leafValue?)
      (places (Draft.ofValue t) pattern ((ofValue t rules).walked pattern s)) = true)
    (others : ExpansionRules σ) :
    ((ofValue t others).get spec).run s' = (.ok r, s') := by
  have hFaithful : Faithful (ofValue t rules).resolveLeaf (Draft.ofValue t) :=
    faithful_resolve _ none
  rw [get_eq_valueAt _ hSpec] at hRun ⊢
  obtain ⟨found, s₁, hWalk, hAfter, hValue⟩ := valueAt_settled hFaithful hRun
  -- the history that the hypothesis speaks of
  have hWalked : (ofValue t rules).walked pattern s = s₁.history :=
    congrArg (fun run => run.2.history) hWalk
  rw [hWalked] at hMeets
  -- now everything on the way is known, and the merge is the one of before
  have hAgain : (walk (ofValue t others).resolveLeaf (Draft.ofValue t) pattern).run s' =
      (.ok found, s') :=
    walk_replayed (recalls_resolve _ none) hFaithful hWalk s' hAfter
  have hSelect : (select (ofValue t others).resolveLeaf (Draft.ofValue t) pattern).run s' =
      (.ok (r.map known), s') := by
    refine run_select_eq_ok.2 ⟨found, hAgain, ?_⟩
    rw [walk_settled hFaithful hWalk s'.history hAfter, merge_places hFaithful hWalk hAfter hMeets]
    exact (hValue s'.history (Precedes.refl _)).symm
  refine (run_bind_of_ok hSelect _).trans ?_
  cases r with
  | none => rfl
  | some v =>
    -- what was merged has no leaf left
    show (some <$> complete (ofValue t others).resolveLeaf (known v)).run s' = _
    rw [complete_known]
    rfl

/-- Two alternatives, the first one a reference to a table. -/
def alternatives : Value :=
  .table [("a", Value.ofString "$\x7bd\x7d"), ("b", .table [("y", .leaf (.bool true))]),
    ("d", .table [("x", .leaf (.bool true))])]

/-- In general the second result may have more in it than the first one. -/
theorem not_get_repeats :
    ¬ ∀ (t : Value) (spec : String) (s' : Session Unit) (r : Option Value), t.WellFormed →
      ((ofValue t .treeOnly).get spec).run (Session.start ()) = (.ok r, s') →
        (((ofValue t .treeOnly).get spec).run s').1 = .ok r := by
  intro h
  let first := ((ofValue alternatives .treeOnly).get "(a|b)").run (Session.start ())
  have hFirst : first.1 = .ok (some (.table [("x", .leaf (.bool true))])) := by rfl
  have hSecond : (((ofValue alternatives .treeOnly).get "(a|b)").run first.2).1 =
      .ok (some (.table [("x", .leaf (.bool true)), ("y", .leaf (.bool true))])) := by rfl
  have hOrdered : alternatives.WellFormed :=
    ⟨by decide, trivial, ⟨by decide, trivial, trivial⟩, ⟨by decide, trivial, trivial⟩, trivial⟩
  have hSame := h alternatives "(a|b)" first.2 _ hOrdered (Prod.ext hFirst rfl)
  cases hSecond.symm.trans hSame

/-- Two alternatives, the first one a reference to a text. -/
def textAlternatives : Value :=
  .table [("a", Value.ofString "$\x7bd\x7d"), ("b", .table [("y", .leaf (.bool true))]),
    ("d", Value.ofString "z")]

theorem get_repeats_at_text :
    let first := ((ofValue textAlternatives .treeOnly).get "(a|b)").run (Session.start ())
    ((ofValue textAlternatives .treeOnly).get "(a|b)").run first.2 =
      (.ok (some (Value.ofString "z")), first.2) := by
  intro first
  have hSpec : Pattern.parse "(a|b)" = .ok ⟨"(a|b)", [.alt [.word ["a"], .word ["b"]]]⟩ := by rfl
  have hRun : first = (.ok (some (Value.ofString "z")), first.2) := Prod.ext (by rfl) rfl
  exact get_repeats hSpec hRun (by rfl) .treeOnly

-- ---------------------------------------------------------------------------
-- References
-- ---------------------------------------------------------------------------

/-- On the way to the history `final`, the evaluation of a leaf had recorded
`walked` when it had walked the paths of a pattern. -/
def WalkedBy (rules : ExpansionRules σ) (root : Draft) (leaf : Leaf) (pattern : Pattern)
    (walked final : History) : Prop :=
  ∃ depth trigger earlier found s s',
    s.history = (leaf.location, .evaluating trigger) :: earlier ∧
      (walk (resolve rules root depth (some leaf.location)) root pattern).run s = (.ok found, s') ∧
      s'.history = walked ∧ walked.Precedes final

/-- **What a reference comes to.** A text that is a reference to a pattern has as its
value the merge of what the paths lead to, where the leaves not resolved by then
are indivisible. That is the value of the pattern in the expanded tree, unless such
a leaf meets something in the merge and is a sequence or a table in the end. -/
theorem expand_reference {t v : Value} (ht : t.WellFormed) {rules : ExpansionRules σ}
    (hVars : rules.expandVars = true) {c c' : σ} (hRun : (t.expand rules).run c = (.ok v, c'))
    {location : Location} {raw : Text} (hLeaf : t.at? location = some (.leaf (.text raw)))
    {spec : String} {pattern : Pattern} (hText : raw.text = "$\x7b" ++ spec ++ "\x7d")
    (hSpec : Pattern.parse spec = .ok pattern)
    (hClient : ∀ r ∈ rules.resolvers, ∀ c a,
      ((r ⟨spec, none, some raw⟩).run c).1 ≠ .ok (some a))
    {x : Value} (hGet : v.get spec = .ok (some x)) :
    ∃ s walked y, (ofValue t rules).all.run (Session.start c) = (.ok v, s) ∧
      WalkedBy rules (Draft.ofValue t) ⟨location, raw⟩ pattern walked s.history ∧
      v.at? location = some (withOriginOf ⟨location, raw⟩ y) ∧
      (Tree.merge (places (Draft.ofValue t) pattern walked)).map (settle s.history.leafValue?) =
        some (known y) ∧
      (Tree.mergesOnly (settlesToTerminal s.history.leafValue?)
        (places (Draft.ofValue t) pattern walked) = true → y = x) := by
  obtain ⟨s, hAll⟩ := run_all_of_expand hRun
  obtain ⟨hSettled, hExplained⟩ := explained_of_all ht hAll
  obtain ⟨w', hValue, hAt⟩ := value_at_of_settle_eq hSettled (at?_ofValue hLeaf)
  obtain ⟨_, hEarlier, depth, trigger, s₀, w, s₁, hEval, rfl, rfl⟩ :=
    hExplained.exists_explains (mem_deferredLeaves_ofValue hLeaf) hValue
  -- of the evaluation that gave the value, the part that looks the pattern up
  obtain ⟨s₂, o, s₃, hSame, hScope, hAfter, hAnswer⟩ :=
    run_reference_of_scope hVars hText hSpec hClient hEval
  have hFinal : s₃.history.Precedes s.history :=
    (hAfter s₃.history.Precedes (Precedes.refl _)).trans hEarlier
  rw [scope_of_pattern hSpec] at hScope
  have hFaithful : Faithful (resolve rules (Draft.ofValue t) depth (some location))
      (Draft.ofValue t) := faithful_resolve depth (some location)
  obtain ⟨found, s₄, hWalk, hLater, hSelected⟩ := valueAt_settled hFaithful hScope
  have hMerge := hSelected s.history hFinal
  have hGetEq : Tree.merge (places (Draft.ofValue t) pattern s.history) = some (known x) := by
    rw [Value.get, hSpec] at hGet
    rw [merge_places_of_settled hSettled, Except.ok.inj hGet]
    rfl
  cases o with
  | none =>
    -- something was found, as something is there in the end
    exfalso
    rw [Option.map_none, Option.map_eq_none_iff, ← walk_settled hFaithful hWalk s₄.history
      (Precedes.refl _), Tree.merge_map_eq_none_iff] at hMerge
    rw [← walk_settled hFaithful hWalk s.history (hLater.trans hFinal),
      Tree.merge_map_eq_none_iff.2 hMerge] at hGetEq
    cases hGetEq
  | some y =>
    rw [hAnswer y rfl] at hAt
    refine ⟨s, s₄.history, y, hAll, ?_, hAt, hMerge, fun hMeets => ?_⟩
    · exact ⟨depth, trigger, s₀.history, found, s₂, s₄, hSame, hWalk, rfl, hLater.trans hFinal⟩
    · have hSame := merge_places hFaithful hWalk (hLater.trans hFinal) hMeets
      rw [hGetEq, hMerge] at hSame
      exact (known_injective (Option.some.inj hSame)).symm

/-- A reference to two alternatives that is evaluated before the first one is. -/
def earlyReference : Value :=
  .table [("a", Value.ofString "$\x7b(b|c)\x7d"), ("b", Value.ofString "$\x7bd\x7d"),
    ("c", .table [("y", .leaf (.bool true))]), ("d", .table [("x", .leaf (.bool true))])]

def earlyResult : Value :=
  .table [("a", .table [("x", .leaf (.bool true))]), ("b", .table [("x", .leaf (.bool true))]),
    ("c", .table [("y", .leaf (.bool true))]), ("d", .table [("x", .leaf (.bool true))])]

/-- In general a reference may come to less than the pattern has in the expanded
tree. -/
theorem not_expand_reference :
    ¬ ∀ (t v x : Value) (location : Location) (raw : Text) (spec : String), t.WellFormed →
      (t.expand .treeOnly).run () = (.ok v, ()) → t.at? location = some (.leaf (.text raw)) →
        raw.text = "$\x7b" ++ spec ++ "\x7d" → v.get spec = .ok (some x) →
          v.at? location = some (withOriginOf ⟨location, raw⟩ x) := by
  intro h
  have hOrdered : earlyReference.WellFormed :=
    ⟨by decide, trivial, trivial, ⟨by decide, trivial, trivial⟩, ⟨by decide, trivial, trivial⟩,
      trivial⟩
  have hRun : (earlyReference.expand .treeOnly).run () = (.ok earlyResult, ()) := by cbv
  have hGet : earlyResult.get "(b|c)" =
      .ok (some (.table [("x", .leaf (.bool true)), ("y", .leaf (.bool true))])) := by rfl
  have hHeld : earlyResult.at? [.key "a"] = some (.table [("x", .leaf (.bool true))]) := by rfl
  have hClaim := h earlyReference earlyResult _ [.key "a"] (Text.plain "$\x7b(b|c)\x7d") "(b|c)"
    hOrdered hRun rfl (by decide) hGet
  cases hHeld.symm.trans hClaim

/-- The same with tables right away. -/
def plainReference : Value :=
  .table [("a", Value.ofString "$\x7b(b|c)\x7d"), ("b", .table [("x", .leaf (.bool true))]),
    ("c", .table [("y", .leaf (.bool true))])]

def plainResult : Value :=
  .table [("a", .table [("x", .leaf (.bool true)), ("y", .leaf (.bool true))]),
    ("b", .table [("x", .leaf (.bool true))]), ("c", .table [("y", .leaf (.bool true))])]

theorem expand_reference_to_tables :
    let leaf : Leaf := ⟨[.key "a"], Text.plain "$\x7b(b|c)\x7d"⟩
    let pattern : Pattern := ⟨"(b|c)", [.alt [.word ["b"], .word ["c"]]]⟩
    let root := Draft.ofValue plainReference
    ∃ s walked y, (ofValue plainReference .treeOnly).all.run (Session.start ()) =
        (.ok plainResult, s) ∧
      WalkedBy .treeOnly root leaf pattern walked s.history ∧
      plainResult.at? [.key "a"] = some (withOriginOf leaf y) ∧
      (Tree.merge (places root pattern walked)).map (settle s.history.leafValue?) =
        some (known y) ∧
      (Tree.mergesOnly (settlesToTerminal s.history.leafValue?)
          (places root pattern walked) = true →
        y = .table [("x", .leaf (.bool true)), ("y", .leaf (.bool true))]) := by
  have hOrdered : plainReference.WellFormed :=
    ⟨by decide, trivial, ⟨by decide, trivial, trivial⟩, ⟨by decide, trivial, trivial⟩, trivial⟩
  have hRun : (plainReference.expand .treeOnly).run () = (.ok plainResult, ()) := by cbv
  have hText : (Text.plain "$\x7b(b|c)\x7d").text = "$\x7b" ++ "(b|c)" ++ "\x7d" := by decide
  have hSpec : Pattern.parse "(b|c)" = .ok ⟨"(b|c)", [.alt [.word ["b"], .word ["c"]]]⟩ := by rfl
  have hGet : plainResult.get "(b|c)" =
      .ok (some (.table [("x", .leaf (.bool true)), ("y", .leaf (.bool true))])) := by rfl
  exact expand_reference hOrdered rfl hRun rfl hText hSpec (fun _ hr => absurd hr List.not_mem_nil)
    hGet

end Expansion

end LayeredConfig
