import LayeredConfig.Proofs.Cycles
import LayeredConfig.Proofs.Recomputation

/-!
# LayeredConfig — expansion without references into the tree

Where references into the tree are not resolved, no leaf needs another one. Each text has a value
of its own then, or an error, which nothing but the text and its place decide. Expanding the
tree is to put these values in place, up to the first leaf that has an error instead.

Completing a draft does what requesting its leaves in a row does. And a request comes to the
leaf's own value or error, as the leaf is either pending or resolved to that value, never under
evaluation.

* `Expansion.ownChain`, `Expansion.ownValue` — what a leaf comes to by itself.
* `FirstError`                      — the first error in a row.
* `Expansion.discard_complete`      — completing is requesting leaves in a row.
* `Expansion.coupled_resolve_own`   — a request comes to the leaf's own value.
* `Value.expand_leafwise`           — expanding is doing so leaf by leaf.
-/

namespace LayeredConfig

open Eval History

-- ---------------------------------------------------------------------------
-- Results in a row
-- ---------------------------------------------------------------------------

/-- The error `e` is the first one that `f` gives for the items. -/
def FirstError (f : α → Except ConfigError β) (items : List α) (e : ConfigError) : Prop :=
  ∃ before a after, items = before ++ a :: after ∧ (∀ b ∈ before, ∃ w, f b = .ok w) ∧
    f a = .error e

namespace FirstError

variable {f : α → Except ConfigError β} {items : List α} {e : ConfigError}

theorem not_nil : ¬ FirstError f [] e := by
  rintro ⟨before, a, after, hItems, -⟩
  cases before <;> cases hItems

theorem cons_iff_of_error {a : α} {e' : ConfigError} (h : f a = .error e') {rest : List α} :
    FirstError f (a :: rest) e ↔ e' = e := by
  constructor
  · rintro ⟨before, b, after, hItems, hBefore, hError⟩
    cases before with
    | nil =>
      cases hItems
      exact Except.error.inj (h.symm.trans hError)
    | cons first before =>
      cases hItems
      obtain ⟨w, hw⟩ := hBefore a List.mem_cons_self
      rw [h] at hw
      cases hw
  · rintro rfl
    exact ⟨[], a, rest, rfl, fun _ hb => absurd hb List.not_mem_nil, h⟩

theorem cons_iff_of_ok {a : α} {w : β} (h : f a = .ok w) {rest : List α} :
    FirstError f (a :: rest) e ↔ FirstError f rest e := by
  constructor
  · rintro ⟨before, b, after, hItems, hBefore, hError⟩
    cases before with
    | nil =>
      cases hItems
      rw [h] at hError
      cases hError
    | cons first before =>
      cases hItems
      exact ⟨before, b, after, rfl, fun c hc => hBefore c (List.mem_cons_of_mem _ hc), hError⟩
  · rintro ⟨before, b, after, rfl, hBefore, hError⟩
    refine ⟨a :: before, b, after, rfl, fun c hc => ?_, hError⟩
    rcases List.mem_cons.1 hc with rfl | hc
    · exact ⟨w, h⟩
    · exact hBefore c hc

theorem not_all_ok (h : FirstError f items e) : ¬ ∀ a ∈ items, ∃ w, f a = .ok w := by
  obtain ⟨before, a, after, rfl, -, hError⟩ := h
  intro hOk
  obtain ⟨w, hw⟩ := hOk a (List.mem_append_right _ List.mem_cons_self)
  rw [hError] at hw
  cases hw

end FirstError

theorem error_iff_of_map_eq {r : Except ConfigError α} {r' : Except ConfigError β} {f : α → γ}
    {g : β → γ} (h : r.map f = r'.map g) (e : ConfigError) : r = .error e ↔ r' = .error e := by
  cases r with
  | ok a =>
    cases r' with
    | ok b => exact ⟨fun hError => (by cases hError), fun hError => (by cases hError)⟩
    | error e' => cases h
  | error e₁ =>
    cases r' with
    | ok b => cases h
    | error e₂ =>
      have hSame : e₁ = e₂ := Except.error.inj h
      rw [hSame, Except.error.injEq, Except.error.injEq]

/-- A traversal of results fails with the first error among them. -/
theorem Eval.fst_mapM_ofExcept_eq_error {f : α → Except ConfigError β} {items : List α} {s : σ}
    {e : ConfigError} :
    ((items.mapM fun a => (ofExcept (f a) : Eval σ β)).run s).1 = .error e ↔
      FirstError f items e := by
  induction items with
  | nil => exact ⟨fun h => (by cases h), fun h => absurd h FirstError.not_nil⟩
  | cons a rest ih =>
    rw [List.mapM_cons]
    cases h : f a with
    | error e' =>
      rw [FirstError.cons_iff_of_error h,
        run_bind_of_error (show (ofExcept (Except.error e') : Eval σ β).run s = _ from rfl)]
      exact ⟨Except.error.inj, congrArg Except.error⟩
    | ok w =>
      rw [FirstError.cons_iff_of_ok h, ← ih,
        run_bind_of_ok (show (ofExcept (Except.ok w) : Eval σ β).run s = _ from rfl)]
      have hMap : (rest.mapM (fun a => (ofExcept (f a) : Eval σ β)) >>= fun ws => pure (w :: ws)) =
          (w :: ·) <$> rest.mapM fun a => ofExcept (f a) := (map_eq_pure_bind ..).symm
      rw [hMap, run_map]
      exact error_iff_of_map_eq (f := fun _ => ()) (g := fun _ => ())
        (by cases ((rest.mapM fun a => (ofExcept (f a) : Eval σ β)).run s).1 <;> rfl) e

/-- Traversals that do the same, item by item, do the same, their results apart. -/
theorem discard_mapM_flatMap [Monad m] [LawfulMonad m] {f : α → m β} {g : γ → m δ}
    {parts : γ → List α} {items : List γ}
    (h : ∀ item ∈ items, (fun _ => ()) <$> g item = (fun _ => ()) <$> (parts item).mapM f) :
    (fun _ => ()) <$> items.mapM g = (fun _ => ()) <$> (items.flatMap parts).mapM f := by
  induction items with
  | nil => simp
  | cons item rest ih =>
    have hRest := ih fun other hOther => h other (List.mem_cons_of_mem _ hOther)
    calc (fun _ => ()) <$> (item :: rest).mapM g
        = (fun _ => ()) <$> g item >>= fun _ => (fun _ => ()) <$> rest.mapM g := by
          simp [List.mapM_cons]
      _ = (fun _ => ()) <$> (parts item).mapM f >>= fun _ =>
            (fun _ => ()) <$> (rest.flatMap parts).mapM f := by
          rw [h item List.mem_cons_self, hRest]
      _ = (fun _ => ()) <$> ((item :: rest).flatMap parts).mapM f := by
          simp [List.mapM_append]

namespace Expansion

open Draft

-- ---------------------------------------------------------------------------
-- Completing
-- ---------------------------------------------------------------------------

theorem deferredLeaves_seq (items : List Draft) :
    deferredLeaves (.seq items) = items.flatMap deferredLeaves := by
  rw [deferredLeaves, Tree.leaves, Tree.itemLeaves_eq, List.filterMap_flatMap]
  rfl

theorem deferredLeaves_table (entries : List (String × Draft)) :
    deferredLeaves (.table entries) = entries.flatMap fun entry => deferredLeaves entry.2 := by
  rw [deferredLeaves, Tree.leaves, Tree.entryLeaves_eq, List.filterMap_flatMap]
  rfl

/-- Completing a draft does what requesting its leaves in a row does. -/
theorem discard_complete (resolveLeaf : LeafResolver σ) (d : Draft) :
    (fun _ => ()) <$> complete resolveLeaf d =
      (fun _ => ()) <$> d.deferredLeaves.mapM resolveLeaf := by
  induction d using Tree.induction with
  | leaf cell =>
    cases cell with
    | known s => rfl
    | deferred leaf =>
      show (fun _ => ()) <$> resolveLeaf leaf = (fun _ => ()) <$> [leaf].mapM resolveLeaf
      simp [List.mapM_cons]
  | seq items ih =>
    rw [complete, Tree.graftM_seq, deferredLeaves_seq, ← discard_mapM_flatMap ih]
    simp only [Functor.map_map]
    rfl
  | table entries ih =>
    rw [complete, Tree.graftM_table, deferredLeaves_table, Functor.map_map]
    refine discard_mapM_flatMap fun entry he => ?_
    rw [Functor.map_map]
    exact ih entry he

theorem fst_complete_eq_error {f : Leaf → Except ConfigError Value} {d : Draft} {s : Session σ}
    {e : ConfigError} :
    ((complete (fun leaf => ofExcept (f leaf)) d).run s).1 = .error e ↔
      FirstError f d.deferredLeaves e := by
  have hRun := congrArg (fun x => (x.run s).1)
    (discard_complete (fun leaf => (ofExcept (f leaf) : Eval (Session σ) Value)) d)
  simp only [run_map] at hRun
  rw [error_iff_of_map_eq hRun, fst_mapM_ofExcept_eq_error]

-- ---------------------------------------------------------------------------
-- What a leaf comes to by itself
-- ---------------------------------------------------------------------------

/-- The resolvers for a leaf without the scope, on the client's state alone. -/
def ownChain (rules : ExpansionRules σ) (leaf : Leaf) : List (Resolver σ) :=
  rules.resolvers
    ++ [Resolver.path]
    ++ (if rules.expandEnv then [Resolver.envFunction rules.env, Resolver.envVariable rules.env]
      else [])
    ++ rules.defaultResolvers
    ++ (if rules.allowUndefined then [] else [Resolver.reject (some leaf.originPath)])

/-- What interpolating the text of a leaf gives, in a state of the client. A text takes the
origin of the leaf. -/
def ownValue (rules : ExpansionRules σ) (c : σ) (leaf : Leaf) : Except ConfigError Value :=
  ((Template.interpolate (ownChain rules leaf) (some leaf.raw) leaf.raw.text).run c).1.map
    (withOriginOf leaf)

section

variable {rules : ExpansionRules σ} {leaf : Leaf}

theorem chain_eq_ownChain (hVars : rules.expandVars = false) (scope : Resolver (Session σ)) :
    chain rules scope leaf = (ownChain rules leaf).map ofClient := by
  rw [chain, ownChain, hVars]
  cases rules.expandEnv <;> cases rules.allowUndefined <;>
    simp only [List.map_append, List.map_cons, List.map_nil, List.append_nil, List.append_assoc,
      if_true, Bool.false_eq_true, if_false, List.cons_append, List.nil_append] <;> rfl

/-- Whatever holds of the client's resolvers, and of those that come with the library, holds of
all in the chain. -/
theorem forall_mem_ownChain {P : Resolver σ → Prop}
    (hClient : ∀ r ∈ rules.resolvers ++ rules.defaultResolvers, P r)
    (hAnswers : ∀ f : Request → Option Value, P fun request => pure (f request))
    (hReject : P (Resolver.reject (some leaf.originPath))) : ∀ r ∈ ownChain rules leaf, P r := by
  intro r hr
  rcases List.mem_append.1 hr with hr | hr
  · rcases List.mem_append.1 hr with hr | hr
    · rcases List.mem_append.1 hr with hr | hr
      · rcases List.mem_append.1 hr with hr | hr
        · exact hClient r (List.mem_append_left _ hr)
        · cases List.mem_singleton.1 hr
          exact hAnswers _
      · split at hr
        · rcases List.mem_pair.1 hr with rfl | rfl
          · exact hAnswers _
          · exact hAnswers _
        · cases hr
    · exact hClient r (List.mem_append_right _ hr)
  · split at hr
    · cases hr
    · cases List.mem_singleton.1 hr
      exact hReject

/-- Couples sessions in which a history does not change with states of the client. -/
def aside (σ : Type) (h : History) : Coupling (Session σ) σ :=
  Coupling.throughout fun s _ => s.history = h

/-- Where resolvers are functions, interpolating the text of a leaf gives the same in every
session, and leaves the history as it is. -/
theorem run_interpolateLeaf_own (hVars : rules.expandVars = false) (hRules : rules.Functional)
    (scope : Resolver (Session σ)) (s : Session σ) (c : σ) :
    ((interpolateLeaf rules scope leaf).run s).1 =
        ((Template.interpolate (ownChain rules leaf) (some leaf.raw) leaf.raw.text).run c).1 ∧
      ((interpolateLeaf rules scope leaf).run s).2.history = s.history := by
  have hFunctional : ∀ r ∈ ownChain rules leaf, r.Functional :=
    forall_mem_ownChain hRules (fun _ _ _ _ => rfl) fun _ _ _ => rfl
  have hChains : (aside σ s.history).Chains (chain rules scope leaf) (ownChain rules leaf) := by
    rw [chain_eq_ownChain hVars, Coupling.Chains, List.forall₂_map_left_iff]
    refine List.forall₂_same.2 fun r hr request => ?_
    exact coupled_throughout_iff.2 fun s' c' hSame =>
      ⟨hFunctional r hr request s'.client c', hSame⟩
  exact coupled_throughout_iff.1
    (Template.coupled_interpolate hChains (some leaf.raw) leaf.raw.text) s c rfl

/-- No cycle is reported where no resolver of the client reports one. -/
theorem ownValue_ne_circular (hCircular : NeverCircular rules) (c : σ) (trace : List String) :
    ownValue rules c leaf ≠ .error (.circularReference trace) := by
  have hP := inherited_failsOnly (fun _ : σ => True)
    fun e _ => ∀ trace, e ≠ .circularReference trace
  have hChain : ∀ r ∈ ownChain rules leaf, ∀ request, FailsOnly (fun _ : σ => True)
      (fun e _ => ∀ trace, e ≠ .circularReference trace) (r request) := by
    refine forall_mem_ownChain (fun r hr request d _ => ⟨trivial, ?_⟩)
      (fun _ _ => hP.pure _) fun _ => FailsOnly.fail fun _ _ _ h => by cases h
    rintro e hError trace rfl
    exact hCircular r hr request d trace hError
  have hInterpolate : FailsOnly (fun _ : σ => True)
      (fun e _ => ∀ trace, e ≠ .circularReference trace)
      (Template.interpolate (ownChain rules leaf) (some leaf.raw) leaf.raw.text) :=
    Template.inherited_interpolate hP hChain fun d _ => ⟨trivial, fun e hParse trace hTrace => by
      rw [Template.eq_unclosedReference_of_parse hParse] at hTrace
      cases hTrace⟩
  intro hOwn
  rw [ownValue] at hOwn
  cases hRun : ((Template.interpolate (ownChain rules leaf) (some leaf.raw)
      leaf.raw.text).run c).1 with
  | ok v =>
    rw [hRun] at hOwn
    cases hOwn
  | error e =>
    rw [hRun] at hOwn
    exact (hInterpolate c trivial).2 e hRun trace (Except.error.inj hOwn)

end

-- ---------------------------------------------------------------------------
-- Leaf by leaf
-- ---------------------------------------------------------------------------

/-- Each leaf of the draft is pending, or resolved to the value that `own` gives for it. -/
def OwnSoFar (root : Draft) (own : Leaf → Except ConfigError Value) (h : History) : Prop :=
  ∀ leaf ∈ root.deferredLeaves, h.progress leaf.location = .pending ∨
    ∃ w, own leaf = .ok w ∧ h.progress leaf.location = .resolved w

/-- Couples sessions with such a history with any others. -/
def leafwise (σ : Type) (root : Draft) (own : Leaf → Except ConfigError Value) :
    Coupling (Session σ) (Session Unit) :=
  Coupling.throughout fun s _ => OwnSoFar root own s.history

section

variable {root : Draft} {own : Leaf → Except ConfigError Value}

/-- What is recorded of one leaf does not matter for the others. -/
theorem OwnSoFar.cons {h : History} (hOwn : OwnSoFar root own h) (hDistinct : root.Distinct)
    {leaf : Leaf} (hLeaf : leaf ∈ root.deferredLeaves) {p : Progress}
    (hp : p = .pending ∨ ∃ w, own leaf = .ok w ∧ p = .resolved w) (p' : Progress) :
    OwnSoFar root own ((leaf.location, p) :: (leaf.location, p') :: h) := by
  intro other hOther
  by_cases hSame : leaf.location = other.location
  · cases hDistinct leaf hLeaf other hOther hSame
    rw [progress_cons_self]
    exact hp
  · rw [progress_cons_of_ne hSame, progress_cons_of_ne hSame]
    exact hOwn other hOther

/-- A leaf comes to what interpolating its text gives, if that does not touch the history. -/
theorem coupled_request_own (hDistinct : root.Distinct) {leaf : Leaf}
    (hLeaf : leaf ∈ root.deferredLeaves) {x : Eval (Session σ) Value}
    (h : ∀ s, (x.run s).1.map (withOriginOf leaf) = own leaf ∧ (x.run s).2.history = s.history)
    (trigger : Option Location) :
    Coupled (leafwise σ root own) (request x trigger leaf) (ofExcept (own leaf)) := by
  refine coupled_throughout_iff.2 fun s t hst => ?_
  show _ = own leaf ∧ _
  rcases hst leaf hLeaf with hPending | ⟨w, hOwn, hResolved⟩
  · obtain ⟨hValue, hHistory⟩ := h (begun s trigger leaf)
    rcases hRun : x.run (begun s trigger leaf) with ⟨r, s'⟩
    rw [hRun] at hValue hHistory
    have hHistory : s'.history = (leaf.location, .evaluating trigger) :: s.history := hHistory
    rw [run_request_of_pending hPending]
    cases r with
    | ok w =>
      rw [run_evaluate_of_ok hRun]
      refine ⟨hValue, ?_⟩
      rw [Session.recorded, hHistory]
      exact hst.cons hDistinct hLeaf (.inr ⟨_, hValue.symm, rfl⟩) _
    | error e =>
      rw [run_evaluate_of_error hRun]
      refine ⟨hValue, ?_⟩
      rw [Session.recorded, hHistory]
      exact hst.cons hDistinct hLeaf (.inl rfl) _
  · rw [run_request_of_resolved hResolved]
    exact ⟨hOwn.symm, hst⟩

/-- Where all leaves that are resolved have their own values, a settled draft is settled with
these. -/
theorem settle_own {h : History} (hLeaves : OwnSoFar root own h) {v : Value}
    (hSettled : settle h.leafValue? root = known v) :
    settle (fun leaf => (own leaf).toOption) root = known v := by
  rw [← hSettled, settle, settle]
  refine Tree.graft_congr fun cell hCell => ?_
  cases cell with
  | known s => rfl
  | deferred leaf =>
    have hLeaf := mem_deferredLeaves.2 hCell
    obtain ⟨w, hValue⟩ := exists_value_of_settle_eq hSettled hLeaf
    have hResolved : h.progress leaf.location = .resolved w := value?_eq_some_iff.1 hValue
    rcases hLeaves leaf hLeaf with hPending | ⟨w', hOwn, hOther⟩
    · rw [hResolved] at hPending
      cases hPending
    · cases hResolved.symm.trans hOther
      rw [settleCell_of_some hValue, settleCell_of_some (congrArg Except.toOption hOwn)]

theorem all_ok_of_settle {v : Value}
    (h : settle (fun leaf => (own leaf).toOption) root = known v) :
    ∀ leaf ∈ root.deferredLeaves, ∃ w, own leaf = .ok w := by
  intro leaf hLeaf
  obtain ⟨w, hw⟩ := exists_value_of_settle_eq h hLeaf
  cases hOwn : own leaf with
  | ok w' => exact ⟨w', rfl⟩
  | error e =>
    rw [hOwn] at hw
    cases hw

end

/-- What expanding a tree comes to, given what its leaves come to by themselves. -/
theorem coupled_all_own {t : Value} (ht : t.WellFormed) {rules : ExpansionRules σ}
    (hVars : rules.expandVars = false) (hRules : rules.Functional) (c : σ) :
    Coupled (leafwise σ (Draft.ofValue t) (ownValue rules c)) (ofValue t rules).all
      (complete (fun leaf => ofExcept (ownValue rules c leaf)) (Draft.ofValue t)) := by
  refine coupled_complete fun leaf hLeaf => ?_
  have hLeaf : leaf ∈ (Draft.ofValue t).deferredLeaves := hLeaf
  obtain ⟨depth, hDepth⟩ := Nat.exists_eq_add_one.2 (List.length_pos_of_mem hLeaf)
  show Coupled _
    (resolve rules (Draft.ofValue t) (Draft.ofValue t).deferredLeaves.length none leaf) _
  rw [hDepth, resolve_succ]
  refine coupled_request_own (distinct_ofValue ht) hLeaf (fun s => ?_) none
  obtain ⟨hResult, hHistory⟩ := run_interpolateLeaf_own hVars hRules
    (scope (resolve rules (Draft.ofValue t) depth (some leaf.location)) (Draft.ofValue t)) s c
  exact ⟨congrArg (Except.map (withOriginOf leaf)) hResult, hHistory⟩

end Expansion

namespace Value

open Expansion

/-- **Without references into the tree, expansion is leaf by leaf.** Where these are not resolved,
the client's resolvers are functions of what they are asked, and none of them reports a cycle, let
each leaf be interpolated by itself, in any state of the client. The tree expands to a value exactly
if none of the leaves has an error, and the value is the tree with each leaf's own value in its
place. Otherwise expanding it fails with the error of the first leaf that has one, entries in key
order and items from the left. That is never a cycle. -/
theorem expand_leafwise {t : Value} (ht : t.WellFormed) {rules : ExpansionRules σ}
    (hVars : rules.expandVars = false) (hRules : rules.Functional) (hCircular : NeverCircular rules)
    (c d : σ) :
    ((∃ v, ((t.expand rules).run c).1 = .ok v) ↔
        ∀ leaf ∈ (Draft.ofValue t).deferredLeaves, ∃ w, ownValue rules d leaf = .ok w) ∧
      (∀ v, ((t.expand rules).run c).1 = .ok v ↔
        (Draft.ofValue t).settle (fun leaf => (ownValue rules d leaf).toOption) = Draft.known v) ∧
      (∀ e, ((t.expand rules).run c).1 = .error e ↔
        FirstError (ownValue rules d) (Draft.ofValue t).deferredLeaves e) ∧
      ∀ trace, ((t.expand rules).run c).1 ≠ .error (.circularReference trace) := by
  obtain ⟨hSame, hLeaves⟩ := coupled_throughout_iff.1 (coupled_all_own ht hVars hRules d)
    (Session.start c) (Session.start ()) fun leaf _ => .inl rfl
  have hErrors : ∀ e, ((t.expand rules).run c).1 = .error e ↔
      FirstError (ownValue rules d) (Draft.ofValue t).deferredLeaves e := by
    intro e
    show ((Expansion.ofValue t rules).all.run (Session.start c)).1 = .error e ↔ _
    rw [hSame]
    exact fst_complete_eq_error
  -- a value that comes out is the settled tree
  have hSettled : ∀ v, ((t.expand rules).run c).1 = .ok v →
      (Draft.ofValue t).settle (fun leaf => (ownValue rules d leaf).toOption) = Draft.known v :=
    fun v hOk => settle_own hLeaves (explained_of_all ht (run_eq_of_fst hOk)).1
  have hOk : (∀ leaf ∈ (Draft.ofValue t).deferredLeaves, ∃ w, ownValue rules d leaf = .ok w) →
      ∃ v, ((t.expand rules).run c).1 = .ok v := by
    intro hAll
    cases hRun : ((t.expand rules).run c).1 with
    | ok v => exact ⟨v, rfl⟩
    | error e => exact absurd hAll ((hErrors e).1 hRun).not_all_ok
  refine ⟨⟨fun ⟨v, hv⟩ => all_ok_of_settle (hSettled v hv), hOk⟩, fun v => ⟨hSettled v, ?_⟩,
    hErrors, fun trace hTrace => ?_⟩
  · intro h
    obtain ⟨w, hw⟩ := hOk (all_ok_of_settle h)
    rw [hw, Draft.known_injective ((hSettled w hw).symm.trans h)]
  · obtain ⟨-, leaf, -, -, -, hError⟩ := (hErrors _).1 hTrace
    exact ownValue_ne_circular hCircular d trace hError

/-- Declines, and counts how often it is asked. -/
def tallying : Resolver Nat := fun _ count => (.ok none, count + 1)

def tallyingRules : ExpansionRules Nat :=
  { resolvers := [tallying]
    defaultResolvers := []
    expandVars := false
    expandEnv := true
    allowUndefined := false
    env := fun name => if name = "USER" then some "ann" else none }

/-- The second text and the third one have errors: the one refers to a path of the tree, the
other one is malformed. -/
def failingTexts : Value :=
  .table [("a", ofString "$\x7bUSER\x7d"),
    ("b", .seq [ofString "$\x7ba\x7d", .leaf .null, ofString "$\x7b"])]

/-- The first error is reported, from whichever state of the client. -/
theorem expand_leafwise_of_failingTexts :
    ((failingTexts.expand tallyingRules).run 0).1 =
        .error (.undefinedVariable "a" (some "b.0")) ∧
      FirstError (ownValue tallyingRules 7) (Draft.ofValue failingTexts).deferredLeaves
        (.undefinedVariable "a" (some "b.0")) := by
  have hFunctional : tallyingRules.Functional := by
    intro r hr
    cases List.mem_singleton.1 hr
    exact fun _ _ _ => rfl
  have hCircular : NeverCircular tallyingRules := by
    intro r hr request c trace h
    cases List.mem_singleton.1 hr
    cases h
  have hOrdered : failingTexts.WellFormed :=
    ⟨by decide, trivial, ⟨trivial, trivial, trivial, trivial⟩, trivial⟩
  have hRun : ((failingTexts.expand tallyingRules).run 0).1 =
      .error (.undefinedVariable "a" (some "b.0")) := by cbv
  obtain ⟨-, -, hErrors, -⟩ := expand_leafwise hOrdered rfl hFunctional hCircular 0 7
  exact ⟨hRun, (hErrors _).1 hRun⟩

end Value

end LayeredConfig
