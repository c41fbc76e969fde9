import LayeredConfig.Proofs.Recomputation

/-!
# LayeredConfig — calls do not notice each other

An expansion remembers what it has resolved, and which leaves have failed. Where
leaves give terminals only, no call can tell: it answers what the same call answers
on an expansion that has done nothing yet, values and errors alike.

Both are what recomputing answers. The history of an expansion says which leaves
are under evaluation, and in which order; that is the stack with which the
recomputation goes on (`Expansion.UnderWay`).

* `Expansion.UnderWay`          — the stack of leaves under evaluation in a history.
* `Expansion.coupled_recompute` — resolving a leaf comes to recomputing it.
* `Expansion.Query`, `Expansion.answer`, `Expansion.after` — sequences of calls.
* `Expansion.answers_independent` — answers do not depend on earlier calls.
-/

namespace LayeredConfig

open Eval History

-- ---------------------------------------------------------------------------
-- Links between leaves under evaluation
-- ---------------------------------------------------------------------------

namespace History

theorem chain_cons_of_ne {location other : Location} (h : location ≠ other) (p : Progress)
    (history : History) : chain ((location, p) :: history) other = chain history other := by
  cases p with
  | pending => exact if_neg h
  | resolved v => exact if_neg h
  | evaluating trigger =>
    cases trigger with
    | none => exact if_neg h
    | some requester => exact if_neg h

theorem chain_cons_self_of_none (location : Location) (history : History) :
    chain ((location, .evaluating none) :: history) location = [location] := if_pos rfl

theorem chain_cons_self_of_some (location requester : Location) (history : History) :
    chain ((location, .evaluating (some requester)) :: history) location =
      location :: chain history requester := if_pos rfl

end History

namespace Expansion

open Draft

/-- The leaves on the stack are those under evaluation, each at the request of the
one below it. -/
structure UnderWay (stack : List Location) (h : History) : Prop where
  evaluating : ∀ location, (∃ trigger, h.progress location = .evaluating trigger) ↔ location ∈ stack
  links : ∀ location rest, (location :: rest) <:+ stack → h.chain location = location :: rest

namespace UnderWay

variable {stack : List Location} {h : History} {location : Location}

theorem nil : UnderWay [] [] where
  evaluating location := by
    constructor
    · rintro ⟨trigger, hProgress⟩
      cases hProgress
    · intro hIn
      cases hIn
  links location rest hSuffix := by
    cases List.suffix_nil.1 hSuffix

theorem not_mem_of_suffix {rest : List Location} {other : Location} (hNew : location ∉ stack)
    (hSuffix : (other :: rest) <:+ stack) : location ≠ other := by
  rintro rfl
  exact hNew (hSuffix.subset List.mem_cons_self)

/-- The stack with a leaf more, put under evaluation at the request of the one on
top. -/
theorem push (hStack : UnderWay stack h) (hNew : location ∉ stack) :
    UnderWay (location :: stack) ((location, .evaluating stack.head?) :: h) where
  evaluating other := by
    by_cases hSame : location = other
    · subst hSame
      rw [progress_cons_self]
      exact ⟨fun _ => List.mem_cons_self, fun _ => ⟨_, rfl⟩⟩
    · rw [progress_cons_of_ne hSame, hStack.evaluating, List.mem_cons]
      exact ⟨.inr, fun hIn => hIn.resolve_left (Ne.symm hSame)⟩
  links other rest hSuffix := by
    rcases List.suffix_cons_iff.1 hSuffix with hTop | hBelow
    · -- the new leaf is linked to the one that was on top
      cases hTop
      cases hRest : stack with
      | nil => exact chain_cons_self_of_none location h
      | cons requester below =>
        rw [List.head?_cons, chain_cons_self_of_some,
          hStack.links requester below (hRest ▸ List.suffix_rfl)]
    · rw [chain_cons_of_ne (not_mem_of_suffix hNew hBelow)]
      exact hStack.links other rest hBelow

/-- The stack without the leaf on top, whose evaluation is over. -/
theorem pop (hStack : UnderWay (location :: stack) h) (hNew : location ∉ stack) {p : Progress}
    (hOver : ∀ trigger, p ≠ .evaluating trigger) : UnderWay stack ((location, p) :: h) where
  evaluating other := by
    by_cases hSame : location = other
    · subst hSame
      rw [progress_cons_self]
      exact ⟨fun ⟨trigger, hProgress⟩ => absurd hProgress (hOver trigger),
        fun hIn => absurd hIn hNew⟩
    · rw [progress_cons_of_ne hSame, hStack.evaluating, List.mem_cons]
      exact ⟨fun hIn => hIn.resolve_left (Ne.symm hSame), .inr⟩
  links other rest hSuffix := by
    rw [chain_cons_of_ne (not_mem_of_suffix hNew hSuffix)]
    exact hStack.links other rest (hSuffix.trans (List.suffix_cons _ _))

/-- The trace of a cycle is the stack. -/
theorem cycleTrace_eq (hStack : UnderWay stack h) (hIn : location ∈ stack) :
    h.cycleTrace stack.head? location =
      (location :: stack).reverse.map Location.originPath := by
  cases hRest : stack with
  | nil =>
    rw [hRest] at hIn
    cases hIn
  | cons requester below =>
    show (location :: h.chain requester).reverse.map Location.originPath = _
    rw [hStack.links requester below (hRest ▸ List.suffix_rfl)]

theorem not_mem_of_pending (hStack : UnderWay stack h) (hPending : h.progress location = .pending) :
    location ∉ stack := by
  intro hIn
  obtain ⟨trigger, hProgress⟩ := (hStack.evaluating location).2 hIn
  rw [hPending] at hProgress
  cases hProgress

theorem value?_eq_none (hStack : UnderWay stack h) (hIn : location ∈ stack) :
    h.value? location = none := by
  obtain ⟨trigger, hProgress⟩ := (hStack.evaluating location).2 hIn
  exact value?_of_evaluating hProgress

end UnderWay

-- ---------------------------------------------------------------------------
-- Resolving is recomputing
-- ---------------------------------------------------------------------------

section

variable {rules : ExpansionRules σ} {root : Draft}

/-- Couples resolving to recomputing with a stack, as long as all values are
terminals. -/
def recomputing (rules : ExpansionRules σ) (root : Draft) (stack : List Location) :
    Coupling (Session σ) (Session σ) :=
  { related := fun s t =>
      UnderWay stack s.history ∧ Explained rules root s.history ∧ t.history = []
    leftVoid := fun s => ¬ s.history.Terminals
    rightVoid := fun _ => False
    forgiving := False }

theorem matching_recomputing (hRules : rules.Functional) (stack : List Location) :
    Matching (recomputing rules root stack) rules rules :=
  matching_self fun r hr request => coupled_onClient (fun _ hVoid => hVoid) (fun _ hVoid => hVoid)
    (fun c d => hRules r hr request c d) fun _ _ hRelated => hRelated

/-- Resolved leaves and leaves under evaluation behave alike at every depth. What is
left are the pending ones. -/
theorem coupled_recompute_of_pending (hRules : rules.Functional) {depth : Nat}
    {stack : List Location} (hStack : root.Stack depth stack) {leaf : Leaf}
    (hLeaf : leaf ∈ root.deferredLeaves)
    (hPending : ∀ s t : Session σ, (recomputing rules root stack).related s t →
      s.history.progress leaf.location = .pending →
        ¬ ((resolve rules root depth stack.head? leaf).run s).2.history.Terminals ∨
          (((resolve rules root depth stack.head? leaf).run s).1 =
              ((recompute rules root depth stack leaf).run t).1 ∧
            (recomputing rules root stack).related
              ((resolve rules root depth stack.head? leaf).run s).2
              ((recompute rules root depth stack leaf).run t).2)) :
    Coupled (recomputing rules root stack) (resolve rules root depth stack.head? leaf)
      (recompute rules root depth stack leaf) := by
  have hFaithful : Faithful (resolve rules root depth stack.head?) root :=
    faithful_resolve depth stack.head?
  refine ⟨fun s hs hLater => ?_, fun _ hVoid => hVoid.elim, fun s t hst => ?_⟩
  · exact hs (hLater.of_precedes (Session.precedes_of_keeps (hFaithful.grows leaf hLeaf) rfl))
  · obtain ⟨hUnder, hExplained, hBlank⟩ := hst
    cases hProgress : s.history.progress leaf.location with
    | resolved v =>
      -- nothing on the stack has a value, so the value can be recomputed with it
      have hValue : s.history.leafValue? leaf = some v := value?_eq_some_iff.2 hProgress
      rw [recalls_resolve depth stack.head? leaf s v hValue]
      by_cases hTerminals : s.history.Terminals
      · obtain ⟨t', hAgain, hBlank'⟩ := recomputes_of_explained hRules hExplained hTerminals depth
          stack hStack (fun _ => hUnder.value?_eq_none) leaf hLeaf v hValue t hBlank
        rw [hAgain]
        exact .inr (.inr (.inr ⟨rfl, hUnder, hExplained, hBlank'⟩))
      · exact .inl hTerminals
    | evaluating other =>
      -- a cycle, with the stack as its trace on both sides
      have hIn := (hUnder.evaluating leaf.location).1 ⟨other, hProgress⟩
      rw [run_resolve_of_evaluating hProgress, recompute_of_mem hIn, hUnder.cycleTrace_eq hIn]
      exact .inr (.inr (.inr ⟨rfl, hUnder, hExplained, hBlank⟩))
    | pending =>
      rcases hPending s t ⟨hUnder, hExplained, hBlank⟩ hProgress with hVoid | hSame
      · exact .inl hVoid
      · exact .inr (.inr (.inr hSame))

/-- A pending leaf is evaluated with itself on the stack, and taken off it whatever
the result is. -/
theorem coupled_recompute_succ (hRoot : root.Distinct) (hRules : rules.Functional) {depth : Nat}
    {stack : List Location} (hStack : root.Stack (depth + 1) stack) {leaf : Leaf}
    (hLeaf : leaf ∈ root.deferredLeaves)
    (hInner : leaf.location ∉ stack → ∀ other ∈ root.deferredLeaves,
      Coupled (recomputing rules root (leaf.location :: stack))
        (resolve rules root depth (some leaf.location) other)
        (recompute rules root depth (leaf.location :: stack) other)) :
    Coupled (recomputing rules root stack) (resolve rules root (depth + 1) stack.head? leaf)
      (recompute rules root (depth + 1) stack leaf) := by
  refine coupled_recompute_of_pending hRules hStack hLeaf
    fun s t ⟨hUnder, hExplained, hBlank⟩ hPending => ?_
  have hNew := hUnder.not_mem_of_pending hPending
  have hAfter : Explained rules root
      ((resolve rules root (depth + 1) stack.head? leaf).run s).2.history :=
    explained_resolve hRoot (depth + 1) stack.head? leaf hLeaf s hExplained
  have hCoupled := coupled_evaluation (matching_recomputing hRules (leaf.location :: stack))
    (fun s => (Classical.em s.history.Terminals).symm) (fun _ _ hst => hst.2.2) (hInner hNew)
  have hBegun : (recomputing rules root (leaf.location :: stack)).related
      (begun s stack.head? leaf) t :=
    ⟨hUnder.push hNew, (explained_kept hRoot).started leaf hLeaf _ _ hExplained hPending, hBlank⟩
  rw [resolve_succ, run_request_of_pending hPending] at hAfter ⊢
  rw [recompute_of_not_mem hNew, run_map]
  rcases hRun : (evaluation rules root depth leaf).run (begun s stack.head? leaf) with ⟨r, s₁⟩
  have hEnd := value?_of_evaluating (progress_after_evaluation hRun)
  by_cases hTerminals : s₁.history.Terminals
  · right
    have hReached : ¬ (recomputing rules root (leaf.location :: stack)).leftVoid
        ((evaluation rules root depth leaf).run (begun s stack.head? leaf)).2 := by
      rw [hRun]
      exact not_not.2 hTerminals
    obtain ⟨hSame, hUnder', -, hBlank'⟩ := hCoupled.agree hBegun hReached id False.elim
    rw [hRun] at hSame hUnder'
    cases r with
    | error e =>
      rw [run_evaluate_of_error hRun] at hAfter ⊢
      rw [← hSame]
      exact ⟨rfl, hUnder'.pop hNew (fun _ h => by cases h), hAfter, hBlank'⟩
    | ok w =>
      rw [run_evaluate_of_ok hRun] at hAfter ⊢
      rw [← hSame]
      exact ⟨rfl, hUnder'.pop hNew (fun _ h => by cases h), hAfter, hBlank'⟩
  · -- the record that follows does not hide the sequence or table
    left
    cases r with
    | error e =>
      rw [run_evaluate_of_error hRun]
      exact fun hLater => hTerminals (hLater.of_precedes ((Precedes.refl _).cons hEnd .pending))
    | ok w =>
      rw [run_evaluate_of_ok hRun]
      exact fun hLater => hTerminals (hLater.of_precedes ((Precedes.refl _).cons hEnd _))

/-- **Resolving is recomputing.** What is resolved, under evaluation or pending in the
history is, in this order, recomputed to its value, on the stack, or free to be
evaluated. -/
theorem coupled_recompute (hRoot : root.Distinct) (hRules : rules.Functional) (depth : Nat) :
    ∀ stack : List Location, root.Stack depth stack → ∀ leaf ∈ root.deferredLeaves,
      Coupled (recomputing rules root stack) (resolve rules root depth stack.head? leaf)
        (recompute rules root depth stack leaf) := by
  induction depth with
  | zero =>
    -- all leaves are under evaluation, so none is pending
    intro stack hStack leaf hLeaf
    refine coupled_recompute_of_pending hRules hStack hLeaf fun s t ⟨hUnder, _⟩ hPending => ?_
    exact absurd (hStack.mem_of_zero hLeaf) (hUnder.not_mem_of_pending hPending)
  | succ depth ih =>
    intro stack hStack leaf hLeaf
    exact coupled_recompute_succ hRoot hRules hStack hLeaf
      fun hNew => ih (leaf.location :: stack) (hStack.push hLeaf hNew)

end

-- ---------------------------------------------------------------------------
-- Calls
-- ---------------------------------------------------------------------------

/-- A call. -/
inductive Query where
  | get (spec : String)
  | all

/-- What a call answers, given how leaves are resolved. -/
def answerBy (resolveLeaf : LeafResolver σ) (root : Draft) : Query → Eval (Session σ) (Option Value)
  | .get spec =>
    match Pattern.parse spec with
    | .error reason => Eval.fail (.badPattern reason)
    | .ok pattern => valueAt resolveLeaf root pattern
  | .all => some <$> complete resolveLeaf root

/-- What a call answers. -/
def answer (x : Expansion σ) : Query → Eval (Session σ) (Option Value)
  | .get spec => x.get spec
  | .all => some <$> x.all

/-- The session after calls, whether they succeed or fail. -/
def after (x : Expansion σ) : List Query → Session σ → Session σ
  | [], s => s
  | query :: rest, s => x.after rest ((x.answer query).run s).2

theorem answer_eq (x : Expansion σ) (query : Query) :
    x.answer query = answerBy x.resolveLeaf x.root query := by
  cases query with
  | get spec => rfl
  | all => rfl

theorem run_answer_all (x : Expansion σ) (s : Session σ) :
    (x.answer .all).run s = ((x.all.run s).1.map some, (x.all.run s).2) :=
  run_map some x.all s

theorem run_expand_eq_ok {t v : Value} {rules : ExpansionRules σ} {c c' : σ} :
    (t.expand rules).run c = (.ok v, c') ↔
      ∃ s, ((ofValue t rules).answer .all).run (Session.start c) = (.ok (some v), s) ∧
        s.client = c' := by
  have hExpand : (t.expand rules).run c = (((ofValue t rules).all.run (Session.start c)).1,
      ((ofValue t rules).all.run (Session.start c)).2.client) := rfl
  rw [hExpand]
  rcases hRun : (ofValue t rules).all.run (Session.start c) with ⟨r, s⟩
  rw [run_answer_all, hRun]
  cases r with
  | ok w => simp [Except.map]
  | error e => simp [Except.map]

section

variable {t : Value} {rules : ExpansionRules σ}

/-- What a call answers without a memory. -/
def recomputedAnswer (t : Value) (rules : ExpansionRules σ) (query : Query) :
    Eval (Session σ) (Option Value) :=
  answerBy (recompute rules (Draft.ofValue t) (Draft.ofValue t).deferredLeaves.length [])
    (Draft.ofValue t) query

theorem coupled_answer (ht : t.WellFormed) (hRules : rules.Functional) (query : Query) :
    Coupled (recomputing rules (Draft.ofValue t) []) ((ofValue t rules).answer query)
      (recomputedAnswer t rules query) := by
  have hLeaves := coupled_recompute (distinct_ofValue ht) hRules _ [] (Stack.nil (Draft.ofValue t))
  rw [answer_eq, recomputedAnswer]
  cases query with
  | get spec =>
    rw [answerBy, answerBy]
    cases Pattern.parse spec with
    | error reason => exact Coupled.fail _
    | ok pattern =>
      have hBlank : ∀ s blank : Session σ,
          (recomputing rules (Draft.ofValue t) []).related s blank → blank.history = [] :=
        fun _ _ hst => hst.2.2
      exact coupled_valueAt (faithful_resolve _ none) (recalls_resolve _ none)
        (fun s => (Classical.em s.history.Terminals).symm) hBlank hLeaves pattern
  | all => exact (coupled_complete hLeaves).map some

theorem not_terminals_after (ht : t.WellFormed) (hRules : rules.Functional)
    (queries : List Query) : ∀ s : Session σ, ¬ s.history.Terminals →
      ¬ ((ofValue t rules).after queries s).history.Terminals := by
  induction queries with
  | nil => exact fun _ h => h
  | cons query rest ih =>
    exact fun s h => ih _ ((coupled_answer ht hRules query).keepsLeft s h)

/-- As long as all values are terminals, nothing is under evaluation between calls,
and every value is explained. -/
theorem related_after (ht : t.WellFormed) (hRules : rules.Functional) (queries : List Query) :
    ∀ s blank : Session σ, (recomputing rules (Draft.ofValue t) []).related s blank →
      ((ofValue t rules).after queries s).history.Terminals →
        (recomputing rules (Draft.ofValue t) []).related
          ((ofValue t rules).after queries s) blank := by
  induction queries with
  | nil => exact fun _ _ h _ => h
  | cons query rest ih =>
    intro s blank hst hTerminals
    obtain ⟨-, hUnder, hExplained, -⟩ := (coupled_answer ht hRules query).agree hst
      (fun hVoid => not_terminals_after ht hRules rest _ hVoid hTerminals) id False.elim
    exact ih _ blank ⟨hUnder, hExplained, hst.2.2⟩ hTerminals

/-- A call answers what recomputing answers. -/
theorem answer_eq_recomputedAnswer (ht : t.WellFormed) (hRules : rules.Functional)
    (queries : List Query) (query : Query) (c d : σ)
    (hTerminals : (((ofValue t rules).answer query).run
      ((ofValue t rules).after queries (Session.start c))).2.history.Terminals) :
    (((ofValue t rules).answer query).run ((ofValue t rules).after queries (Session.start c))).1 =
      ((recomputedAnswer t rules query).run (Session.start d)).1 := by
  -- the call takes no value away, so there were only terminals before it
  have hBefore : ((ofValue t rules).after queries (Session.start c)).history.Terminals := by
    by_contra hVoid
    exact (coupled_answer ht hRules query).keepsLeft _ hVoid hTerminals
  have hStart : (recomputing rules (Draft.ofValue t) []).related (Session.start c)
      (Session.start d) := ⟨UnderWay.nil, Explained.nil, rfl⟩
  have hAfter := related_after ht hRules queries _ _ hStart hBefore
  exact ((coupled_answer ht hRules query).agree hAfter (not_not.2 hTerminals) id False.elim).1

/-- **Calls do not notice each other.** Where all values are terminals, a call answers
after any calls what it answers on an expansion that has done nothing yet: the same
value, or the same error. -/
theorem answers_independent (ht : t.WellFormed) (hRules : rules.Functional)
    (queries : List Query) (query : Query) (c fresh : σ)
    (hTerminals : (((ofValue t rules).answer query).run
      ((ofValue t rules).after queries (Session.start c))).2.history.Terminals)
    (hFresh : (((ofValue t rules).answer query).run (Session.start fresh)).2.history.Terminals) :
    (((ofValue t rules).answer query).run ((ofValue t rules).after queries (Session.start c))).1 =
      (((ofValue t rules).answer query).run (Session.start fresh)).1 :=
  (answer_eq_recomputedAnswer ht hRules queries query c fresh hTerminals).trans
    (answer_eq_recomputedAnswer ht hRules [] query fresh fresh hFresh).symm

end

/-- Two texts that refer to each other, and two that do not. -/
def cyclicTree : Value :=
  .table [("a", Value.ofString "$\x7bb\x7d"), ("b", Value.ofString "$\x7ba\x7d"),
    ("c", Value.ofString "v$\x7bd\x7d"), ("d", Value.ofString "x")]

/-- A cycle is reported alike, also after it was met from another side. -/
theorem answers_independent_of_cycle :
    let x := ofValue cyclicTree .treeOnly
    ((x.answer (.get "b")).run (x.after [.get "a", .get "(c|d)", .all] (Session.start ()))).1 =
      ((x.answer (.get "b")).run (Session.start ())).1 := by
  have hOrdered : cyclicTree.WellFormed :=
    ⟨by decide, trivial, trivial, trivial, trivial, trivial⟩
  exact answers_independent hOrdered ExpansionRules.functional_treeOnly
    [.get "a", .get "(c|d)", .all] (.get "b") () () (by decide +kernel) (by decide +kernel)

end Expansion

end LayeredConfig
