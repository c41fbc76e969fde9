import LayeredConfig.Proofs.ResolverCalls

/-!
# LayeredConfig — leaves are evaluated at most once

A leaf is reached in many ways: by its own path, through a section it is in, through
alternatives that name it twice, or on the way to something else. A leaf that has a value
is not evaluated again. One whose interpolation failed is pending again and may begin
anew, but not within the same call: its failure is the failure of whatever requested it,
up to the call.

So within a call what holds as long as nothing has failed is stronger than what holds
once something has, and after that nothing more is done. An evaluation **leads** from
one property to itself, or else to another one.

* `History.beginnings`, `History.successes` — what has happened to a leaf, counted.
* `Eval.Leads`                       — invariants that failures end.
* `Expansion.KeptUntilFailure`, `Expansion.leads_answer` — those of calls, by their events.
* `Expansion.BegunOnce`, `Expansion.BegunForGood` — what a call does to leaves.
* `Expansion.evaluated_at_most_once` — the result.
-/

namespace LayeredConfig

open Eval History

-- ---------------------------------------------------------------------------
-- Events of a leaf
-- ---------------------------------------------------------------------------

namespace Progress

/-- The start of an interpolation. -/
def isBeginning : Progress → Bool
  | .evaluating _ => true
  | _ => false

/-- The end of an interpolation that succeeded. -/
def isSuccess : Progress → Bool
  | .resolved _ => true
  | _ => false

end Progress

namespace History

/-- How many events of a kind the leaf at a location has. -/
def countOf (kind : Progress → Bool) (h : History) (location : Location) : Nat :=
  h.countP fun event => event.1 == location && kind event.2

/-- How often the interpolation of the leaf has begun. -/
def beginnings (h : History) (location : Location) : Nat := countOf Progress.isBeginning h location

/-- How often the interpolation of the leaf has succeeded. -/
def successes (h : History) (location : Location) : Nat := countOf Progress.isSuccess h location

section

variable {kind : Progress → Bool} {location other : Location} {p : Progress} {h : History}

theorem countOf_cons_of_ne (hne : location ≠ other) :
    countOf kind ((location, p) :: h) other = countOf kind h other := by
  rw [countOf, List.countP_cons_of_neg (by simp [hne]), countOf]

theorem countOf_cons_of_not (hKind : kind p = false) :
    countOf kind ((location, p) :: h) other = countOf kind h other := by
  rw [countOf, List.countP_cons_of_neg (by simp [hKind]), countOf]

theorem countOf_cons_self (hKind : kind p = true) :
    countOf kind ((location, p) :: h) location = countOf kind h location + 1 := by
  rw [countOf, List.countP_cons_of_pos (by simp [hKind]), countOf]

end

end History

-- ---------------------------------------------------------------------------
-- Invariants that failures end
-- ---------------------------------------------------------------------------

namespace Eval

/-- How an evaluation has ended: with a result, and in a state with `I`, or with an error,
and in one with `E`. -/
def Ends (I E : σ → Prop) : Except ConfigError α × σ → Prop
  | (.ok _, s) => I s
  | (.error _, s) => E s

/-- Leads from states with `I` to states with `I`, or else fails and leads to one with
`E`. -/
def Leads (I E : σ → Prop) (x : Eval σ α) : Prop := ∀ s, I s → Ends I E (x.run s)

section

variable {I E : σ → Prop}

theorem inherited_leads (I E : σ → Prop) : Inherited (fun _ (x : Eval σ _) => Leads I E x) where
  pure _ _ hs := hs
  bind := by
    intro α β x f hx hf s hs
    have hFirst := hx s hs
    rcases hRun : x.run s with ⟨r, s₁⟩
    rw [hRun] at hFirst
    cases r with
    | ok a =>
      rw [run_bind_of_ok hRun]
      exact hf s a s₁ hRun s₁ hFirst
    | error e =>
      rw [run_bind_of_error hRun]
      exact hFirst

/-- An invariant that implies what holds after failures. -/
theorem Keeps.leads {x : Eval σ α} (h : x.Keeps I) (hE : ∀ s, I s → E s) : Leads I E x := by
  intro s hs
  have hEnd := h s hs
  rcases hRun : x.run s with ⟨r, s'⟩
  rw [hRun] at hEnd
  cases r with
  | ok a => exact hEnd
  | error e => exact hE s' hEnd

end

end Eval

namespace Expansion

open Draft

-- ---------------------------------------------------------------------------
-- What a call does to leaves
-- ---------------------------------------------------------------------------

/-- Since an earlier moment, the interpolation of no leaf has begun twice. -/
def BegunOnce (before h : History) : Prop :=
  ∃ since, h = since ++ before ∧ ∀ location, since.beginnings location ≤ 1

/-- Nor has that of a leaf which is pending begun since then. -/
def BegunForGood (before h : History) : Prop :=
  ∃ since, h = since ++ before ∧ ∀ location, since.beginnings location ≤ 1 ∧
    (h.progress location = .pending → since.beginnings location = 0)

section

variable {before h : History} {location : Location}

theorem BegunForGood.refl (before : History) : BegunForGood before before :=
  ⟨[], rfl, fun _ => ⟨Nat.zero_le 1, fun _ => rfl⟩⟩

theorem BegunForGood.begunOnce (hGood : BegunForGood before h) : BegunOnce before h := by
  obtain ⟨since, hSince, hBegun⟩ := hGood
  exact ⟨since, hSince, fun location => (hBegun location).1⟩

/-- The interpolation of a pending leaf may begin. -/
theorem BegunForGood.begins (hGood : BegunForGood before h)
    (hPending : h.progress location = .pending) (trigger : Option Location) :
    BegunForGood before ((location, .evaluating trigger) :: h) := by
  obtain ⟨since, rfl, hBegun⟩ := hGood
  refine ⟨(location, .evaluating trigger) :: since, rfl, fun other => ?_⟩
  by_cases hSame : location = other
  · subst hSame
    rw [beginnings, countOf_cons_self rfl, ← beginnings, (hBegun location).2 hPending,
      progress_cons_self]
    exact ⟨Nat.le_refl 1, fun hNot => by cases hNot⟩
  · rw [beginnings, countOf_cons_of_ne hSame, progress_cons_of_ne hSame]
    exact hBegun other

/-- It may succeed. -/
theorem BegunForGood.succeeds (hGood : BegunForGood before h) (location : Location) (v : Value) :
    BegunForGood before ((location, .resolved v) :: h) := by
  obtain ⟨since, rfl, hBegun⟩ := hGood
  refine ⟨(location, .resolved v) :: since, rfl, fun other => ?_⟩
  rw [beginnings, countOf_cons_of_not rfl]
  refine ⟨(hBegun other).1, fun hPending => (hBegun other).2 ?_⟩
  by_cases hSame : location = other
  · rw [hSame, progress_cons_self] at hPending
    cases hPending
  · rwa [progress_cons_of_ne hSame] at hPending

/-- If it fails, the leaf is pending although its interpolation has begun. -/
theorem BegunOnce.fails (hOnce : BegunOnce before h) (location : Location) :
    BegunOnce before ((location, .pending) :: h) := by
  obtain ⟨since, rfl, hBegun⟩ := hOnce
  refine ⟨(location, .pending) :: since, rfl, fun other => ?_⟩
  rw [beginnings, countOf_cons_of_not rfl]
  exact hBegun other

end

/-- What calls keep as long as they succeed, and what they keep if they fail: starting the
evaluation of a pending leaf and resolving a leaf keep the one, a failed evaluation the
other. -/
structure KeptUntilFailure (I E : History → Prop) : Prop where
  weakens : ∀ h, I h → E h
  begins : ∀ h location trigger, I h → h.progress location = .pending →
    I ((location, .evaluating trigger) :: h)
  succeeds : ∀ h location v, I h → I ((location, .resolved v) :: h)
  fails : ∀ h location, E h → E ((location, .pending) :: h)

section

variable {rules : ExpansionRules σ} {root : Draft} {I E : History → Prop}

theorem leads_of_keeps (hEvents : KeptUntilFailure I E) {x : Eval (Session σ) α}
    (h : x.Keeps fun s => I s.history) :
    Leads (fun s => I s.history) (fun s => E s.history) x :=
  h.leads fun s hs => hEvents.weakens s.history hs

theorem leads_request (hEvents : KeptUntilFailure I E) {x : Eval (Session σ) Value}
    (hBody : Leads (fun s => I s.history) (fun s => E s.history) x) (trigger : Option Location)
    (leaf : Leaf) :
    Leads (fun s => I s.history) (fun s => E s.history) (request x trigger leaf) := by
  intro s hs
  rcases run_request_cases x trigger leaf s with
    ⟨v, -, hRun⟩ | ⟨other, -, hRun⟩ | ⟨hPending, hEnd⟩
  · rw [hRun]
    exact hs
  · rw [hRun]
    exact hEvents.weakens s.history hs
  · have hBegun := hBody (begun s trigger leaf) (hEvents.begins _ _ trigger hs hPending)
    rcases hEnd with ⟨e, s', hFailed, hRun⟩ | ⟨w, s', hDone, hRun⟩
    · rw [hFailed] at hBegun
      rw [hRun]
      exact hEvents.fails s'.history leaf.location hBegun
    · rw [hDone] at hBegun
      rw [hRun]
      exact hEvents.succeeds s'.history leaf.location _ hBegun

theorem leads_resolve (hEvents : KeptUntilFailure I E) (depth : Nat) :
    ∀ (trigger : Option Location) (leaf : Leaf), Leads (fun s => I s.history)
      (fun s => E s.history) (resolve rules root depth trigger leaf) := by
  have hP := inherited_leads (fun s : Session σ => I s.history) (fun s => E s.history)
  induction depth with
  | zero =>
    exact fun trigger leaf =>
      leads_request hEvents (leads_of_keeps hEvents (keeps_circular _ trigger leaf)) trigger leaf
  | succ depth ih =>
    intro trigger leaf
    refine leads_request hEvents ?_ trigger leaf
    refine inherited_interpolateLeaf hP ?_ ?_ ?_ ?_
    · exact fun r _ request => leads_of_keeps hEvents (Session.keeps_onClient I _)
    · exact inherited_scope hP (leads_of_keeps hEvents (Keeps.of_unchanged fun _ => rfl))
        fun other _ => ih _ other
    · exact fun request => leads_of_keeps hEvents (Keeps.fail _)
    · exact leads_of_keeps hEvents (Keeps.ofExcept _)

theorem leads_answer (hEvents : KeptUntilFailure I E) (x : Expansion σ) (query : Query) :
    Leads (fun s => I s.history) (fun s => E s.history) (x.answer query) := by
  rw [answer_eq]
  exact inherited_answerBy (inherited_leads _ _)
    (leads_of_keeps hEvents (Keeps.of_unchanged fun _ => rfl))
    (fun _ => leads_of_keeps hEvents (Keeps.fail _))
    (fun leaf _ => leads_resolve hEvents _ none leaf) query

end

theorem begunForGood_kept (before : History) :
    KeptUntilFailure (BegunForGood before) (BegunOnce before) where
  weakens _ hGood := hGood.begunOnce
  begins _ _ trigger hGood hPending := hGood.begins hPending trigger
  succeeds _ location v hGood := hGood.succeeds location v
  fails _ location hOnce := hOnce.fails location

/-- No interpolation begins twice within a call. -/
theorem begunOnce_answer (x : Expansion σ) (query : Query) (s : Session σ) :
    BegunOnce s.history ((x.answer query).run s).2.history := by
  have hEnd := leads_answer (begunForGood_kept s.history) x query s (BegunForGood.refl s.history)
  rcases hRun : (x.answer query).run s with ⟨r, s'⟩
  rw [hRun] at hEnd
  cases r with
  | ok a => exact hEnd.begunOnce
  | error e => exact hEnd

section

variable {rules : ExpansionRules σ} {root : Draft}

-- ---------------------------------------------------------------------------
-- Over many calls
-- ---------------------------------------------------------------------------

/-- A leaf has succeeded once if it has a value, and not at all otherwise. -/
theorem Nested.successes_eq {stack : List Location} {h : History}
    (hNested : Nested rules root stack h) (location : Location) :
    h.successes location = if (h.value? location).isSome then 1 else 0 := by
  induction hNested with
  | nothing => rfl
  | @begins stack h leaf before isLeaf pending ih =>
    rw [successes, countOf_cons_of_not rfl, ← successes, ih]
    by_cases hSame : leaf.location = location
    · rw [← hSame, value?_of_pending pending, value?_of_evaluating (progress_cons_self _ _ _)]
    · rw [value?_cons_of_ne hSame]
  | @fails stack h leaf before isLeaf failure ih =>
    rw [successes, countOf_cons_of_not rfl, ← successes, ih]
    by_cases hSame : leaf.location = location
    · have hNone := before.underWay.2.value?_eq_none List.mem_cons_self
      rw [← hSame, hNone, value?_of_pending (progress_cons_self _ _ _)]
    · rw [value?_cons_of_ne hSame]
  | @succeeds stack h leaf v before isLeaf explains ih =>
    by_cases hSame : leaf.location = location
    · have hNone := before.underWay.2.value?_eq_none List.mem_cons_self
      rw [← hSame] at ih ⊢
      rw [successes, countOf_cons_self rfl, ← successes, ih, hNone, value?_cons_self]
      rfl
    · rw [successes, countOf_cons_of_ne hSame, ← successes, ih, value?_cons_of_ne hSame]

end

/-- **Leaves are evaluated at most once.** For any tree, any resolvers and any calls,
whether they succeeded or failed:

* within the next call, no leaf's interpolation begins more than once;
* over all calls, no leaf's interpolation succeeds more than once;
* whenever a resolver is called, the interpolation on whose behalf this is goes on, and
  that of the same leaf has not succeeded before. -/
theorem evaluated_at_most_once (t : Value) (rules : ExpansionRules σ) (queries : List Query)
    (c : σ) :
    let x := ofValue t rules
    let s := x.after queries (Session.start c)
    (∀ query, ∃ since, ((x.answer query).run s).2.history = since ++ s.history ∧
      ∀ location, since.beginnings location ≤ 1) ∧
    (∀ location, s.history.successes location ≤ 1) ∧
    ∀ call ∈ x.resolverCalls queries c, call.moment <:+ s.history ∧
      call.leaf ∈ call.moment.ongoing ∧ call.moment.successes call.leaf = 0 := by
  intro x s
  have hNested : Nested rules (Draft.ofValue t) [] s.history := nested_after t rules queries c
  refine ⟨fun query => begunOnce_answer x query s, fun location => ?_, fun call hCall => ?_⟩
  · rw [hNested.successes_eq]
    split
    · exact Nat.le_refl 1
    · exact Nat.zero_le 1
  · obtain ⟨hMoment, hOngoing⟩ := ongoing_of_call t rules queries c hCall
    obtain ⟨⟨stack, hThen⟩, -⟩ := hNested.of_suffix hMoment
    have hIn : call.leaf ∈ stack := hThen.ongoing_eq ▸ hOngoing
    refine ⟨hMoment, hOngoing, ?_⟩
    rw [hThen.successes_eq, hThen.underWay.2.value?_eq_none hIn]
    rfl

/-- A leaf on a cycle begins again in a later call. One that has succeeded does not, nor
are resolvers called for it. -/
theorem evaluated_at_most_once_of_cycle :
    let x := ofValue cyclicTree .treeOnly
    let s := x.after [.get "a", .get "c", .get "(a|c)"] (Session.start ())
    s.history.beginnings [.key "a"] = 2 ∧ s.history.beginnings [.key "c"] = 1 ∧
      (x.resolverCalls [.get "a", .get "c", .get "(a|c)"] ()).length = 10 ∧
      s.history.successes [.key "c"] ≤ 1 ∧
      ∀ call ∈ x.resolverCalls [.get "a", .get "c", .get "(a|c)"] (),
        call.moment.successes call.leaf = 0 := by
  intro x s
  obtain ⟨-, hSucceeds, hCalls⟩ :=
    evaluated_at_most_once cyclicTree .treeOnly [.get "a", .get "c", .get "(a|c)"] ()
  exact ⟨by decide +kernel, by decide +kernel, by decide +kernel, hSucceeds [.key "c"],
    fun call hCall => (hCalls call hCall).2.2⟩

end Expansion

end LayeredConfig
