import LayeredConfig.Proofs.Inheritance

/-!
# LayeredConfig — the course of an expansion

The history of an expansion tells at each moment which interpolations have begun and
not ended. They are nested: one begins at the request of the one that began last, and
the one that began last ends first. So at each moment the leaves under evaluation are
the leaves whose interpolation goes on, and each names the one that requested it.

A moment of an expansion is a final part of its history, as the latest event stands
first. `Expansion.Nested` says what an event can be, given the interpolations that go
on; all that is proved of moments is proved by induction on it.

* `History.ongoing`                  — the interpolations that go on.
* `History.Linked`                   — leaves each at the request of the next one.
* `Expansion.Nested`                 — histories of nested interpolations.
* `Expansion.nested_after`           — calls lead to such histories.
* `Expansion.progress_along_calls`   — how the progress of leaves changes.
-/

namespace LayeredConfig

open Eval History

namespace History

/-- The leaves whose interpolation has begun and not ended, the last one begun first. -/
def ongoing : History → List Location
  | [] => []
  | (location, .evaluating _) :: earlier => location :: ongoing earlier
  | (location, _) :: earlier => (ongoing earlier).erase location

/-- Each leaf is under evaluation at the request of the next one, and the last one at
the request of the call. -/
def Linked (h : History) : List Location → Prop
  | [] => True
  | location :: below => h.progress location = .evaluating below.head? ∧ Linked h below

theorem Linked.cons {h : History} {stack : List Location} (hLinked : h.Linked stack)
    {location : Location} (hNew : location ∉ stack) (p : Progress) :
    Linked ((location, p) :: h) stack := by
  induction stack with
  | nil => trivial
  | cons top below ih =>
    rw [List.mem_cons, not_or] at hNew
    obtain ⟨hTop, hBelow⟩ := hLinked
    exact ⟨(progress_cons_of_ne hNew.1 p h).trans hTop, ih hBelow hNew.2⟩

end History

namespace Expansion

open Draft

-- ---------------------------------------------------------------------------
-- Nested interpolations
-- ---------------------------------------------------------------------------

/-- An evaluation of the leaf that ended with the history `h` failed. -/
def Fails (rules : ExpansionRules σ) (root : Draft) (h : History) (leaf : Leaf) : Prop :=
  ∃ depth trigger s e s',
    (evaluation rules root depth leaf).run (begun s trigger leaf) = (.error e, s') ∧
      s'.history = h

/-- The histories that nested interpolations lead to, each with the leaves whose
interpolation goes on then. -/
inductive Nested (rules : ExpansionRules σ) (root : Draft) : List Location → History → Prop
  | nothing : Nested rules root [] []
  | begins {stack : List Location} {h : History} {leaf : Leaf}
      (before : Nested rules root stack h) (isLeaf : leaf ∈ root.deferredLeaves)
      (pending : h.progress leaf.location = .pending) :
      Nested rules root (leaf.location :: stack) ((leaf.location, .evaluating stack.head?) :: h)
  | fails {stack : List Location} {h : History} {leaf : Leaf}
      (before : Nested rules root (leaf.location :: stack) h) (isLeaf : leaf ∈ root.deferredLeaves)
      (failure : Fails rules root h leaf) :
      Nested rules root stack ((leaf.location, .pending) :: h)
  | succeeds {stack : List Location} {h : History} {leaf : Leaf} {v : Value}
      (before : Nested rules root (leaf.location :: stack) h) (isLeaf : leaf ∈ root.deferredLeaves)
      (explains : Explains rules root h leaf v) :
      Nested rules root stack ((leaf.location, .resolved v) :: h)

namespace Nested

variable {rules : ExpansionRules σ} {root : Draft} {stack : List Location} {h : History}

theorem underWay (hNested : Nested rules root stack h) : stack.Nodup ∧ UnderWay stack h := by
  induction hNested with
  | nothing => exact ⟨List.nodup_nil, UnderWay.nil⟩
  | begins before isLeaf pending ih =>
    obtain ⟨hNodup, hUnder⟩ := ih
    have hNew := hUnder.not_mem_of_pending pending
    exact ⟨List.nodup_cons.2 ⟨hNew, hNodup⟩, hUnder.push hNew⟩
  | fails before isLeaf failure ih =>
    obtain ⟨hNodup, hUnder⟩ := ih
    obtain ⟨hNew, hRest⟩ := List.nodup_cons.1 hNodup
    exact ⟨hRest, hUnder.pop hNew fun _ hEq => by cases hEq⟩
  | succeeds before isLeaf explains ih =>
    obtain ⟨hNodup, hUnder⟩ := ih
    obtain ⟨hNew, hRest⟩ := List.nodup_cons.1 hNodup
    exact ⟨hRest, hUnder.pop hNew fun _ hEq => by cases hEq⟩

theorem ongoing_eq (hNested : Nested rules root stack h) : h.ongoing = stack := by
  induction hNested with
  | nothing => rfl
  | begins before isLeaf pending ih => rw [ongoing, ih]
  | fails before isLeaf failure ih => rw [ongoing, ih, List.erase_cons_head]; nofun
  | succeeds before isLeaf explains ih => rw [ongoing, ih, List.erase_cons_head]; nofun

theorem linked (hNested : Nested rules root stack h) : h.Linked stack := by
  induction hNested with
  | nothing => trivial
  | begins before isLeaf pending ih =>
    have hNew := before.underWay.2.not_mem_of_pending pending
    exact ⟨progress_cons_self _ _ _, ih.cons hNew _⟩
  | fails before isLeaf failure ih => exact ih.2.cons (List.nodup_cons.1 before.underWay.1).1 _
  | succeeds before isLeaf explains ih =>
    exact ih.2.cons (List.nodup_cons.1 before.underWay.1).1 _

/-- Every moment on the way is a history of nested interpolations, and what has a value
then keeps it. -/
theorem of_suffix (hNested : Nested rules root stack h) {earlier : History}
    (hSuffix : earlier <:+ h) :
    (∃ below, Nested rules root below earlier) ∧ earlier.Precedes h := by
  induction hNested with
  | nothing =>
    cases List.suffix_nil.1 hSuffix
    exact ⟨⟨[], .nothing⟩, Precedes.refl _⟩
  | @begins stack h leaf before isLeaf pending ih =>
    rcases List.suffix_cons_iff.1 hSuffix with rfl | hSuffix
    · exact ⟨⟨_, before.begins isLeaf pending⟩, Precedes.refl _⟩
    · obtain ⟨hBelow, hPrecedes⟩ := ih hSuffix
      exact ⟨hBelow, hPrecedes.cons (value?_of_pending pending) _⟩
  | @fails stack h leaf before isLeaf failure ih =>
    rcases List.suffix_cons_iff.1 hSuffix with rfl | hSuffix
    · exact ⟨⟨_, before.fails isLeaf failure⟩, Precedes.refl _⟩
    · obtain ⟨hBelow, hPrecedes⟩ := ih hSuffix
      exact ⟨hBelow, hPrecedes.cons (before.underWay.2.value?_eq_none List.mem_cons_self) _⟩
  | @succeeds stack h leaf v before isLeaf explains ih =>
    rcases List.suffix_cons_iff.1 hSuffix with rfl | hSuffix
    · exact ⟨⟨_, before.succeeds isLeaf explains⟩, Precedes.refl _⟩
    · obtain ⟨hBelow, hPrecedes⟩ := ih hSuffix
      exact ⟨hBelow, hPrecedes.cons (before.underWay.2.value?_eq_none List.mem_cons_self) _⟩

/-- An interpolation that goes on ends with the next event of its leaf. -/
theorem ends {location : Location} {p : Progress} {trigger : Option Location}
    (hNested : Nested rules root stack ((location, p) :: h))
    (hEvaluating : h.progress location = .evaluating trigger) :
    ∃ leaf ∈ root.deferredLeaves, leaf.location = location ∧
      ((∃ v, p = .resolved v ∧ Explains rules root h leaf v) ∨
        (p = .pending ∧ Fails rules root h leaf)) := by
  cases hNested with
  | begins before isLeaf pending =>
    rw [hEvaluating] at pending
    cases pending
  | @fails _ _ leaf before isLeaf failure => exact ⟨leaf, isLeaf, rfl, .inr ⟨rfl, failure⟩⟩
  | @succeeds _ _ leaf v before isLeaf explains =>
    exact ⟨leaf, isLeaf, rfl, .inl ⟨v, rfl, explains⟩⟩

end Nested

-- ---------------------------------------------------------------------------
-- Calls
-- ---------------------------------------------------------------------------

section

variable {rules : ExpansionRules σ} {root : Draft}

/-- Within the interpolations that go on, resolving a leaf is one more. -/
theorem keeps_nested (depth : Nat) : ∀ stack : List Location, root.Stack depth stack →
    ∀ leaf ∈ root.deferredLeaves, (resolve rules root depth stack.head? leaf).Keeps
      (fun s => Nested rules root stack s.history) := by
  induction depth with
  | zero =>
    intro stack hStack leaf hLeaf s hs
    show Nested rules root stack ((request _ _ leaf).run s).2.history
    rcases run_request_cases (circular stack.head? leaf) stack.head? leaf s with
      ⟨v, -, hRun⟩ | ⟨other, -, hRun⟩ | ⟨hPending, -⟩
    · rw [hRun]
      exact hs
    · rw [hRun]
      exact hs
    · -- with all leaves under evaluation, none is pending
      exact absurd (hStack.mem_of_zero hLeaf) (hs.underWay.2.not_mem_of_pending hPending)
  | succ depth ih =>
    intro stack hStack leaf hLeaf s hs
    show Nested rules root stack ((resolve rules root (depth + 1) stack.head? leaf).run s).2.history
    rw [resolve_succ]
    rcases run_request_cases (evaluation rules root depth leaf) stack.head? leaf s with
      ⟨v, -, hRun⟩ | ⟨other, -, hRun⟩ | ⟨hPending, hEnd⟩
    · rw [hRun]
      exact hs
    · rw [hRun]
      exact hs
    · have hInner := ih (leaf.location :: stack)
        (hStack.push hLeaf (hs.underWay.2.not_mem_of_pending hPending))
      have hBegun : Nested rules root (leaf.location :: stack)
          (begun s stack.head? leaf).history := hs.begins hLeaf hPending
      rcases hEnd with ⟨e, s', hFailed, hRun⟩ | ⟨w, s', hDone, hRun⟩
      · have hAfter := (keeps_evaluation hInner).of_run hFailed hBegun
        rw [hRun]
        exact hAfter.fails hLeaf ⟨depth, stack.head?, s, e, s', hFailed, rfl⟩
      · have hAfter := (keeps_evaluation hInner).of_run hDone hBegun
        rw [hRun]
        exact hAfter.succeeds hLeaf ⟨depth, stack.head?, s, w, s', hDone, rfl, rfl⟩

theorem keeps_answerBy {I : Session σ → Prop} {resolveLeaf : LeafResolver σ}
    (h : ∀ leaf ∈ root.deferredLeaves, (resolveLeaf leaf).Keeps I) (query : Query) :
    (answerBy resolveLeaf root query).Keeps I :=
  inherited_answerBy (inherited_keeps I) (Keeps.of_unchanged fun _ => rfl)
    (fun _ => Keeps.fail _) h query

theorem after_append (x : Expansion σ) (queries more : List Query) (s : Session σ) :
    x.after (queries ++ more) s = x.after more (x.after queries s) := by
  induction queries generalizing s with
  | nil => rfl
  | cons query rest ih => exact ih _

theorem keeps_after {I : Session σ → Prop} {x : Expansion σ}
    (h : ∀ leaf ∈ x.root.deferredLeaves, (x.resolveLeaf leaf).Keeps I) (queries : List Query) :
    ∀ s, I s → I (x.after queries s) := by
  induction queries with
  | nil => exact fun _ hs => hs
  | cons query rest ih =>
    intro s hs
    refine ih _ ?_
    rw [answer_eq]
    exact keeps_answerBy h query s hs

/-- Between calls no interpolation goes on. -/
theorem nested_after (t : Value) (rules : ExpansionRules σ) (queries : List Query) (c : σ) :
    Nested rules (Draft.ofValue t) []
      ((ofValue t rules).after queries (Session.start c)).history :=
  keeps_after (I := fun s => Nested rules (Draft.ofValue t) [] s.history)
    (keeps_nested _ [] (Stack.nil (Draft.ofValue t))) queries (Session.start c) .nothing

theorem nested_answer (t : Value) (rules : ExpansionRules σ) (queries : List Query)
    (query : Query) (c : σ) :
    Nested rules (Draft.ofValue t) []
      (((ofValue t rules).answer query).run
        ((ofValue t rules).after queries (Session.start c))).2.history := by
  have hNested := nested_after t rules (queries ++ [query]) c
  rw [after_append] at hNested
  exact hNested

end

/-- **How the progress of leaves changes.** After any calls, whether they succeeded or
failed:

* no leaf is under evaluation;
* at every moment on the way, the leaves under evaluation are those whose
  interpolation goes on. Each is there once, at the request of the next one, so from
  the leaf being interpolated the requests lead through all of them to the call;
* a leaf that was resolved at some moment has the same value at every later one;
* a leaf that was under evaluation was resolved next, by the value that its
  interpolation gave, or was pending again, after its interpolation had failed. -/
theorem progress_along_calls (t : Value) (rules : ExpansionRules σ) (queries : List Query)
    (c : σ) :
    let final := ((ofValue t rules).after queries (Session.start c)).history
    (∀ location trigger, final.progress location ≠ .evaluating trigger) ∧
    (∀ h : History, h <:+ final → h.Linked h.ongoing ∧ h.ongoing.Nodup ∧
      ∀ location, (∃ trigger, h.progress location = .evaluating trigger) ↔
        location ∈ h.ongoing) ∧
    (∀ earlier later : History, earlier <:+ later → later <:+ final → ∀ location v,
      earlier.progress location = .resolved v → later.progress location = .resolved v) ∧
    (∀ location p (h : History) trigger, (location, p) :: h <:+ final →
      h.progress location = .evaluating trigger →
        ∃ leaf ∈ (Draft.ofValue t).deferredLeaves, leaf.location = location ∧
          ((∃ v, p = .resolved v ∧ Explains rules (Draft.ofValue t) h leaf v) ∨
            (p = .pending ∧ Fails rules (Draft.ofValue t) h leaf))) := by
  intro final
  have hNested : Nested rules (Draft.ofValue t) [] final := nested_after t rules queries c
  refine ⟨?_, ?_, ?_, ?_⟩
  · intro location trigger hEvaluating
    have hIn := (hNested.underWay.2.evaluating location).1 ⟨trigger, hEvaluating⟩
    exact absurd hIn List.not_mem_nil
  · intro h hSuffix
    obtain ⟨⟨stack, hMoment⟩, -⟩ := hNested.of_suffix hSuffix
    rw [hMoment.ongoing_eq]
    exact ⟨hMoment.linked, hMoment.underWay.1, hMoment.underWay.2.evaluating⟩
  · intro earlier later hEarlier hLater location v hResolved
    obtain ⟨⟨stack, hMoment⟩, -⟩ := hNested.of_suffix hLater
    have hPrecedes := (hMoment.of_suffix hEarlier).2
    exact value?_eq_some_iff.1 (hPrecedes.value location v (value?_eq_some_iff.2 hResolved))
  · intro location p h trigger hEvent hEvaluating
    obtain ⟨⟨stack, hMoment⟩, -⟩ := hNested.of_suffix hEvent
    exact hMoment.ends hEvaluating

end Expansion

end LayeredConfig
