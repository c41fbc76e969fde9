import LayeredConfig.Proofs.Explanation
import LayeredConfig.Proofs.ResolverCalls

/-!
# LayeredConfig — the last call for a leaf

A chain ends with the resolver that answers, so among the calls for a leaf whose text is
one reference the last one tells who gave its value. Resolvers are called for a leaf while
it is under evaluation and not any more once it has its value: what a value and the last
call for its leaf have to do with each other stays as it is from then on.

* `Expansion.lastCall?`          — the last call of a resolver for a leaf.
* `Expansion.run_first_of_path`  — where the path function is asked, it answers.
* `Expansion.value_of_path`      — the value of a leaf for which it was called last.
-/

namespace LayeredConfig

open Eval History

/-- The text is one reference, a call of the path function. -/
def Text.IsPathCall (raw : Text) : Prop :=
  ∃ arg : List Piece,
    Template.parse raw.text = .ok [.reference (.text "path".toList :: .colon :: arg)]

namespace Expansion

open Draft

-- ---------------------------------------------------------------------------
-- Calls for one leaf
-- ---------------------------------------------------------------------------

/-- Of calls, the last one first, the last one for the leaf at a location. -/
def lastCallIn? (location : Location) (calls : List PlacedCall) : Option PlacedCall :=
  calls.find? fun call => call.leaf == location

/-- The last call of a resolver that a call makes for the leaf at a location. -/
def lastCall? (x : Expansion σ) (query : Query) (s : Session σ) (location : Location) :
    Option PlacedCall :=
  lastCallIn? location (x.placedCalls query s)

theorem lastCallIn?_called_self (s : Session (Placed σ)) (leaf : Leaf) (place : Nat)
    (request : Request) : lastCallIn? leaf.location (called s leaf place request).client.2 =
      some ⟨leaf.location, request, s.history, place⟩ := by
  simp [lastCallIn?, called]

theorem lastCallIn?_called_of_ne {leaf : Leaf} {location : Location} (h : leaf.location ≠ location)
    (s : Session (Placed σ)) (place : Nat) (request : Request) :
    lastCallIn? location (called s leaf place request).client.2 =
      lastCallIn? location s.client.2 := by
  simp [lastCallIn?, called, h]

-- ---------------------------------------------------------------------------
-- The path function
-- ---------------------------------------------------------------------------

/-- Behind resolvers of the client, the path function answers a call of it, unless one of
these has. Whoever it was, that was the last call. -/
theorem run_first_of_path {leaf : Leaf} {request : Request} {arg : Value}
    (hCall : request.callOf? "path" = some arg) {back : List (Resolver (Session (Placed σ)))}
    (clients : List (Resolver σ)) :
    ∀ {place : Nat} {s s' : Session (Placed σ)} {found : Option Value},
      (Resolver.first (Resolver.recordingFrom (callsFor leaf) place
        ((clients.map (Resolver.beside (List PlacedCall))).map ofClient ++ Resolver.path :: back))
        request).run s = (.ok found, s') →
      ∃ call, lastCallIn? leaf.location s'.client.2 = some call ∧ call.request = request ∧
        (call.place = place + clients.length →
          found = some (Value.ofString (Resolver.pathOf arg request.subject))) := by
  induction clients with
  | nil =>
    intro place s s' found hRun
    rw [List.map_nil, List.map_nil, List.nil_append, Resolver.recordingFrom, Resolver.first,
      run_bind_eq_ok] at hRun
    obtain ⟨answer, s₁, hPath, hRest⟩ := hRun
    rw [run_recording_callsFor, Resolver.path, hCall] at hPath
    cases hPath
    cases hRest
    exact ⟨_, lastCallIn?_called_self s leaf place request, rfl, fun _ => rfl⟩
  | cons r rest ih =>
    intro place s s' found hRun
    rw [List.map_cons, List.map_cons, List.cons_append, Resolver.recordingFrom, Resolver.first,
      run_bind_eq_ok] at hRun
    obtain ⟨answer, s₁, hClient, hRest⟩ := hRun
    cases answer with
    | none =>
      obtain ⟨call, hLast, hRequest, hFound⟩ := ih hRest
      refine ⟨call, hLast, hRequest, fun hPlace => hFound ?_⟩
      rw [hPlace, List.length_cons, Nat.add_right_comm, Nat.add_assoc]
    -- a resolver of the client has another place
    | some a =>
      have hLog : s'.client.2 = (called s leaf place request).client.2 := by
        have hEnd : s₁ = s' := congrArg Prod.snd hRest
        exact hEnd ▸ congrArg (fun run => run.2.client.2) hClient.symm
      refine ⟨⟨leaf.location, request, s.history, place⟩, ?_, rfl, fun hPlace => ?_⟩
      · rw [hLog]
        exact lastCallIn?_called_self s leaf place request
      · simp only [List.length_cons] at hPlace
        omega

theorem callOf?_ofFragments (behind : List Fragment) (subject : Option Text) :
    (Request.ofFragments (.text "path".toList :: .colon :: behind) subject).callOf? "path" =
      some (Fragment.argument behind) := by
  rfl

/-- The name and the colon are what they are, whatever follows. -/
theorem fragments_of_evalPieces {ask : Resolver σ} {subject : Option Text} {arg : List Piece}
    {s s' : σ} {fragments : List Fragment}
    (hRun : (Template.evalPieces ask subject (.text "path".toList :: .colon :: arg)).run s =
      (.ok fragments, s')) :
    ∃ behind, fragments = .text "path".toList :: .colon :: behind := by
  obtain ⟨more, hColon, rfl⟩ := (run_map_eq_ok (f := (Fragment.text "path".toList :: ·))).1 hRun
  obtain ⟨behind, -, rfl⟩ := (run_map_eq_ok (f := (Fragment.colon :: ·))).1 hColon
  exact ⟨behind, rfl⟩

/-- A text that is a call of the path function asks for that call last, once its argument is
known, and its value is the answer. -/
theorem exists_request_of_interpolate {resolvers : List (Resolver σ)} {raw : Text}
    (hText : raw.IsPathCall) {s s' : σ} {w : Value}
    (hRun : (Template.interpolate resolvers (some raw) raw.text).run s = (.ok w, s')) :
    ∃ request arg s₁ found, request.callOf? "path" = some arg ∧ request.subject = some raw ∧
      (Resolver.first resolvers request).run s₁ = (.ok found, s') ∧
      w = found.getD (Value.ofString "") := by
  obtain ⟨body, hBody⟩ := hText
  rw [Template.interpolate_of_parse hBody, Template.eval_reference] at hRun
  obtain ⟨found, hLookup, rfl⟩ := run_map_eq_ok.1 hRun
  obtain ⟨fragments, s₁, hPieces, hAsk⟩ := run_bind_eq_ok.1 hLookup
  obtain ⟨behind, rfl⟩ := fragments_of_evalPieces hPieces
  exact ⟨_, _, s₁, found, callOf?_ofFragments behind (some raw), rfl, hAsk, rfl⟩

/-- If the last call for the leaf was one of the path function, the value is its answer. -/
def AnsweredByPath (rules : ExpansionRules σ) (leaf : Leaf) (s : Session (Placed σ)) : Prop :=
  ∀ v call, s.history.leafValue? leaf = some v →
    lastCallIn? leaf.location s.client.2 = some call → call.place = rules.resolvers.length →
      ∃ arg, call.request.callOf? "path" = some arg ∧
        v = .leaf (.text (leaf.raw.withText (Resolver.pathOf arg (some leaf.raw))))

section

variable {rules : ExpansionRules σ} {root : Draft} {leaf : Leaf} {s : Session (Placed σ)}

/-- Where the leaf has no value, there is nothing to be answered. -/
theorem AnsweredByPath.of_none (h : s.history.leafValue? leaf = none) :
    AnsweredByPath rules leaf s := by
  intro v call hValue
  rw [h] at hValue
  cases hValue

theorem AnsweredByPath.recorded_of_ne (h : AnsweredByPath rules leaf s) {location : Location}
    (hne : location ≠ leaf.location) (p : Progress) :
    AnsweredByPath rules leaf (s.recorded location p) :=
  fun v call hValue => h v call ((value?_cons_of_ne hne p s.history).symm.trans hValue)

/-- A leaf that is not resolved by an event has no value after it. -/
theorem AnsweredByPath.recorded (h : AnsweredByPath rules leaf s) (location : Location)
    {p : Progress} (hp : ∀ v, p ≠ .resolved v) :
    AnsweredByPath rules leaf (s.recorded location p) := by
  by_cases hSame : location = leaf.location
  · refine .of_none ?_
    cases hValue : (s.recorded location p).history.leafValue? leaf with
    | none => rfl
    | some v =>
      have hProgress := value?_eq_some_iff.1 hValue
      rw [Session.recorded, hSame, progress_cons_self] at hProgress
      exact absurd hProgress (hp v)
  · exact h.recorded_of_ne hSame p

/-- Where the path function has been called last, the interpolation has its answer. -/
theorem eq_of_interpolate_placed (hText : leaf.raw.IsPathCall)
    {scope : Resolver (Session (Placed σ))} {s' : Session (Placed σ)} {w : Value}
    (hRun : (Template.interpolate (placedChain rules scope leaf) (some leaf.raw)
      leaf.raw.text).run s = (.ok w, s')) {call : PlacedCall}
    (hLast : lastCallIn? leaf.location s'.client.2 = some call)
    (hPlace : call.place = rules.resolvers.length) :
    ∃ arg, call.request.callOf? "path" = some arg ∧
      w = Value.ofString (Resolver.pathOf arg (some leaf.raw)) := by
  obtain ⟨request, arg, s₁, found, hCall, hSubject, hAsk, rfl⟩ :=
    exists_request_of_interpolate hText hRun
  rw [placedChain, chain_eq_append] at hAsk
  obtain ⟨last, hIsLast, rfl, hFound⟩ := run_first_of_path hCall rules.resolvers hAsk
  cases hLast.symm.trans hIsLast
  refine ⟨arg, hCall, ?_⟩
  rw [hFound (hPlace.trans (Nat.zero_add _).symm), hSubject]
  rfl

theorem keptByCalls_answeredByPath (hRoot : root.Distinct) (hLeaf : leaf ∈ root.deferredLeaves)
    (hText : leaf.raw.IsPathCall) : KeptByCalls rules root (AnsweredByPath rules leaf) where
  client _ _ h := h
  called s other place request hEvaluating h := by
    by_cases hSame : other.location = leaf.location
    · obtain ⟨started, hStarted⟩ := hEvaluating
      rw [hSame] at hStarted
      exact .of_none (value?_of_evaluating hStarted)
    · rw [AnsweredByPath, lastCallIn?_called_of_ne hSame]
      exact h
  started s other trigger h _ := h.recorded other.location fun _ hp => by cases hp
  failed s other h := h.recorded other.location fun _ hp => by cases hp
  succeeded other hOther scope s w s' hRun h := by
    by_cases hSame : other.location = leaf.location
    · obtain rfl := hRoot other hOther leaf hLeaf hSame
      intro v call hValue hLast hPlace
      obtain ⟨arg, hCall, rfl⟩ := eq_of_interpolate_placed hText hRun hLast hPlace
      cases (value?_cons_self other.location _ s'.history).symm.trans hValue
      exact ⟨arg, hCall, rfl⟩
    · exact h.recorded_of_ne hSame _

end

/-- **A call of the path function that is the last one gives the value.** In the expanded tree
a text that is such a call is the path name that the function makes of its argument. -/
theorem value_of_path {t v : Value} (ht : t.WellFormed) {rules : ExpansionRules σ} {c : σ}
    {s : Session σ} (hRun : (ofValue t rules).all.run (Session.start c) = (.ok v, s))
    {location : Location} {raw : Text} (hLeaf : t.at? location = some (.leaf (.text raw)))
    (hText : raw.IsPathCall) {call : PlacedCall}
    (hLast : lastCall? (ofValue t rules) .all (Session.start c) location = some call)
    (hPlace : call.place = rules.resolvers.length) :
    ∃ arg, call.request.callOf? "path" = some arg ∧
      v.at? location = some (.leaf (.text (raw.withText (Resolver.pathOf arg (some raw))))) := by
  have hKept := keeps_placedAnswer (x := ofValue t rules) (keptByCalls_answeredByPath
    (distinct_ofValue ht) (mem_deferredLeaves_ofValue hLeaf) hText) .all
    ⟨(Session.start c).history, ((Session.start c).client, [])⟩ (.of_none rfl)
  have hAnswer : ((ofValue t rules).answer .all).run (Session.start c) = (.ok (some v), s) :=
    run_map_eq_ok.2 ⟨v, hRun, rfl⟩
  rw [run_placedAnswer, hAnswer] at hKept
  obtain ⟨w, hValue, hAt⟩ := value_at_of_settle_eq (explained_of_all ht hRun).1 (at?_ofValue hLeaf)
  obtain ⟨arg, hCall, rfl⟩ := hKept w call hValue hLast hPlace
  exact ⟨arg, hCall, hAt⟩

end Expansion

end LayeredConfig
