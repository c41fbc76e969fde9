import LayeredConfig.Proofs.Resolution

/-!
# LayeredConfig — recording calls of resolvers

Whom an expansion asks, and when, can be read off a run if each call of a resolver leaves
something behind. What that is differs: the request, the leaf it was made for, the answer. How
it comes about does not. A *recorder* says what a call leaves in the state, and turns a chain of
resolvers into one whose calls are recorded, place by place. The records stand beside the client's
state, where its resolvers do not see them. So two runs that were coupled stay so if their calls
are recorded, and a run without records is coupled to the one with them.

* `Recorder`                        — what a call leaves in the state.
* `Resolver.recordingFrom`          — a chain whose calls are recorded.
* `Coupling.Records`                — recorders that a coupling does not notice.
* `Resolver.chains_recordingFrom`   — coupled chains stay so where their calls are recorded.
* `Resolver.beside`, `Coupling.beside` — a client with more than its state, and the one without.
* `Expansion.matching_beside`, `Expansion.run_of_beside` — nothing else differs.
-/

namespace LayeredConfig

open Eval

-- ---------------------------------------------------------------------------
-- Recorders
-- ---------------------------------------------------------------------------

/-- What the call of a resolver at a place of its chain leaves in the state: something when it is
made, and something once the resolver has answered or failed. -/
structure Recorder (σ : Type) where
  made : Nat → Request → σ → σ := fun _ _ s => s
  finished : Nat → Request → Except ConfigError (Option Value) → σ → σ := fun _ _ _ s => s

/-- Leaves nothing. -/
def Recorder.idle : Recorder σ := {}

namespace Resolver

/-- The resolver, where each call of it is recorded as one at the place. -/
def recording (R : Recorder σ) (place : Nat) (r : Resolver σ) : Resolver σ := fun request s =>
  let (result, s') := (r request).run (R.made place request s)
  (result, R.finished place request result s')

theorem run_recording (R : Recorder σ) (place : Nat) (r : Resolver σ) (request : Request) (s : σ) :
    (r.recording R place request).run s =
      let (result, s') := (r request).run (R.made place request s)
      (result, R.finished place request result s') := rfl

/-- The resolvers of a chain, where each call is recorded. The first one has the place `place`. -/
def recordingFrom (R : Recorder σ) : Nat → List (Resolver σ) → List (Resolver σ)
  | _, [] => []
  | place, r :: rest => recording R place r :: recordingFrom R (place + 1) rest

theorem recordingFrom_append (R : Recorder σ) (chain more : List (Resolver σ)) :
    ∀ place : Nat, recordingFrom R place (chain ++ more) =
      recordingFrom R place chain ++ recordingFrom R (place + chain.length) more := by
  induction chain with
  | nil => exact fun _ => rfl
  | cons r rest ih =>
    intro place
    rw [List.cons_append, recordingFrom, ih, recordingFrom, List.length_cons, List.cons_append,
      Nat.add_right_comm, Nat.add_assoc]

theorem recordingFrom_idle (chain : List (Resolver σ)) :
    ∀ place : Nat, recordingFrom .idle place chain = chain := by
  induction chain with
  | nil => exact fun _ => rfl
  | cons r rest ih => exact fun place => congrArg (r :: ·) (ih (place + 1))

theorem exists_of_mem_recordingFrom {R : Recorder σ} {r : Resolver σ} {chain : List (Resolver σ)} :
    ∀ {place : Nat}, r ∈ recordingFrom R place chain →
      ∃ other, ∃ plain ∈ chain, r = plain.recording R other := by
  induction chain with
  | nil => exact fun h => absurd h List.not_mem_nil
  | cons first rest ih =>
    intro place h
    rcases List.mem_cons.1 h with rfl | h
    · exact ⟨place, first, List.mem_cons_self, rfl⟩
    · obtain ⟨other, plain, hPlain, rfl⟩ := ih h
      exact ⟨other, plain, List.mem_cons_of_mem _ hPlain, rfl⟩

end Resolver

-- ---------------------------------------------------------------------------
-- Recorders in couplings
-- ---------------------------------------------------------------------------

/-- Related states stay related, and what is void stays void, where the two are changed so. -/
structure Coupling.KeptBy (C : Coupling σ τ) (f : σ → σ) (g : τ → τ) : Prop where
  leftVoid : ∀ s, C.leftVoid s → C.leftVoid (f s)
  rightVoid : ∀ t, C.rightVoid t → C.rightVoid (g t)
  related : ∀ s t, C.related s t → C.related (f s) (g t)

theorem Coupling.keptBy_throughout {R : σ → τ → Prop} {f : σ → σ} {g : τ → τ}
    (h : ∀ s t, R s t → R (f s) (g t)) : (Coupling.throughout R).KeptBy f g :=
  ⟨fun _ hVoid => hVoid, fun _ hVoid => hVoid, h⟩

theorem Coupling.keptBy_id (C : Coupling σ τ) : C.KeptBy (fun s => s) (fun t => t) :=
  ⟨fun _ h => h, fun _ h => h, fun _ _ h => h⟩

/-- The coupling does not notice what the recorders leave of calls at the place. -/
structure Coupling.Records (C : Coupling σ τ) (R : Recorder σ) (R' : Recorder τ) (place : Nat) :
    Prop where
  made : ∀ request, C.KeptBy (R.made place request) (R'.made place request)
  finished : ∀ request result,
    C.KeptBy (R.finished place request result) (R'.finished place request result)

namespace Resolver

variable {C : Coupling σ τ} {R : Recorder σ} {R' : Recorder τ}

theorem coupled_recording {place : Nat} (hC : C.Records R R' place) {r : Resolver σ}
    {r' : Resolver τ} {request : Request} (h : Coupled C (r request) (r' request)) :
    Coupled C (r.recording R place request) (r'.recording R' place request) where
  keepsLeft s hs :=
    (hC.finished request _).leftVoid _ (h.keepsLeft _ ((hC.made request).leftVoid s hs))
  keepsRight t ht :=
    (hC.finished request _).rightVoid _ (h.keepsRight _ ((hC.made request).rightVoid t ht))
  step s t hst := by
    have hStep := h.step _ _ ((hC.made request).related s t hst)
    rw [run_recording, run_recording]
    rcases hr : (r request).run (R.made place request s) with ⟨result, s'⟩
    rcases hr' : (r' request).run (R'.made place request t) with ⟨result', t'⟩
    rw [hr, hr'] at hStep
    rcases hStep with hVoid | hVoid | hFailed | ⟨hSame, hRelated⟩
    · exact .inl ((hC.finished request result).leftVoid s' hVoid)
    · exact .inr (.inl ((hC.finished request result').rightVoid t' hVoid))
    · exact .inr (.inr (.inl hFailed))
    · obtain rfl : result = result' := hSame
      exact .inr (.inr (.inr ⟨rfl, (hC.finished request result).related s' t' hRelated⟩))

/-- Coupled chains stay so where their calls are recorded. -/
theorem chains_recordingFrom {chain : List (Resolver σ)} {other : List (Resolver τ)}
    (h : C.Chains chain other) : ∀ place : Nat,
      (∀ k < place + chain.length, C.Records R R' k) →
        C.Chains (recordingFrom R place chain) (recordingFrom R' place other) := by
  induction h with
  | nil => exact fun _ _ => .nil
  | @cons r r' rest rest' hHead _ ih =>
    intro place hC
    rw [List.length_cons] at hC
    refine .cons (fun request => ?_) (ih (place + 1) fun k hk => hC k (by omega))
    exact coupled_recording (hC place (by omega)) (hHead request)

/-- The same where only the calls on one side are recorded. -/
theorem chains_recordingFrom_right (hC : ∀ place, C.Records .idle R' place)
    {chain : List (Resolver σ)} {other : List (Resolver τ)} (h : C.Chains chain other)
    (place : Nat) : C.Chains chain (recordingFrom R' place other) := by
  have hChains := chains_recordingFrom h place fun k _ => hC k
  rwa [recordingFrom_idle] at hChains

end Resolver

-- ---------------------------------------------------------------------------
-- More than the client's state
-- ---------------------------------------------------------------------------

/-- The resolver where something else is kept beside its state. -/
def Resolver.beside (κ : Type) (r : Resolver σ) : Resolver (σ × κ) := fun request =>
  Eval.onPart Prod.fst (fun c s => (c, s.2)) (r request)

/-- Couples sessions that differ in what is kept beside the client's state. -/
def Coupling.beside (σ κ : Type) : Coupling (Session σ) (Session (σ × κ)) :=
  Coupling.throughout fun s t => s.history = t.history ∧ s.client = t.client.1

namespace Expansion

theorem matching_beside (κ : Type) (rules : ExpansionRules σ) :
    Matching (Coupling.beside σ κ) rules (rules.mapResolvers (Resolver.beside κ)) := by
  refine matching_map fun r _ request => coupled_throughout_iff.2 ?_
  rintro s t ⟨hHistory, hClient⟩
  have hRight : (ofClient (r.beside κ) request).run t =
      (((r request).run s.client).1,
        { t with client := (((r request).run s.client).2, t.client.2) }) := by
    rw [hClient]
    rfl
  rw [hRight]
  exact ⟨rfl, hHistory, rfl⟩

section

variable {x : Eval (Session σ) α} {y : Eval (Session (σ × κ)) α}

/-- Nothing else differs. -/
theorem run_of_beside (h : Coupled (Coupling.beside σ κ) x y) (s : Session σ) (k : κ) :
    y.run ⟨s.history, (s.client, k)⟩ =
      ((x.run s).1, ⟨(x.run s).2.history,
        ((x.run s).2.client, (y.run ⟨s.history, (s.client, k)⟩).2.client.2)⟩) := by
  obtain ⟨hSame, hHistory, hClient⟩ :=
    coupled_throughout_iff.1 h s ⟨s.history, (s.client, k)⟩ ⟨rfl, rfl⟩
  rw [hSame, hHistory, hClient]

theorem keeps_of_beside (h : Coupled (Coupling.beside σ κ) x y) {I : History → Prop}
    (hKeeps : x.Keeps fun s => I s.history) : y.Keeps fun t => I t.history := by
  intro t ht
  rw [run_of_beside h ⟨t.history, t.client.1⟩ t.client.2]
  exact hKeeps ⟨t.history, t.client.1⟩ ht

end

end Expansion

end LayeredConfig
