import LayeredConfig.Proofs.ResolverCalls

/-!
# LayeredConfig — expansions with the same calls of resolvers

Two expansions with different rules, or of different trees, may still go the same way up
to a certain point: they are in the same session, where the same calls of resolvers are
kept, until one of them does something that the other one does not. What that is may be
seen in the session, in the calls made so far or in the history.

* `Expansion.answer_eq_of_placed` — the same call, and the same calls of resolvers.
* `Expansion.Steady`              — what neither events nor calls of resolvers end.
* `Expansion.together`            — couples expansions in the same session.
* `Expansion.run_eq_of_together`  — where nothing is void in the end, they are one run.
-/

namespace LayeredConfig

open Eval History

namespace Expansion

open Draft

/-- If two expansions agree on a call where calls of resolvers are kept, they agree on the
call, and have made the same calls of resolvers. -/
theorem answer_eq_of_placed {x y : Expansion σ} {query : Query} {s : Session σ}
    (h : (x.placedAnswer query).run ⟨s.history, (s.client, [])⟩ =
      (y.placedAnswer query).run ⟨s.history, (s.client, [])⟩) :
    (x.answer query).run s = (y.answer query).run s ∧
      x.placedCalls query s = y.placedCalls query s := by
  refine ⟨?_, congrArg (fun run => run.2.client.2) h⟩
  rw [run_placedAnswer, run_placedAnswer] at h
  rcases hx : (x.answer query).run s with ⟨r, history, client⟩
  rcases hy : (y.answer query).run s with ⟨r', history', client'⟩
  rw [hx, hy] at h
  simp only [Prod.mk.injEq, Session.mk.injEq] at h
  obtain ⟨rfl, rfl, rfl, -⟩ := h
  rfl

/-- A property of sessions that neither events nor the client's resolvers end, nor calls
at places before `n`. -/
structure Steady (n : Nat) (I : Session (Placed σ) → Prop) : Prop where
  recorded : ∀ s location p, I s → I (s.recorded location p)
  client : ∀ s c, I s → I { s with client := (c, s.client.2) }
  called : ∀ s leaf place request, place < n → I s → I (called s leaf place request)

/-- Couples expansions that are in the same session, one with `I`. Nothing is claimed any
more of sessions with `V`. -/
def together (I V : Session (Placed σ) → Prop) (forgiving : Prop) :
    Coupling (Session (Placed σ)) (Session (Placed σ)) :=
  { related := fun s t => s = t ∧ I s
    leftVoid := V
    rightVoid := fun _ => False
    forgiving := forgiving }

section

variable {n : Nat} {I V : Session (Placed σ) → Prop} {forgiving : Prop}

theorem sameHistory_together (hI : Steady n I) (hV : Steady n V) :
    (together I V forgiving).SameHistory where
  history s t h := congrArg Session.history h.1
  record := by
    rintro s t location p ⟨rfl, hs⟩
    exact ⟨rfl, hI.recorded s location p hs⟩
  leftVoid := hV.recorded
  rightVoid _ _ _ h := h

theorem matching_together (hI : Steady n I) (hV : Steady n V) (rules : ExpansionRules σ) :
    Matching (together I V forgiving) (rules.mapResolvers (Resolver.beside (List PlacedCall)))
      (rules.mapResolvers (Resolver.beside (List PlacedCall))) := by
  refine matching_self fun r' hr' request => ?_
  obtain ⟨r, -, rfl⟩ := ExpansionRules.exists_of_mem_mapResolvers hr'
  refine ⟨fun s hs => hV.client s _ hs, fun _ h => h, ?_⟩
  rintro s t ⟨rfl, hs⟩
  exact .inr (.inr (.inr ⟨rfl, rfl, hI.client s _ hs⟩))

/-- Calls at places before `n` are kept on both sides. -/
theorem records_together (hI : Steady n I) (hV : Steady n V) (leaf : Leaf) {place : Nat}
    (hPlace : place < n) :
    (together I V forgiving).Records (callsFor leaf) (callsFor leaf) place where
  made request := by
    refine ⟨fun s hs => hV.called s leaf place request hPlace hs, fun _ h => h, ?_⟩
    rintro s t ⟨rfl, hs⟩
    exact ⟨rfl, hI.called s leaf place request hPlace hs⟩
  finished _ _ := Coupling.keptBy_id _

/-- Coupled chains stay so where their calls are kept, all of them at places before `n`. -/
theorem chains_together (hI : Steady n I) (hV : Steady n V)
    {chain other : List (Resolver (Session (Placed σ)))}
    (h : (together I V forgiving).Chains chain other) (leaf : Leaf) (place : Nat)
    (hPlaces : place + chain.length ≤ n) : (together I V forgiving).Chains
      (Resolver.recordingFrom (callsFor leaf) place chain)
      (Resolver.recordingFrom (callsFor leaf) place other) :=
  Resolver.chains_recordingFrom h place fun _ hPlace =>
    records_together hI hV leaf (Nat.lt_of_lt_of_le hPlace hPlaces)

/-- Where nothing is void in the end, the two are the same run. -/
theorem run_eq_of_together {x y : Eval (Session (Placed σ)) α}
    (h : Coupled (together I V forgiving) x y) {s : Session (Placed σ)} (hs : I s)
    (hVoid : ¬ V (x.run s).2) (hOk : forgiving → ∃ a, (x.run s).1 = .ok a) :
    x.run s = y.run s ∧ I (x.run s).2 := by
  have hRelated : (together I V forgiving).related s s := ⟨rfl, hs⟩
  obtain ⟨hResult, hSession, hEnd⟩ := h.agree hRelated hVoid id hOk
  exact ⟨Prod.ext hResult hSession, hEnd⟩

/-- What is steady everywhere is kept up by the chains of any rules. -/
theorem coupled_first_placedChain (hI : ∀ n, Steady n I) (hV : ∀ n, Steady n V)
    (rules : ExpansionRules σ) {scope otherScope : Resolver (Session (Placed σ))}
    (hScope : ∀ request,
      Coupled (together I V forgiving) (scope request) (otherScope request))
    (leaf : Leaf) (request : Request) :
    Coupled (together I V forgiving) (Resolver.first (placedChain rules scope leaf) request)
      (Resolver.first (placedChain rules otherScope leaf) request) := by
  have hChain := coupled_chain (matching_together (hI 0) (hV 0) rules) hScope leaf
  exact Resolver.coupled_first
    (chains_together (hI _) (hV _) hChain leaf 0 (Nat.le_refl _)) request

theorem steady_false (n : Nat) : Steady n fun _ : Session (Placed σ) => False :=
  ⟨fun _ _ _ h => h, fun _ _ h => h, fun _ _ _ _ _ h => h⟩

theorem steady_true (n : Nat) : Steady n fun _ : Session (Placed σ) => True :=
  ⟨fun _ _ _ h => h, fun _ _ h => h, fun _ _ _ _ _ h => h⟩

theorem keeps_resolveBy (hI : ∀ n, Steady n I) (rules : ExpansionRules σ) (root : Draft)
    (depth : Nat) (trigger : Option Location) (leaf : Leaf) :
    (resolveBy (placedChain rules) root depth trigger leaf).Keeps I := by
  have hC : (together I (fun _ => False) False).SameHistory :=
    sameHistory_together (hI 0) (steady_false 0)
  have hCoupled : Coupled (together I (fun _ => False) False)
      (resolveBy (placedChain rules) root depth trigger leaf)
      (resolveBy (placedChain rules) root depth trigger leaf) :=
    coupled_resolveBy hC (coupled_first_placedChain hI steady_false rules) depth trigger leaf
  exact fun s hs => (run_eq_of_together hCoupled hs id False.elim).2

end

end Expansion

end LayeredConfig
