import LayeredConfig.Eval
import Mathlib.Data.List.Forall2

/-!
# LayeredConfig — reasoning about evaluations

Two notions carry the proofs about expansion.

An evaluation **keeps** a property of states if it leads from states that have
it to such states, also where it fails. Invariants are stated this way.

An evaluation is **coupled** to another one, on states of another type, if the
two, run side by side, stay related and give the same result. A coupling says
what "related" means, and when nothing is claimed any more: once one of the
states is void, or, in a forgiving coupling, once the first evaluation has
failed.

* `Eval.Keeps`   — an invariant of an evaluation.
* `Coupling`     — what two evaluations side by side are held to.
* `Eval.Coupled` — two evaluations that hold to it.
* `Coupling.throughout` — a coupling that is a relation, and no more.
-/

namespace LayeredConfig

namespace Eval

-- ---------------------------------------------------------------------------
-- Runs
-- ---------------------------------------------------------------------------

theorem run_bind_eq_ok {x : Eval σ α} {f : α → Eval σ β} {s s' : σ} {b : β} :
    (x >>= f).run s = (.ok b, s') ↔
      ∃ a s₁, x.run s = (.ok a, s₁) ∧ (f a).run s₁ = (.ok b, s') := by
  rw [run_bind]
  constructor
  · intro h
    split at h
    · rename_i a s₁ hx
      exact ⟨a, s₁, hx, h⟩
    · cases h
  · rintro ⟨a, s₁, hx, hf⟩
    rw [hx]
    exact hf

theorem run_eq_of_fst {x : Eval σ α} {s : σ} {r : Except ConfigError α}
    (h : (x.run s).1 = r) : x.run s = (r, (x.run s).2) := Prod.ext h rfl

theorem run_attempt (x : Eval σ α) (s : σ) :
    x.attempt.run s = (.ok (x.run s).1, (x.run s).2) := rfl

theorem run_map (f : α → β) (x : Eval σ α) (s : σ) :
    (f <$> x).run s = ((x.run s).1.map f, (x.run s).2) := by
  rw [map_eq_pure_bind, run_bind]
  split <;> rename_i h <;> rw [h] <;> rfl

theorem run_map_eq_ok {f : α → β} {x : Eval σ α} {s s' : σ} {b : β} :
    (f <$> x).run s = (.ok b, s') ↔ ∃ a, x.run s = (.ok a, s') ∧ f a = b := by
  rw [map_eq_pure_bind, run_bind_eq_ok]
  constructor
  · rintro ⟨a, s₁, hx, hf⟩
    cases hf
    exact ⟨a, hx, rfl⟩
  · rintro ⟨a, hx, rfl⟩
    exact ⟨a, s', hx, rfl⟩

-- ---------------------------------------------------------------------------
-- Invariants
-- ---------------------------------------------------------------------------

/-- Leads from states with `I` to states with `I`, whatever the result. -/
def Keeps (I : σ → Prop) (x : Eval σ α) : Prop := ∀ s, I s → I (x.run s).2

section

variable {I : σ → Prop}

theorem Keeps.of_run {x : Eval σ α} (h : Keeps I x) {s s' : σ} {r : Except ConfigError α}
    (hRun : x.run s = (r, s')) (hs : I s) : I s' := by
  have := h s hs
  rwa [hRun] at this

theorem Keeps.of_unchanged {x : Eval σ α} (h : ∀ s, (x.run s).2 = s) : Keeps I x := by
  intro s hs
  rw [h s]
  exact hs

theorem Keeps.pure (a : α) : Keeps I (pure a : Eval σ α) := Keeps.of_unchanged fun _ => rfl

theorem Keeps.fail (e : ConfigError) : Keeps I (fail e : Eval σ α) :=
  Keeps.of_unchanged fun _ => rfl

theorem Keeps.ofExcept (r : Except ConfigError α) : Keeps I (ofExcept r : Eval σ α) :=
  Keeps.of_unchanged fun _ => rfl

/-- It is enough that the continuation keeps `I` after the results that `x` can
give. -/
theorem Keeps.bind_of_run {x : Eval σ α} {f : α → Eval σ β} (hx : Keeps I x)
    (hf : ∀ s a s', x.run s = (.ok a, s') → Keeps I (f a)) : Keeps I (x >>= f) := by
  intro s hs
  have hMid := hx s hs
  rw [run_bind]
  split
  · rename_i a s₁ h
    rw [h] at hMid
    exact hf s a s₁ h s₁ hMid
  · rename_i e s₁ h
    rw [h] at hMid
    exact hMid

theorem Keeps.bind {x : Eval σ α} {f : α → Eval σ β} (hx : Keeps I x)
    (hf : ∀ a, Keeps I (f a)) : Keeps I (x >>= f) :=
  hx.bind_of_run fun _ a _ _ => hf a

theorem Keeps.map {x : Eval σ α} (hx : Keeps I x) (f : α → β) : Keeps I (f <$> x) := by
  rw [map_eq_pure_bind]
  exact hx.bind fun a => Keeps.pure (f a)

theorem Keeps.mapM {f : α → Eval σ β} {items : List α} (h : ∀ a ∈ items, Keeps I (f a)) :
    Keeps I (items.mapM f) := by
  induction items with
  | nil => exact Keeps.pure []
  | cons a rest ih =>
    rw [List.mapM_cons]
    refine (h a List.mem_cons_self).bind fun b => ?_
    exact (ih fun a' ha' => h a' (List.mem_cons_of_mem _ ha')).bind fun bs => Keeps.pure (b :: bs)

end

end Eval

-- ---------------------------------------------------------------------------
-- Traversals of lists
-- ---------------------------------------------------------------------------

namespace Eval

/-- What each step establishes and the other steps keep holds of all of them in
the end. -/
theorem forall₂_of_mapM {P : α → β → σ → Prop} {f : α → Eval σ β} {items : List α}
    (hStep : ∀ a ∈ items, ∀ s b s', (f a).run s = (.ok b, s') → P a b s')
    (hKeeps : ∀ a b, ∀ a' ∈ items, (f a').Keeps (P a b))
    {s s' : σ} {bs : List β} (h : (items.mapM f).run s = (.ok bs, s')) :
    List.Forall₂ (fun a b => P a b s') items bs := by
  induction items generalizing s bs with
  | nil =>
    cases h
    exact .nil
  | cons a rest ih =>
    rw [List.mapM_cons, run_bind_eq_ok] at h
    obtain ⟨b, s₁, hFirst, h⟩ := h
    rw [run_bind_eq_ok] at h
    obtain ⟨more, s₂, hRest, h⟩ := h
    cases h
    have hTail : ∀ a' ∈ rest, a' ∈ a :: rest := fun _ => List.mem_cons_of_mem a
    refine .cons ?_ (ih (fun a' ha' => hStep a' (hTail a' ha'))
      (fun a b a' ha' => hKeeps a b a' (hTail a' ha')) hRest)
    exact (Keeps.mapM fun a' ha' => hKeeps a b a' (hTail a' ha')).of_run hRest
      (hStep a List.mem_cons_self s b s₁ hFirst)

/-- A traversal that changes nothing can be run step by step. -/
theorem run_mapM_of_forall₂ {f : α → Eval σ β} {s : σ} {items : List α} {bs : List β}
    (h : List.Forall₂ (fun a b => (f a).run s = (.ok b, s)) items bs) :
    (items.mapM f).run s = (.ok bs, s) := by
  induction h with
  | nil => rfl
  | cons hHead _ ih =>
    rw [List.mapM_cons, run_bind_of_ok hHead, run_bind_of_ok ih]
    rfl

theorem map_eq_map_of_forall₂ {f : α → γ} {g : β → γ} {as : List α} {bs : List β}
    (h : List.Forall₂ (fun a b => f a = g b) as bs) : as.map f = bs.map g := by
  induction h with
  | nil => rfl
  | cons hHead _ ih => rw [List.map_cons, List.map_cons, hHead, ih]

theorem exists_of_forall₂_right {P : α → β → Prop} {as : List α} {bs : List β}
    (h : List.Forall₂ P as bs) {b : β} (hb : b ∈ bs) : ∃ a ∈ as, P a b := by
  induction h with
  | nil => cases hb
  | @cons a _ _ _ hHead _ ih =>
    rcases List.mem_cons.1 hb with rfl | hb
    · exact ⟨a, List.mem_cons_self, hHead⟩
    · obtain ⟨a', ha', hP⟩ := ih hb
      exact ⟨a', List.mem_cons_of_mem _ ha', hP⟩

end Eval

-- ---------------------------------------------------------------------------
-- Couplings
-- ---------------------------------------------------------------------------

/-- What two evaluations run side by side are held to. -/
structure Coupling (σ τ : Type) where
  /-- The two states belong together. -/
  related : σ → τ → Prop
  /-- Nothing is claimed once the first evaluation is in such a state. -/
  leftVoid : σ → Prop
  /-- Nothing is claimed once the second evaluation is in such a state. -/
  rightVoid : τ → Prop
  /-- Nothing is claimed once the first evaluation has failed. -/
  forgiving : Prop

namespace Eval

/-- Run side by side, `x` and `y` give the same result and stay related, as far
as the coupling claims anything. What is void stays void. -/
structure Coupled (C : Coupling σ τ) (x : Eval σ α) (y : Eval τ α) : Prop where
  keepsLeft : Keeps C.leftVoid x
  keepsRight : Keeps C.rightVoid y
  step : ∀ s t, C.related s t →
    C.leftVoid (x.run s).2 ∨ C.rightVoid (y.run t).2 ∨
      (C.forgiving ∧ ∃ e, (x.run s).1 = .error e) ∨
      ((x.run s).1 = (y.run t).1 ∧ C.related (x.run s).2 (y.run t).2)

section

variable {C : Coupling σ τ}

theorem Coupled.pure (a : α) : Coupled C (pure a) (pure a) :=
  ⟨Keeps.pure a, Keeps.pure a, fun _ _ h => .inr (.inr (.inr ⟨rfl, h⟩))⟩

theorem Coupled.fail (e : ConfigError) :
    Coupled C (fail e : Eval σ α) (fail e : Eval τ α) :=
  ⟨Keeps.fail e, Keeps.fail e, fun _ _ h => .inr (.inr (.inr ⟨rfl, h⟩))⟩

theorem Coupled.ofExcept (r : Except ConfigError α) :
    Coupled C (ofExcept r : Eval σ α) (ofExcept r : Eval τ α) :=
  ⟨Keeps.ofExcept r, Keeps.ofExcept r, fun _ _ h => .inr (.inr (.inr ⟨rfl, h⟩))⟩

/-- It is enough that the continuations are coupled after the results that one of
the two can give. -/
theorem Coupled.bind_of_run {x : Eval σ α} {y : Eval τ α} {f : α → Eval σ β} {g : α → Eval τ β}
    (h : Coupled C x y)
    (hf : ∀ a, ((∃ s s', x.run s = (.ok a, s')) ∨ ∃ t t', y.run t = (.ok a, t')) →
      Coupled C (f a) (g a)) : Coupled C (x >>= f) (y >>= g) where
  keepsLeft := h.keepsLeft.bind_of_run fun s a s' hx => (hf a (.inl ⟨s, s', hx⟩)).keepsLeft
  keepsRight := h.keepsRight.bind_of_run fun t a t' hy => (hf a (.inr ⟨t, t', hy⟩)).keepsRight
  step s t hst := by
    have hStep := h.step s t hst
    -- a void state after the first halves is void after the second ones, too
    rw [run_bind, run_bind]
    rcases hx : x.run s with ⟨rx, s₁⟩
    rcases hy : y.run t with ⟨ry, t₁⟩
    rw [hx, hy] at hStep
    rcases hStep with hVoid | hVoid | ⟨hForgiving, e, he⟩ | ⟨hSame, hRel⟩
    · left
      cases rx with
      | ok a => exact (hf a (.inl ⟨s, s₁, hx⟩)).keepsLeft s₁ hVoid
      | error e => exact hVoid
    · right; left
      cases ry with
      | ok a => exact (hf a (.inr ⟨t, t₁, hy⟩)).keepsRight t₁ hVoid
      | error e => exact hVoid
    · simp only at he
      subst he
      exact .inr (.inr (.inl ⟨hForgiving, e, rfl⟩))
    · simp only at hSame hRel
      subst hSame
      cases rx with
      | ok a => exact (hf a (.inl ⟨s, s₁, hx⟩)).step s₁ t₁ hRel
      | error e => exact .inr (.inr (.inr ⟨rfl, hRel⟩))

theorem Coupled.bind {x : Eval σ α} {y : Eval τ α} {f : α → Eval σ β} {g : α → Eval τ β}
    (h : Coupled C x y) (hf : ∀ a, Coupled C (f a) (g a)) : Coupled C (x >>= f) (y >>= g) :=
  h.bind_of_run fun a _ => hf a

theorem Coupled.map {x : Eval σ α} {y : Eval τ α} (h : Coupled C x y) (f : α → β) :
    Coupled C (f <$> x) (f <$> y) := by
  rw [map_eq_pure_bind, map_eq_pure_bind]
  exact h.bind fun a => Coupled.pure (f a)

/-- Where nothing is void in the end, the results are the same. -/
theorem Coupled.agree {x : Eval σ α} {y : Eval τ α} (h : Coupled C x y) {s : σ} {t : τ}
    (hst : C.related s t) (hLeft : ¬ C.leftVoid (x.run s).2) (hRight : ¬ C.rightVoid (y.run t).2)
    (hOk : C.forgiving → ∃ a, (x.run s).1 = .ok a) :
    (x.run s).1 = (y.run t).1 ∧ C.related (x.run s).2 (y.run t).2 := by
  rcases h.step s t hst with hVoid | hVoid | ⟨hForgiving, e, hError⟩ | hSame
  · exact absurd hVoid hLeft
  · exact absurd hVoid hRight
  · obtain ⟨a, ha⟩ := hOk hForgiving
    rw [ha] at hError
    cases hError
  · exact hSame

theorem Coupled.mapM {f : α → Eval σ β} {g : α → Eval τ β} {items : List α}
    (h : ∀ a ∈ items, Coupled C (f a) (g a)) : Coupled C (items.mapM f) (items.mapM g) := by
  induction items with
  | nil => exact Coupled.pure []
  | cons a rest ih =>
    rw [List.mapM_cons, List.mapM_cons]
    refine (h a List.mem_cons_self).bind fun b => ?_
    exact (ih fun a' ha' => h a' (List.mem_cons_of_mem _ ha')).bind
      fun bs => Coupled.pure (b :: bs)

end

end Eval

-- ---------------------------------------------------------------------------
-- Couplings by a relation
-- ---------------------------------------------------------------------------

/-- Couples by a relation that holds throughout: nothing is void, and no failure is forgiven. -/
def Coupling.throughout (related : σ → τ → Prop) : Coupling σ τ :=
  { related := related
    leftVoid := fun _ => False
    rightVoid := fun _ => False
    forgiving := False }

/-- That is, from related states there is the same result, and the states are related again. -/
theorem Eval.coupled_throughout_iff {R : σ → τ → Prop} {x : Eval σ α} {y : Eval τ α} :
    Eval.Coupled (Coupling.throughout R) x y ↔
      ∀ s t, R s t → (x.run s).1 = (y.run t).1 ∧ R (x.run s).2 (y.run t).2 :=
  ⟨fun h _ _ hst => h.agree hst id id False.elim,
    fun h => ⟨fun _ hVoid => hVoid, fun _ hVoid => hVoid,
      fun s t hst => .inr (.inr (.inr (h s t hst)))⟩⟩

/-- Couples an evaluation with itself, by an invariant. -/
def Coupling.diagonal (I : σ → Prop) : Coupling σ σ :=
  Coupling.throughout fun s t => s = t ∧ I s

/-- So whatever is proved of couplings also holds of invariants. -/
theorem Eval.keeps_iff_coupled {I : σ → Prop} {x : Eval σ α} :
    x.Keeps I ↔ Eval.Coupled (Coupling.diagonal I) x x := by
  refine Iff.trans ⟨?_, fun h s hs => ?_⟩ Eval.coupled_throughout_iff.symm
  · rintro h s t ⟨rfl, hs⟩
    exact ⟨rfl, rfl, h s hs⟩
  · exact (h s s ⟨rfl, hs⟩).2.2

end LayeredConfig
