import LayeredConfig.Proofs.Lookup
import LayeredConfig.Proofs.Template

/-!
# LayeredConfig — results that look the same

Evaluations may be coupled although their results differ, if the results look the same. How
they are looked at may differ, too: those of the first evaluation in one way, those of the
second in another. What is evaluated next then goes on from results that look the same.

* `Look`               — two ways of looking.
* `Look.tree`, `Look.list`, `Look.option` — looking at what has results in it.
* `Eval.CoupledBy`     — evaluations whose results look the same.
* `Eval.CoupledBy.bind` — one evaluation after the other.
* `Tree.coupledBy_graftM` — traversals of trees that look the same.
-/

namespace LayeredConfig

open Eval

-- ---------------------------------------------------------------------------
-- Ways of looking
-- ---------------------------------------------------------------------------

/-- How results are looked at, on the left and on the right. Whatever there is on the left,
something on the right looks like it. -/
structure Look (α γ : Type) where
  left : α → γ
  right : α → γ
  meets : ∀ a, ∃ b, left a = right b

namespace Look

/-- What is on the left looks like what is on the right. -/
def Same (L : Look α γ) (a b : α) : Prop := L.left a = L.right b

/-- All that there is can be seen. -/
def exact (α : Type) : Look α α := ⟨id, id, fun a => ⟨a, rfl⟩⟩

def option (L : Look α γ) : Look (Option α) (Option γ) where
  left := Option.map L.left
  right := Option.map L.right
  meets
    | none => ⟨none, rfl⟩
    | some a => (L.meets a).imp' some fun _ h => congrArg some h

def list (L : Look α γ) : Look (List α) (List γ) where
  left := List.map L.left
  right := List.map L.right
  meets as := by
    choose other hOther using L.meets
    refine ⟨as.map other, ?_⟩
    rw [List.map_map]
    exact List.map_congr_left fun a _ => hOther a

theorem exists_map_eq (L : Look α γ) : ∃ f : α → α, ∀ t : Tree α,
    t.map L.left = (t.map f).map L.right := by
  choose other hOther using L.meets
  refine ⟨other, fun t => ?_⟩
  rw [Tree.map_map]
  exact congrArg (fun f => t.map f) (funext hOther)

def tree (L : Look α γ) : Look (Tree α) (Tree γ) where
  left := Tree.map L.left
  right := Tree.map L.right
  meets t := by
    obtain ⟨f, hf⟩ := L.exists_map_eq
    exact ⟨t.map f, hf t⟩

def items (L : Look α γ) : Look (List (Tree α)) (List (Tree γ)) where
  left := Tree.mapItems L.left
  right := Tree.mapItems L.right
  meets ts := by
    obtain ⟨f, hf⟩ := L.exists_map_eq
    exact ⟨Tree.mapItems f ts, Tree.seq.inj (hf (.seq ts))⟩

def entries (L : Look α γ) : Look (List (String × Tree α)) (List (String × Tree γ)) where
  left := Tree.mapEntries L.left
  right := Tree.mapEntries L.right
  meets ts := by
    obtain ⟨f, hf⟩ := L.exists_map_eq
    exact ⟨Tree.mapEntries f ts, Tree.table.inj (hf (.table ts))⟩

end Look

-- ---------------------------------------------------------------------------
-- Results that look the same
-- ---------------------------------------------------------------------------

/-- Only what the first evaluation comes to is a reason to claim nothing. -/
structure Coupling.OneSided (C : Coupling σ τ) : Prop where
  rightVoid : ∀ t, ¬ C.rightVoid t
  unforgiving : ¬ C.forgiving

namespace Eval

theorem keeps_map_iff {I : σ → Prop} {f : α → β} {x : Eval σ α} :
    (f <$> x).Keeps I ↔ x.Keeps I := by
  have hState : ∀ s, ((f <$> x).run s).2 = (x.run s).2 := fun s => by rw [run_map]
  exact forall_congr' fun s => by rw [hState]

/-- Run side by side, the two give results that look the same. -/
abbrev CoupledBy (C : Coupling σ τ) (L : Look α γ) (x : Eval σ α) (y : Eval τ α) : Prop :=
  Coupled C (L.left <$> x) (L.right <$> y)

section

variable {C : Coupling σ τ} {L : Look α γ} {M : Look β δ}

theorem CoupledBy.pure {a b : α} (h : L.Same a b) : CoupledBy C L (pure a) (pure b) := by
  rw [CoupledBy, map_pure, map_pure, show L.left a = L.right b from h]
  exact Coupled.pure _

theorem CoupledBy.fail (e : ConfigError) :
    CoupledBy C L (fail e : Eval σ α) (fail e : Eval τ α) := Coupled.fail e

/-- Results that are the same look the same, if what is the same does. -/
theorem Coupled.by_exact {x : Eval σ α} {y : Eval τ α} (h : Coupled C x y) :
    CoupledBy C (Look.exact α) x y := by
  show Coupled C (id <$> x) (id <$> y)
  rwa [id_map, id_map]

theorem CoupledBy.of_exact {x : Eval σ α} {y : Eval τ α} (h : CoupledBy C (Look.exact α) x y) :
    Coupled C x y := by
  have hId : Coupled C (id <$> x) (id <$> y) := h
  rwa [id_map, id_map] at hId

theorem CoupledBy.keeps {x : Eval σ α} {y : Eval τ α} (h : CoupledBy C L x y) :
    x.Keeps C.leftVoid := keeps_map_iff.1 (Coupled.keepsLeft h)

/-- What the two come to. -/
theorem CoupledBy.run_cases (hC : C.OneSided) {x : Eval σ α} {y : Eval τ α} (h : CoupledBy C L x y)
    {s : σ} {t : τ} (hst : C.related s t) :
    C.leftVoid (x.run s).2 ∨
      ((x.run s).1.map L.left = (y.run t).1.map L.right ∧ C.related (x.run s).2 (y.run t).2) := by
  have hStep := h.step s t hst
  rw [run_map, run_map] at hStep
  rcases hStep with hVoid | hVoid | ⟨hForgiving, -⟩ | hSame
  · exact .inl hVoid
  · exact absurd hVoid (hC.rightVoid _)
  · exact absurd hForgiving hC.unforgiving
  · exact .inr hSame

/-- It is enough to look at runs. -/
theorem CoupledBy.of_run (hC : C.OneSided) {x : Eval σ α} {y : Eval τ α}
    (hKeeps : x.Keeps C.leftVoid)
    (h : ∀ s t, C.related s t → C.leftVoid (x.run s).2 ∨
      ((x.run s).1.map L.left = (y.run t).1.map L.right ∧ C.related (x.run s).2 (y.run t).2)) :
    CoupledBy C L x y where
  keepsLeft := keeps_map_iff.2 hKeeps
  keepsRight _ ht := absurd ht (hC.rightVoid _)
  step s t hst := by
    rw [run_map, run_map]
    exact (h s t hst).imp_right fun hSame => .inr (.inr hSame)

/-- The second halves are to be coupled after results that look the same. -/
theorem CoupledBy.bind (hC : C.OneSided) {x : Eval σ α} {y : Eval τ α} {f : α → Eval σ β}
    {g : α → Eval τ β} (h : CoupledBy C L x y)
    (hf : ∀ a b, L.Same a b → CoupledBy C M (f a) (g b)) :
    CoupledBy C M (x >>= f) (y >>= g) := by
  have hKeeps : ∀ a, (f a).Keeps C.leftVoid := by
    intro a
    obtain ⟨b, hb⟩ := L.meets a
    exact (hf a b hb).keeps
  refine CoupledBy.of_run hC (h.keeps.bind hKeeps) fun s t hst => ?_
  have hFirst := h.run_cases hC hst
  rw [run_bind, run_bind]
  rcases hx : x.run s with ⟨rx, s₁⟩
  rcases hy : y.run t with ⟨ry, t₁⟩
  rw [hx, hy] at hFirst
  rcases hFirst with hVoid | ⟨hSame, hRel⟩
  · left
    cases rx with
    | ok a => exact hKeeps a s₁ hVoid
    | error e => exact hVoid
  · cases rx with
    | ok a =>
      cases ry with
      | ok b => exact (hf a b (Except.ok.inj hSame)).run_cases hC hRel
      | error e => cases hSame
    | error e =>
      cases ry with
      | ok b => cases hSame
      | error e' =>
        cases hSame
        exact .inr ⟨rfl, hRel⟩

theorem CoupledBy.map (hC : C.OneSided) {x : Eval σ α} {y : Eval τ α} {f g : α → β}
    (h : CoupledBy C L x y) (hf : ∀ a b, L.Same a b → M.Same (f a) (g b)) :
    CoupledBy C M (f <$> x) (g <$> y) := by
  rw [map_eq_pure_bind, map_eq_pure_bind]
  exact h.bind hC fun a b hab => CoupledBy.pure (hf a b hab)

theorem CoupledBy.mapM (hC : C.OneSided) {f : ι → Eval σ α} {g : ι → Eval τ α} {is : List ι}
    (h : ∀ i ∈ is, CoupledBy C L (f i) (g i)) : CoupledBy C L.list (is.mapM f) (is.mapM g) := by
  induction is with
  | nil => exact CoupledBy.pure rfl
  | cons i rest ih =>
    rw [List.mapM_cons, List.mapM_cons]
    refine (h i List.mem_cons_self).bind hC fun a b hab => ?_
    refine (ih fun j hj => h j (List.mem_cons_of_mem i hj)).bind hC fun as bs habs => ?_
    exact CoupledBy.pure (congrArg₂ List.cons hab habs)

end

end Eval

-- ---------------------------------------------------------------------------
-- Traversal
-- ---------------------------------------------------------------------------

namespace Tree

section

variable {C : Coupling σ τ} {K : Look α γ} {L : Look β δ} {f : α → Eval σ (Tree β)}
  {g : α → Eval τ (Tree β)}

mutual

/-- Trees that look the same are traversed alike. -/
theorem coupledBy_graftM (hC : C.OneSided)
    (h : ∀ a b, K.Same a b → CoupledBy C L.tree (f a) (g b)) :
    ∀ t u : Tree α, K.tree.Same t u → CoupledBy C L.tree (t.graftM f) (u.graftM g)
  | leaf a, leaf b, hSame => h a b (Tree.leaf.inj hSame)
  | seq items, seq others, hSame => by
    refine (coupledBy_graftItemsM hC h items others (Tree.seq.inj hSame)).bind hC ?_
    exact fun _ _ hItems => CoupledBy.pure (congrArg Tree.seq hItems)
  | table entries, table others, hSame => by
    refine (coupledBy_graftEntriesM hC h entries others (Tree.table.inj hSame)).bind hC ?_
    exact fun _ _ hEntries => CoupledBy.pure (congrArg Tree.table hEntries)
  | leaf _, seq _, hSame => by cases hSame
  | leaf _, table _, hSame => by cases hSame
  | seq _, leaf _, hSame => by cases hSame
  | seq _, table _, hSame => by cases hSame
  | table _, leaf _, hSame => by cases hSame
  | table _, seq _, hSame => by cases hSame

theorem coupledBy_graftItemsM (hC : C.OneSided)
    (h : ∀ a b, K.Same a b → CoupledBy C L.tree (f a) (g b)) :
    ∀ items others : List (Tree α), K.items.Same items others →
      CoupledBy C L.items (graftItemsM f items) (graftItemsM g others)
  | [], [], _ => CoupledBy.pure rfl
  | t :: rest, u :: more, hSame => by
    obtain ⟨hFirst, hRest⟩ := List.cons.inj hSame
    refine (coupledBy_graftM hC h t u hFirst).bind hC fun _ _ hv => ?_
    refine (coupledBy_graftItemsM hC h rest more hRest).bind hC fun _ _ hvs => ?_
    exact CoupledBy.pure (congrArg₂ List.cons hv hvs)
  | [], _ :: _, hSame => by cases hSame
  | _ :: _, [], hSame => by cases hSame

theorem coupledBy_graftEntriesM (hC : C.OneSided)
    (h : ∀ a b, K.Same a b → CoupledBy C L.tree (f a) (g b)) :
    ∀ entries others : List (String × Tree α), K.entries.Same entries others →
      CoupledBy C L.entries (graftEntriesM f entries) (graftEntriesM g others)
  | [], [], _ => CoupledBy.pure rfl
  | (key, t) :: rest, (other, u) :: more, hSame => by
    obtain ⟨hFirst, hRest⟩ := List.cons.inj hSame
    obtain ⟨hKey, hBelow⟩ := Prod.mk.inj hFirst
    refine (coupledBy_graftM hC h t u hBelow).bind hC fun _ _ hv => ?_
    refine (coupledBy_graftEntriesM hC h rest more hRest).bind hC fun _ _ hvs => ?_
    exact CoupledBy.pure (congrArg₂ List.cons (Prod.ext hKey hv) hvs)
  | [], _ :: _, hSame => by cases hSame
  | _ :: _, [], hSame => by cases hSame

end

end

end Tree

end LayeredConfig
