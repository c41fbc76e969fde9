import LayeredConfig.Error

/-!
# LayeredConfig — evaluation

An evaluation reads and changes a state and gives a result or an error. What
it did to the state before an error stays done.

* `Eval`         — the type, a monad.
* `Eval.attempt` — an evaluation whose error is a result.
* `Eval.onPart`  — an evaluation on a part of a larger state.
-/

namespace LayeredConfig

/-- An evaluation with states of `σ` and results of `α`. -/
def Eval (σ α : Type) : Type := σ → Except ConfigError α × σ

namespace Eval

/-- The result and the state after an evaluation from `s`. -/
def run (x : Eval σ α) (s : σ) : Except ConfigError α × σ := x s

instance : Monad (Eval σ) where
  pure a := fun s => (.ok a, s)
  bind x f := fun s =>
    match x s with
    | (.ok a, s') => f a s'
    | (.error e, s') => (.error e, s')

/-- Fails and leaves the state as it is. -/
def fail (e : ConfigError) : Eval σ α := fun s => (.error e, s)

/-- The state. -/
def state : Eval σ σ := fun s => (.ok s, s)

/-- Changes the state. -/
def modify (f : σ → σ) : Eval σ Unit := fun s => (.ok (), f s)

/-- A result or an error already known. -/
def ofExcept (r : Except ConfigError α) : Eval σ α := fun s => (r, s)

/-- What `x` does and gives, an error as a result like any other. -/
def attempt (x : Eval σ α) : Eval σ (Except ConfigError α) := fun s =>
  let (r, s') := x s
  (.ok r, s')

/-- `x` on the part of the state that `get` reads and `set` puts back. -/
def onPart (get : τ → σ) (set : σ → τ → τ) (x : Eval σ α) : Eval τ α := fun s =>
  let (r, part) := x (get s)
  (r, set part s)

-- ---------------------------------------------------------------------------
-- Runs
-- ---------------------------------------------------------------------------

@[simp] theorem run_pure (a : α) (s : σ) : (pure a : Eval σ α).run s = (.ok a, s) := rfl

@[simp] theorem run_fail (e : ConfigError) (s : σ) :
    (fail e : Eval σ α).run s = (.error e, s) := rfl

@[simp] theorem run_state (s : σ) : (state : Eval σ σ).run s = (.ok s, s) := rfl

@[simp] theorem run_modify (f : σ → σ) (s : σ) : (modify f).run s = (.ok (), f s) := rfl

theorem run_bind (x : Eval σ α) (f : α → Eval σ β) (s : σ) :
    (x >>= f).run s =
      match x.run s with
      | (.ok a, s') => (f a).run s'
      | (.error e, s') => (.error e, s') := rfl

theorem run_bind_of_ok {x : Eval σ α} {s s' : σ} {a : α} (h : x.run s = (.ok a, s'))
    (f : α → Eval σ β) : (x >>= f).run s = (f a).run s' := by
  rw [run_bind, h]

theorem run_bind_of_error {x : Eval σ α} {s s' : σ} {e : ConfigError}
    (h : x.run s = (.error e, s')) (f : α → Eval σ β) :
    (x >>= f).run s = (.error e, s') := by
  rw [run_bind, h]

theorem map_id_run (x : Eval σ α) : id <$> x = x := by
  funext s
  show (x >>= fun a => pure (id a)).run s = x.run s
  rw [run_bind]
  split <;> simp_all

theorem bind_assoc_run (x : Eval σ α) (f : α → Eval σ β) (g : β → Eval σ γ) :
    x >>= f >>= g = x >>= fun a => f a >>= g := by
  funext s
  show (x >>= f >>= g).run s = (x >>= fun a => f a >>= g).run s
  simp only [run_bind]
  cases x.run s with
  | mk r s' => cases r <;> rfl

instance : LawfulMonad (Eval σ) :=
  LawfulMonad.mk' _ map_id_run (fun _ _ => rfl) bind_assoc_run

end Eval

end LayeredConfig
