import LayeredConfig.Expansion.Session
import LayeredConfig.Proofs.Evaluation

/-!
# LayeredConfig — laws of sessions

A session only ever adds to its history, and a value once recorded stays: the
history before a call *precedes* the one after it.

* `History.Precedes`   — later events in front, and all values kept.
* `History.leafValue?` — the value of a leaf.
* `Session.recorded`   — a session with an event more.
-/

namespace LayeredConfig

namespace History

/-- The value of a leaf, if it is resolved. -/
def leafValue? (history : History) (leaf : Leaf) : Option Value := history.value? leaf.location

-- ---------------------------------------------------------------------------
-- Progress
-- ---------------------------------------------------------------------------

theorem progress_cons_self (location : Location) (p : Progress) (history : History) :
    progress ((location, p) :: history) location = p := if_pos rfl

theorem progress_cons_of_ne {location other : Location} (h : location ≠ other) (p : Progress)
    (history : History) : progress ((location, p) :: history) other = progress history other :=
  if_neg h

theorem value?_eq_some_iff {history : History} {location : Location} {v : Value} :
    history.value? location = some v ↔ history.progress location = .resolved v := by
  rw [value?]
  cases history.progress location <;> simp

theorem value?_cons_self (location : Location) (v : Value) (history : History) :
    value? ((location, .resolved v) :: history) location = some v := by
  rw [value?, progress_cons_self]

theorem value?_cons_of_ne {location other : Location} (h : location ≠ other) (p : Progress)
    (history : History) : value? ((location, p) :: history) other = value? history other := by
  rw [value?, value?, progress_cons_of_ne h]

theorem value?_of_pending {history : History} {location : Location}
    (h : history.progress location = .pending) : history.value? location = none := by
  rw [value?, h]

theorem value?_of_evaluating {history : History} {location : Location}
    {trigger : Option Location} (h : history.progress location = .evaluating trigger) :
    history.value? location = none := by
  rw [value?, h]

-- ---------------------------------------------------------------------------
-- Growth
-- ---------------------------------------------------------------------------

/-- Later events stand in front of earlier ones, and no value is lost. -/
structure Precedes (earlier later : History) : Prop where
  suffix : earlier <:+ later
  value  : ∀ location v, earlier.value? location = some v → later.value? location = some v

namespace Precedes

theorem refl (history : History) : Precedes history history := ⟨List.suffix_rfl, fun _ _ h => h⟩

theorem trans {a b c : History} (hab : Precedes a b) (hbc : Precedes b c) : Precedes a c :=
  ⟨hab.suffix.trans hbc.suffix, fun location v h => hbc.value location v (hab.value location v h)⟩

/-- An event for a location without a value loses none. -/
theorem cons {earlier later : History} {location : Location} (h : Precedes earlier later)
    (hNone : later.value? location = none) (p : Progress) :
    Precedes earlier ((location, p) :: later) := by
  refine ⟨h.suffix.trans (List.suffix_cons _ _), fun other v hv => ?_⟩
  have hLater := h.value other v hv
  have hne : location ≠ other := by
    rintro rfl
    rw [hNone] at hLater
    cases hLater
  rw [value?_cons_of_ne hne, hLater]

theorem value?_eq_none {earlier later : History} (h : Precedes earlier later)
    {location : Location} (hNone : later.value? location = none) :
    earlier.value? location = none := by
  cases hValue : earlier.value? location with
  | none => rfl
  | some v =>
    rw [h.value location v hValue] at hNone
    cases hNone

theorem leafValue {earlier later : History} (h : Precedes earlier later) (leaf : Leaf) (v : Value)
    (hv : earlier.leafValue? leaf = some v) : later.leafValue? leaf = some v :=
  h.value leaf.location v hv

end Precedes

end History

namespace Session

variable {σ : Type}

/-- The session after an event. -/
def recorded (s : Session σ) (location : Location) (p : Progress) : Session σ :=
  { s with history := (location, p) :: s.history }

@[simp] theorem run_record (location : Location) (p : Progress) (s : Session σ) :
    (record location p).run s = (.ok (), s.recorded location p) := rfl

@[simp] theorem run_currentHistory (s : Session σ) :
    (currentHistory : Eval (Session σ) History).run s = (.ok s.history, s) := rfl

@[simp] theorem run_onClient (x : Eval σ α) (s : Session σ) :
    (onClient x).run s = ((x.run s.client).1, { s with client := (x.run s.client).2 }) := rfl

/-- A property of the history alone is none of the client's business. -/
theorem keeps_onClient (I : History → Prop) (x : Eval σ α) :
    (onClient x).Keeps (fun s => I s.history) := fun _ h => h

/-- The history after an evaluation that keeps what is recorded. -/
theorem precedes_of_keeps {x : Eval (Session σ) α}
    (h : ∀ earlier : History, x.Keeps (fun s => earlier.Precedes s.history))
    {s s' : Session σ} {r : Except ConfigError α} (hRun : x.run s = (r, s')) :
    s.history.Precedes s'.history :=
  (h s.history).of_run hRun (History.Precedes.refl s.history)

end Session

end LayeredConfig
