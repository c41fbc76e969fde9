import LayeredConfig.Eval
import LayeredConfig.Expansion.Draft

/-!
# LayeredConfig — sessions

What an expansion has done so far is kept as a history: each time the progress
of a leaf changes, the leaf's location and the new progress are put in front.
The progress of a leaf is the last one recorded for it.

While a leaf is evaluated it may request others. Each records which leaf
requested it, so from any leaf under evaluation these links lead back to the
one that the call itself requested. They make the trace of a cycle.

* `History.progress` — how far a leaf is.
* `History.chain`    — a leaf and those whose evaluation led to it.
* `Session`          — the history and the state of the client's resolvers.
-/

namespace LayeredConfig

/-- How far the evaluation of a leaf is. -/
inductive Progress where
  | pending
  /-- Under evaluation, at the request of another leaf or of the call. -/
  | evaluating (triggeredBy : Option Location)
  | resolved (value : Value)

/-- Every change of progress, the last one first. -/
abbrev History := List (Location × Progress)

namespace History

/-- How far the leaf at a location is. -/
def progress : History → Location → Progress
  | [], _ => .pending
  | (l, p) :: earlier, location => if l = location then p else progress earlier location

/-- The value of a leaf, if it is resolved. -/
def value? (history : History) (location : Location) : Option Value :=
  match progress history location with
  | .resolved v => some v
  | _ => none

/-- A leaf under evaluation, then the one that requested it, and so on. A
request is always younger than the evaluation it comes from, so the search
for the next link goes on where the last one was found. -/
def chain : History → Location → List Location
  | [], location => [location]
  | (l, .evaluating (some requester)) :: earlier, location =>
    if l = location then location :: chain earlier requester else chain earlier location
  | (l, _) :: earlier, location =>
    if l = location then [location] else chain earlier location

/-- The origin paths from the leaf that the call requested down to the one
that was come back to. -/
def cycleTrace (history : History) (trigger : Option Location) (revisited : Location) :
    List String :=
  let links :=
    match trigger with
    | none => []
    | some location => chain history location
  (revisited :: links).reverse.map Location.originPath

end History

/-- What an expansion has done, and the state of the client's resolvers. -/
structure Session (σ : Type) where
  history : History
  client : σ

namespace Session

/-- Nothing done yet. -/
def start (client : σ) : Session σ := ⟨[], client⟩

/-- Records that the progress of a leaf has changed. -/
def record (location : Location) (progress : Progress) : Eval (Session σ) Unit :=
  Eval.modify (fun s => { s with history := (location, progress) :: s.history })

/-- The history. -/
def currentHistory : Eval (Session σ) History := do
  return (← Eval.state).history

/-- An evaluation on the client's state. -/
def onClient (x : Eval σ α) : Eval (Session σ) α :=
  Eval.onPart client (fun c s => { s with client := c }) x

end Session

end LayeredConfig
