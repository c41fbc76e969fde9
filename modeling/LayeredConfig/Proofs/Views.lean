import Mathlib.Data.List.TakeDrop
import LayeredConfig.Proofs.Laziness
import LayeredConfig.Proofs.Origins

/-!
# LayeredConfig — origins seen in some way

What has texts in it can be looked at with other origins in them: with none at all, or with
those that it has. Nearly everything that an expansion does with values can as well be done
with what is seen of them: rendering does not look at origins, and merging, settling and
making requests only move texts around.

* `View`, `View.blind`, `View.full` — ways of seeing origins.
* `View.value`, `View.draft`, `View.history`, `View.request` — what is seen.
* `View.render_value`    — rendering does not look at origins.
* `View.draft_settle`    — settling what is seen.
* `View.request_ofFragments` — a request made of what is seen.
-/

namespace LayeredConfig

/-- How origins are seen. Where there is none, none is seen. -/
structure View where
  see : Option String → Option String
  see_none : see none = none

namespace View

/-- No origin is seen. -/
def blind : View := ⟨fun _ => none, rfl⟩

/-- Origins are seen as they are. -/
def full : View := ⟨id, rfl⟩

variable (V : View)

-- ---------------------------------------------------------------------------
-- What is seen
-- ---------------------------------------------------------------------------

def text (t : Text) : Text := ⟨t.text, V.see t.origin⟩

def scalar : Scalar → Scalar
  | .text t => .text (V.text t)
  | s => s

def value (v : Value) : Value := v.map V.scalar

def leaf (l : Leaf) : Leaf := ⟨l.location, V.text l.raw⟩

def cell : Cell → Cell
  | .known s => .known (V.scalar s)
  | .deferred l => .deferred (V.leaf l)

def draft (d : Draft) : Draft := d.map V.cell

def progress : Progress → Progress
  | .resolved v => .resolved (V.value v)
  | p => p

def history (h : History) : History := h.map fun event => (event.1, V.progress event.2)

def fragment : Fragment → Fragment
  | .value found => .value (found.map V.value)
  | f => f

def call (c : Call) : Call := ⟨c.name, V.value c.arg⟩

def request (r : Request) : Request := ⟨r.expression, r.call.map V.call, r.subject.map V.text⟩

@[simp] theorem scalar_full (s : Scalar) : full.scalar s = s := by
  cases s <;> rfl

@[simp] theorem value_full (v : Value) : full.value v = v := by
  rw [value, show full.scalar = fun s => s from funext scalar_full]
  exact Tree.map_id v

@[simp] theorem request_full (r : Request) : full.request r = r := by
  have hCall : full.call = id := funext fun c => congrArg (Call.mk c.name) (value_full c.arg)
  rw [request, hCall, show full.text = id from rfl, Option.map_id, Option.map_id]
  rfl

variable {V}

-- ---------------------------------------------------------------------------
-- Values
-- ---------------------------------------------------------------------------

@[simp] theorem text_plain (s : String) : V.text (.plain s) = .plain s := by
  rw [text, Text.plain, V.see_none]

@[simp] theorem value_ofString (s : String) : V.value (Value.ofString s) = Value.ofString s := by
  rw [Value.ofString, value, Tree.map, scalar, text_plain]

/-- Rendering does not look at origins. -/
@[simp] theorem render_value (v : Value) : Value.render (V.value v) = Value.render v := by
  have hJson : Value.toJson (V.value v) = Value.toJson v := by
    rw [Value.toJson, value, Tree.map_map]
    refine congrArg (fun f => Tree.map f v) (funext fun s => ?_)
    cases s <;> rfl
  cases v with
  | leaf s => cases s <;> rfl
  | seq items => exact congrArg Json.write hJson
  | table entries => exact congrArg Json.write hJson

theorem value_withOriginOf (l : Leaf) (v : Value) :
    V.value (Expansion.withOriginOf l v) = Expansion.withOriginOf (V.leaf l) (V.value v) := by
  cases v with
  | leaf s => cases s <;> rfl
  | seq items => rfl
  | table entries => rfl

-- ---------------------------------------------------------------------------
-- Drafts
-- ---------------------------------------------------------------------------

open Draft

theorem draft_known (v : Value) : V.draft (known v) = known (V.value v) := by
  rw [draft, known, known, value, Tree.map_map, Tree.map_map]
  rfl

theorem draft_ofValue (v : Value) : V.draft (ofValue v) = ofValue (V.value v) := by
  refine (ofValueAt_map (fun location s => ?_) [] v).symm
  cases s <;> rfl

theorem deferredLeaves_draft (d : Draft) :
    (V.draft d).deferredLeaves = d.deferredLeaves.map V.leaf :=
  deferredLeaves_map (fun c => by cases c <;> rfl) d

theorem child?_draft (d : Draft) (segment : String) :
    (V.draft d).child? segment = (d.child? segment).map V.draft := Tree.child?_map V.cell d segment

/-- Where the way goes on in a value, as it is seen. -/
theorem draft_follow?_known (v : Value) (path : KeyPath) :
    ((Tree.follow? v path).map known).map V.draft =
      (Tree.follow? (V.value v) path).map known := by
  rw [value, Tree.follow?_map]
  cases Tree.follow? v path with
  | none => rfl
  | some w => exact congrArg some (draft_known w)

/-- A deferred leaf looks like nothing but a deferred leaf. -/
theorem exists_of_draft_deferred {W : View} {l : Leaf} {d : Draft}
    (h : V.draft (.leaf (.deferred l)) = W.draft d) :
    ∃ other, d = .leaf (.deferred other) ∧ V.leaf l = W.leaf other := by
  cases d with
  | leaf c =>
    cases c with
    | known s => cases h
    | deferred other => exact ⟨other, rfl, Cell.deferred.inj (Tree.leaf.inj h)⟩
  | seq items => cases h
  | table entries => cases h

-- ---------------------------------------------------------------------------
-- Histories
-- ---------------------------------------------------------------------------

theorem progress_history (h : History) (location : Location) :
    (V.history h).progress location = V.progress (h.progress location) := by
  induction h with
  | nil => rfl
  | cons event earlier ih =>
    obtain ⟨other, p⟩ := event
    by_cases hSame : other = location
    · subst hSame
      exact (History.progress_cons_self other _ _).trans
        (congrArg V.progress (History.progress_cons_self other p earlier).symm)
    · rw [History.progress_cons_of_ne hSame, ← ih]
      exact History.progress_cons_of_ne hSame _ _

theorem leafValue?_history (h : History) (l : Leaf) :
    (V.history h).leafValue? (V.leaf l) = (h.leafValue? l).map V.value := by
  show (V.history h).value? l.location = (h.value? l.location).map V.value
  rw [History.value?, progress_history, History.value?]
  cases h.progress l.location <;> rfl

/-- Who requested whom does not depend on values. -/
theorem chain_history (h : History) : ∀ location : Location,
    (V.history h).chain location = h.chain location := by
  induction h with
  | nil => exact fun _ => rfl
  | cons event earlier ih =>
    intro location
    obtain ⟨other, p⟩ := event
    by_cases hSame : other = location
    · subst hSame
      cases p with
      | evaluating trigger =>
        cases trigger with
        | none =>
          exact (History.chain_cons_self_of_none other _).trans
            (History.chain_cons_self_of_none other earlier).symm
        | some requester =>
          exact (History.chain_cons_self_of_some other requester _).trans
            ((congrArg (other :: ·) (ih requester)).trans
              (History.chain_cons_self_of_some other requester earlier).symm)
      | pending => simp [history, progress, History.chain]
      | resolved v => simp [history, progress, History.chain]
    · rw [History.chain_cons_of_ne hSame, ← ih]
      exact History.chain_cons_of_ne hSame _ _

theorem cycleTrace_history (h : History) (trigger : Option Location) (revisited : Location) :
    (V.history h).cycleTrace trigger revisited = h.cycleTrace trigger revisited := by
  cases trigger with
  | none => rfl
  | some location => simp only [History.cycleTrace, chain_history]

/-- Settling a draft, as it is seen. -/
theorem draft_settle (h : History) (d : Draft) :
    V.draft (settle h.leafValue? d) = settle (V.history h).leafValue? (V.draft d) :=
  map_settle (fun _ => rfl) (fun _ => rfl) (V.leafValue?_history h) d

-- ---------------------------------------------------------------------------
-- Requests
-- ---------------------------------------------------------------------------

theorem render_fragment (f : Fragment) : (V.fragment f).render = f.render := by
  cases f with
  | value found =>
    cases found with
    | none => rfl
    | some v => exact render_value v
  | _ => rfl

theorem renderAll_fragments (fragments : List Fragment) :
    Fragment.renderAll (fragments.map V.fragment) = Fragment.renderAll fragments := by
  rw [Fragment.renderAll, Fragment.renderAll, List.map_map]
  exact congrArg String.join (List.map_congr_left fun f _ => render_fragment f)

theorem argument_fragments (fragments : List Fragment) :
    Fragment.argument (fragments.map V.fragment) = V.value (Fragment.argument fragments) := by
  have hText : ∀ others : List Fragment, (∀ found, others ≠ [.value found]) →
      Fragment.argument others = Value.ofString (Fragment.renderAll others) := by
    intro others hOthers
    unfold Fragment.argument
    split
    · exact absurd rfl (hOthers _)
    · rfl
  by_cases hSingle : ∃ found, fragments = [.value found]
  · obtain ⟨found, rfl⟩ := hSingle
    cases found with
    | none => exact (value_ofString "").symm
    | some v => rfl
  · have hSeen : ∀ found, fragments.map V.fragment ≠ [.value found] := by
      intro found h
      obtain ⟨f, hFragments, hf⟩ := List.map_eq_singleton_iff.1 h
      cases f with
      | value other => exact hSingle ⟨other, hFragments⟩
      | _ => cases hf
    rw [hText _ hSeen, hText _ fun found h => hSingle ⟨found, h⟩, value_ofString,
      renderAll_fragments]

theorem callOfFragments?_fragments (fragments : List Fragment) :
    Request.callOfFragments? (fragments.map V.fragment) =
      (Request.callOfFragments? fragments).map V.call := by
  have hColon : ∀ f : Fragment, (V.fragment f).isColon = f.isColon := by
    intro f
    cases f <;> rfl
  have hSpan : (fragments.map V.fragment).span (fun f => !f.isColon) =
      ((fragments.span fun f => !f.isColon).1.map V.fragment,
        (fragments.span fun f => !f.isColon).2.map V.fragment) := by
    simp only [List.span_eq_takeWhile_dropWhile, List.takeWhile_map, List.dropWhile_map,
      Function.comp_def, hColon]
  rw [Request.callOfFragments?, Request.callOfFragments?, hSpan]
  generalize (fragments.span fun f => !f.isColon) = parts
  obtain ⟨before, behind⟩ := parts
  cases behind with
  | nil => rfl
  | cons first behind =>
    simp only [List.map_cons, renderAll_fragments, argument_fragments]
    split <;> rfl

/-- A request made of what is seen is what is seen of the request. -/
theorem request_ofFragments (fragments : List Fragment) (subject : Option Text) :
    V.request (.ofFragments fragments subject) =
      .ofFragments (fragments.map V.fragment) (subject.map V.text) := by
  rw [request, Request.ofFragments, Request.ofFragments, renderAll_fragments,
    callOfFragments?_fragments]

theorem callOf?_request (r : Request) (name : String) :
    (V.request r).callOf? name = (r.callOf? name).map V.value := by
  obtain ⟨expression, call, subject⟩ := r
  cases call with
  | none => rfl
  | some call =>
    simp only [request, Option.map_some, Request.callOf?, View.call]
    split <;> rfl

theorem envFunction_request (env : EnvLookup) (r : Request) :
    ((r.callOf? "env").bind fun arg => (env (Value.render arg)).map Value.ofString).map V.value =
      ((V.request r).callOf? "env").bind fun arg =>
        (env (Value.render arg)).map Value.ofString := by
  rw [callOf?_request]
  cases r.callOf? "env" with
  | none => rfl
  | some arg => simp [Function.comp_def]

theorem envVariable_request (env : EnvLookup) (r : Request) :
    (if r.call.isSome then none else (env r.expression).map Value.ofString).map V.value =
      if (V.request r).call.isSome then none
      else (env (V.request r).expression).map Value.ofString := by
  simp only [request, Option.isSome_map]
  split
  · rfl
  · simp [Function.comp_def]

-- ---------------------------------------------------------------------------
-- What is seen without origins
-- ---------------------------------------------------------------------------

/-! Where no origin is seen, every view sees all there is. -/

@[simp] theorem scalar_bare (s : Scalar) : V.scalar (blind.scalar s) = blind.scalar s := by
  cases s with
  | text t => exact congrArg Scalar.text (text_plain t.text)
  | _ => rfl

@[simp] theorem value_bare (v : Value) : V.value (blind.value v) = blind.value v := by
  rw [value, value, Tree.map_map]
  exact congrArg (fun f => Tree.map f v) (funext scalar_bare)

@[simp] theorem request_bare (r : Request) : V.request (blind.request r) = blind.request r := by
  have hCall : ∀ c, V.call (blind.call c) = blind.call c := fun c =>
    congrArg (Call.mk c.name) (value_bare c.arg)
  have hText : ∀ t, V.text (blind.text t) = blind.text t := fun t => text_plain t.text
  simp only [request, Option.map_map, Function.comp_def, hCall, hText]

@[simp] theorem cell_bare (c : Cell) : V.cell (blind.cell c) = blind.cell c := by
  cases c with
  | known s => exact congrArg Cell.known (scalar_bare s)
  | deferred l => exact congrArg (fun t => Cell.deferred ⟨l.location, t⟩) (text_plain l.raw.text)

@[simp] theorem history_bare (h : History) : V.history (blind.history h) = blind.history h := by
  rw [history, history, List.map_map]
  refine List.map_congr_left fun event _ => ?_
  obtain ⟨location, p⟩ := event
  cases p with
  | resolved v => exact congrArg (fun w => (location, Progress.resolved w)) (value_bare v)
  | _ => rfl

@[simp] theorem fragment_bare (f : Fragment) :
    V.fragment (blind.fragment f) = blind.fragment f := by
  cases f with
  | value found =>
    cases found with
    | none => rfl
    | some v => exact congrArg (fun w => Fragment.value (some w)) (value_bare v)
  | _ => rfl

end View

end LayeredConfig
