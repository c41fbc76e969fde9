import LayeredConfig.Proofs.Recording
import Mathlib.Data.List.Range

/-!
# LayeredConfig — who is asked while a text is interpolated

Interpolating a text is a row of calls of resolvers. Here each of them is kept, with what came of
it. Keeping them changes nothing else, so the row can be read as an account of the run: which
reference of the text each call was made for, what that reference spelled by then, who was asked
before, and which call a failure comes from.

The account of a sequence is that of its parts, one behind the other (`Eval.Logs.bind`). So it is
put together along the pieces of a body, and along the parts of a template.

* `Asked`, `Template.calls`      — the calls that interpolating a text makes.
* `Template.run_asking`          — keeping calls changes nothing else.
* `Template.Answered`            — the resolvers of a chain were asked, up to an answer.
* `Template.Spells`              — what a body spells once its references are known.
* `Template.MadeFor`             — a call was made for one of some bodies.
* `Template.accounts_interpolate` — the account of a text.
* `Template.calls_of_reference`   — the calls of a text that is one reference.
-/

namespace LayeredConfig

open Eval

-- ---------------------------------------------------------------------------
-- Calls
-- ---------------------------------------------------------------------------

/-- A call of a resolver of a chain: where in the chain that stands, what it was told, and what
came of it. -/
structure Asked where
  place : Nat
  request : Request
  result : Except ConfigError (Option Value)

/-- Keeps each call behind those before, once it is known what came of it. -/
def Asked.recorder : Recorder (σ × List Asked) :=
  { finished := fun place request result s => (s.1, s.2 ++ [⟨place, request, result⟩]) }

namespace Resolver

/-- The resolvers of a chain, where each call is kept. The first one has the place `place`. -/
def askingFrom (place : Nat) (resolvers : List (Resolver σ)) : List (Resolver (σ × List Asked)) :=
  recordingFrom Asked.recorder place (resolvers.map (beside (List Asked)))

/-- Couples states without calls and with calls. -/
def aside (σ : Type) : Coupling σ (σ × List Asked) :=
  Coupling.throughout fun s t => t.1 = s

theorem records_aside (place : Nat) : (aside σ).Records .idle Asked.recorder place where
  made _ := Coupling.keptBy_id _
  finished _ _ := Coupling.keptBy_throughout fun _ _ h => h

theorem chains_askingFrom (resolvers : List (Resolver σ)) (place : Nat) :
    (aside σ).Chains resolvers (askingFrom place resolvers) := by
  refine chains_recordingFrom_right records_aside ?_ place
  rw [Coupling.Chains, List.forall₂_map_right_iff]
  refine List.forall₂_same.2 fun r _ request => coupled_throughout_iff.2 ?_
  rintro s t rfl
  exact ⟨rfl, rfl⟩

end Resolver

namespace Template

/-- The calls of resolvers that interpolating a text makes, the first one first. -/
def calls (resolvers : List (Resolver σ)) (subject : Option Text) (text : String) (s : σ) :
    List Asked :=
  ((interpolate (Resolver.askingFrom 0 resolvers) subject text).run (s, [])).2.2

/-- **Keeping calls changes nothing else.** -/
theorem run_asking (resolvers : List (Resolver σ)) (subject : Option Text) (text : String) (s : σ) :
    (interpolate (Resolver.askingFrom 0 resolvers) subject text).run (s, []) =
      (((interpolate resolvers subject text).run s).1,
        (((interpolate resolvers subject text).run s).2, calls resolvers subject text s)) := by
  have hCoupled := coupled_interpolate (Resolver.chains_askingFrom resolvers 0) subject text
  obtain ⟨hResult, hState⟩ := coupled_throughout_iff.1 hCoupled s (s, []) rfl
  exact Prod.ext hResult.symm (Prod.ext hState rfl)

end Template

-- ---------------------------------------------------------------------------
-- Accounts
-- ---------------------------------------------------------------------------

namespace Eval

/-- Whatever the state, the evaluation makes further calls, of which `P` holds together with the
result. -/
def Logs (P : List Asked → Except ConfigError α → Prop) (x : Eval (σ × List Asked) α) : Prop :=
  ∀ s log, ∃ more, (x.run (s, log)).2.2 = log ++ more ∧ P more (x.run (s, log)).1

namespace Logs

variable {P : List Asked → Except ConfigError α → Prop}

theorem mono {Q : List Asked → Except ConfigError α → Prop} {x : Eval (σ × List Asked) α}
    (h : Logs P x) (hPQ : ∀ more r, P more r → Q more r) : Logs Q x := by
  intro s log
  obtain ⟨more, hLog, hP⟩ := h s log
  exact ⟨more, hLog, hPQ more _ hP⟩

/-- Without calls. -/
theorem of_unchanged {x : Eval (σ × List Asked) α} (hState : ∀ s, (x.run s).2 = s)
    (h : ∀ s, P [] (x.run s).1) : Logs P x := by
  intro s log
  refine ⟨[], ?_, h (s, log)⟩
  rw [hState, List.append_nil]

theorem pure {a : α} (h : P [] (.ok a)) : Logs P (pure a : Eval (σ × List Asked) α) :=
  of_unchanged (fun _ => rfl) fun _ => h

/-- The calls of a sequence are those of its first part and, unless that fails, those of the
second one behind them. -/
theorem bind {Q : List Asked → Except ConfigError β → Prop} {R : α → List Asked →
    Except ConfigError β → Prop} {x : Eval (σ × List Asked) α} {f : α → Eval (σ × List Asked) β}
    (hx : Logs P x) (hf : ∀ a, Logs (R a) (f a))
    (hError : ∀ calls e, P calls (.error e) → Q calls (.error e))
    (hOk : ∀ calls a more r, P calls (.ok a) → R a more r → Q (calls ++ more) r) :
    Logs Q (x >>= f) := by
  intro s log
  obtain ⟨calls, hLog, hP⟩ := hx s log
  rcases hRun : x.run (s, log) with ⟨r, s', log'⟩
  rw [hRun] at hLog hP
  obtain rfl : log' = log ++ calls := hLog
  cases r with
  | error e =>
    rw [run_bind_of_error hRun]
    exact ⟨calls, rfl, hError calls e hP⟩
  | ok a =>
    rw [run_bind_of_ok hRun]
    obtain ⟨more, hMore, hR⟩ := hf a s' (log ++ calls)
    refine ⟨calls ++ more, ?_, hOk calls a more _ hP hR⟩
    rw [hMore, List.append_assoc]

theorem map {Q : List Asked → Except ConfigError β → Prop} {x : Eval (σ × List Asked) α}
    (hx : Logs P x) (f : α → β) (hQ : ∀ calls r, P calls r → Q calls (r.map f)) :
    Logs Q (f <$> x) := by
  intro s log
  obtain ⟨calls, hLog, hP⟩ := hx s log
  rw [run_map]
  exact ⟨calls, hLog, hQ calls _ hP⟩

end Logs

end Eval

namespace Template

-- ---------------------------------------------------------------------------
-- One request
-- ---------------------------------------------------------------------------

/-- `n` resolvers in a row decline the request, the first one at the place `place`. -/
def declines (request : Request) (place n : Nat) : List Asked :=
  (List.range' place n).map fun k => ⟨k, request, .ok none⟩

/-- The calls by which a chain of `n` resolvers is asked, from the place `place` on. All of them
decline, or there is one that answers or fails, which is the last one asked. -/
def Answered (request : Request) (place n : Nat) (calls : List Asked) :
    Except ConfigError (Option Value) → Prop
  | .ok none => calls = declines request place n
  | .ok (some a) => ∃ k < n, calls =
      declines request place k ++ [⟨place + k, request, .ok (some a)⟩]
  | .error e => ∃ k < n, calls = declines request place k ++ [⟨place + k, request, .error e⟩]

theorem declines_succ (request : Request) (place n : Nat) :
    declines request place (n + 1) =
      ⟨place, request, .ok none⟩ :: declines request (place + 1) n := by
  rw [declines, List.range'_succ, List.map_cons]
  rfl

/-- One more in front that declines. -/
theorem Answered.cons {request : Request} {place n : Nat} {calls : List Asked}
    {r : Except ConfigError (Option Value)} (h : Answered request (place + 1) n calls r) :
    Answered request place (n + 1) (⟨place, request, .ok none⟩ :: calls) r := by
  have hShift : ∀ {k : Nat} {last : Except ConfigError (Option Value)}, k < n →
      calls = declines request (place + 1) k ++ [⟨place + 1 + k, request, last⟩] →
        ∃ k < n + 1, (⟨place, request, .ok none⟩ :: calls : List Asked) =
          declines request place k ++ [⟨place + k, request, last⟩] := by
    rintro k last hk rfl
    refine ⟨k + 1, Nat.succ_lt_succ hk, ?_⟩
    rw [declines_succ, List.cons_append, Nat.add_right_comm, Nat.add_assoc]
  cases r with
  | error e =>
    obtain ⟨k, hk, hCalls⟩ := h
    exact hShift hk hCalls
  | ok found =>
    cases found with
    | some a =>
      obtain ⟨k, hk, hCalls⟩ := h
      exact hShift hk hCalls
    | none =>
      have hCalls : calls = declines request (place + 1) n := h
      show _ = declines request place (n + 1)
      rw [hCalls, declines_succ]

theorem logs_asking (place : Nat) (r : Resolver σ) (request : Request) :
    Logs (fun calls result => calls = [⟨place, request, result⟩])
      ((r.beside (List Asked)).recording Asked.recorder place request) :=
  fun _ _ => ⟨_, rfl, rfl⟩

theorem logs_first (resolvers : List (Resolver σ)) (request : Request) : ∀ place : Nat,
    Logs (Answered request place resolvers.length)
      (Resolver.first (Resolver.askingFrom place resolvers) request) := by
  induction resolvers with
  | nil => exact fun place => .pure rfl
  | cons r rest ih =>
    intro place
    refine (logs_asking place r request).bind
      (R := fun found calls result => (∃ a, found = some a ∧ calls = [] ∧ result = .ok (some a)) ∨
        found = none ∧ Answered request (place + 1) rest.length calls result)
      (fun found => ?_) ?_ ?_
    · cases found with
      | some a => exact .pure (.inl ⟨a, rfl, rfl, rfl⟩)
      | none => exact (ih (place + 1)).mono fun calls result h => .inr ⟨rfl, h⟩
    · rintro calls e rfl
      exact ⟨0, Nat.succ_pos _, rfl⟩
    · rintro calls found more result rfl (⟨a, rfl, rfl, rfl⟩ | ⟨rfl, h⟩)
      · exact ⟨0, Nat.succ_pos _, rfl⟩
      · exact h.cons

-- ---------------------------------------------------------------------------
-- Bodies
-- ---------------------------------------------------------------------------

/-- What a body spells, and the calls by which its references got their values: those of the
references nested in one first, then those for what it spells then. -/
inductive Spells (n : Nat) (subject : Option Text) :
    List Piece → List Asked → List Fragment → Prop
  | nil : Spells n subject [] [] []
  | text {rest calls fragments} (chars : List Char) : Spells n subject rest calls fragments →
      Spells n subject (.text chars :: rest) calls (.text chars :: fragments)
  | colon {rest calls fragments} : Spells n subject rest calls fragments →
      Spells n subject (.colon :: rest) calls (.colon :: fragments)
  | lookup {body inner spelled asking found rest calls fragments} :
      Spells n subject body inner spelled →
      Answered (.ofFragments spelled subject) 0 n asking (.ok found) →
      Spells n subject rest calls fragments →
      Spells n subject (.lookup body :: rest) (inner ++ asking ++ calls) (.value found :: fragments)

theorem Spells.append {n : Nat} {subject : Option Text} {front back : List Piece}
    {calls more : List Asked} {fragments others : List Fragment}
    (h : Spells n subject front calls fragments) (hBack : Spells n subject back more others) :
    Spells n subject (front ++ back) (calls ++ more) (fragments ++ others) := by
  induction h with
  | nil => exact hBack
  | text chars _ ih => exact .text chars ih
  | colon _ ih => exact .colon ih
  | lookup hBody hAnswered _ _ ih =>
    rw [List.append_assoc _ _ more]
    exact .lookup hBody hAnswered ih

mutual

/-- The bodies of the references in a piece of a body, at all levels. -/
def pieceBodies : Piece → List (List Piece)
  | .text _ => []
  | .colon => []
  | .lookup body => body :: innerBodies body

/-- The bodies of the references nested in a body, at all levels. -/
def innerBodies : List Piece → List (List Piece)
  | [] => []
  | piece :: rest => pieceBodies piece ++ innerBodies rest

end

/-- The bodies of the references in a part of a template, at all levels. -/
def partBodies : Part → List (List Piece)
  | .literal _ => []
  | .reference body => body :: innerBodies body

/-- The bodies of the references in a template, at all levels. -/
def bodies (template : Template) : List (List Piece) := template.flatMap partBodies

/-- Behind the calls in `front`, the call was made for one of the bodies: the last calls there are
those by which the body came to spell its fragments, and those that declined what it spells. -/
def MadeFor (n : Nat) (subject : Option Text) (bodies : List (List Piece)) (front : List Asked)
    (call : Asked) : Prop :=
  ∃ body ∈ bodies, ∃ earlier during fragments,
    front = earlier ++ during ++ declines call.request 0 call.place ∧
      Spells n subject body during fragments ∧ call.request = .ofFragments fragments subject

/-- Calls account for a result. -/
structure Accounts (n : Nat) (subject : Option Text) (bodies : List (List Piece))
    (calls : List Asked) (r : Except ConfigError α) : Prop where
  /-- A failure is that of a call. -/
  fails : ∀ e, r = .error e ↔ ∃ call ∈ calls, call.result = .error e
  /-- Each call was made for one of the bodies. -/
  made : ∀ front call back, calls = front ++ call :: back → MadeFor n subject bodies front call

/-- A call in a row is one of the first part, or of what is behind that. -/
theorem call_of_append {calls others front back : List Asked} {call : Asked}
    (h : calls ++ others = front ++ call :: back) :
    (∃ between, calls = front ++ call :: between) ∨
      ∃ between, front = calls ++ between ∧ others = between ++ call :: back := by
  rcases List.append_eq_append_iff.1 h with ⟨between, rfl, hOthers⟩ | ⟨between, rfl, hRest⟩
  · exact .inr ⟨between, rfl, hOthers⟩
  · cases between with
    | nil => exact .inr ⟨[], by simp only [List.append_nil], hRest.symm⟩
    | cons first between =>
      cases hRest
      exact .inl ⟨between, rfl⟩

section

variable {n : Nat} {subject : Option Text} {bodies more : List (List Piece)}

theorem MadeFor.behind {front : List Asked} {call : Asked}
    (h : MadeFor n subject bodies front call) (earlier : List Asked) :
    MadeFor n subject bodies (earlier ++ front) call := by
  obtain ⟨body, hBody, before, during, fragments, rfl, hSpells, hRequest⟩ := h
  refine ⟨body, hBody, earlier ++ before, during, fragments, ?_, hSpells, hRequest⟩
  simp only [List.append_assoc]

theorem Accounts.nil (a : α) : Accounts n subject bodies [] (.ok a) where
  fails e := ⟨fun h => (by cases h), fun ⟨_, h, _⟩ => absurd h List.not_mem_nil⟩
  made front call back h := by cases front <;> cases h

theorem Accounts.mono {calls : List Asked} {r : Except ConfigError α}
    (h : Accounts n subject bodies calls r) (hBodies : bodies ⊆ more) :
    Accounts n subject more calls r where
  fails := h.fails
  made front call back hCalls :=
    (h.made front call back hCalls).imp fun _ hBody => ⟨hBodies hBody.1, hBody.2⟩

/-- Only how the result fails counts. -/
theorem Accounts.map {calls : List Asked} {r : Except ConfigError α}
    (h : Accounts n subject bodies calls r) (f : α → β) :
    Accounts n subject bodies calls (r.map f) where
  fails e := by
    rw [← h.fails e]
    cases r with
    | ok a => exact ⟨fun hError => (by cases hError), fun hError => (by cases hError)⟩
    | error e' => simp [Except.map]
  made := h.made

/-- Behind calls that account for a value, those count that follow. -/
theorem Accounts.behind {calls others : List Asked} {a : α} {r : Except ConfigError β}
    (h : Accounts n subject bodies calls (.ok a))
    (hFails : ∀ e, r = .error e ↔ ∃ call ∈ others, call.result = .error e)
    (hMade : ∀ between call back, others = between ++ call :: back →
      MadeFor n subject bodies (calls ++ between) call) :
    Accounts n subject bodies (calls ++ others) r where
  fails e := by
    rw [hFails e]
    constructor
    · exact fun ⟨call, hCall, hError⟩ => ⟨call, List.mem_append_right _ hCall, hError⟩
    · rintro ⟨call, hCall, hError⟩
      rcases List.mem_append.1 hCall with hCall | hCall
      · have hFailed : (.ok a : Except ConfigError α) = .error e :=
          (h.fails e).2 ⟨call, hCall, hError⟩
        cases hFailed
      · exact ⟨call, hCall, hError⟩
  made front call back hCalls := by
    rcases call_of_append hCalls with ⟨between, hFirst⟩ | ⟨between, rfl, hOthers⟩
    · exact h.made front call between hFirst
    · exact hMade between call back hOthers

theorem Accounts.append {calls others : List Asked} {a : α} {r : Except ConfigError β}
    (h : Accounts n subject bodies calls (.ok a)) (hMore : Accounts n subject bodies others r) :
    Accounts n subject bodies (calls ++ others) r :=
  h.behind hMore.fails fun between call back hOthers =>
    (hMore.made between call back hOthers).behind calls

end

-- ---------------------------------------------------------------------------
-- References
-- ---------------------------------------------------------------------------

/-- Who declined before stands at the places before. -/
theorem front_of_declines {request : Request} {n : Nat} {front back : List Asked} {call : Asked}
    (h : declines request 0 n = front ++ call :: back) :
    call.request = request ∧ front = declines request 0 call.place := by
  obtain ⟨before, rest, hRange, rfl, hRest⟩ := List.map_eq_append_iff.1 h
  obtain ⟨k, -, rfl, rfl⟩ := List.range'_eq_append_iff.1 hRange
  obtain ⟨place, after, hPlace, rfl, -⟩ := List.map_eq_cons_iff.1 hRest
  obtain ⟨rfl, -, -⟩ := List.range'_eq_cons_iff.1 hPlace
  refine ⟨rfl, ?_⟩
  rw [Nat.zero_add, Nat.mul_one]
  rfl

theorem front_of_last {request : Request} {k : Nat} {r : Except ConfigError (Option Value)}
    {front back : List Asked} {call : Asked}
    (h : declines request 0 k ++ [⟨k, request, r⟩] = front ++ call :: back) :
    call.request = request ∧ front = declines request 0 call.place := by
  rcases call_of_append h with ⟨between, hDeclined⟩ | ⟨between, rfl, hLast⟩
  · exact front_of_declines hDeclined
  · obtain ⟨rfl, hCall⟩ := List.append_eq_singleton_iff.1 hLast.symm |>.resolve_right (by simp)
    cases hCall
    exact ⟨rfl, List.append_nil _⟩

section

variable {n : Nat} {subject : Option Text} {bodies : List (List Piece)}

/-- Each call by which a chain is asked is one for the request, behind those at places before. -/
theorem Answered.front_eq {request : Request} {calls : List Asked}
    {r : Except ConfigError (Option Value)} (h : Answered request 0 n calls r)
    {front back : List Asked} {call : Asked} (hCalls : calls = front ++ call :: back) :
    call.request = request ∧ front = declines request 0 call.place := by
  cases r with
  | error e =>
    obtain ⟨k, -, hLast⟩ := h
    rw [Nat.zero_add] at hLast
    exact front_of_last (hLast.symm.trans hCalls)
  | ok found =>
    cases found with
    | some a =>
      obtain ⟨k, -, hLast⟩ := h
      rw [Nat.zero_add] at hLast
      exact front_of_last (hLast.symm.trans hCalls)
    | none => exact front_of_declines (h.symm.trans hCalls)

theorem Answered.fails_iff {request : Request} {place : Nat} {calls : List Asked}
    {r : Except ConfigError (Option Value)} (h : Answered request place n calls r)
    (e : ConfigError) : r = .error e ↔ ∃ call ∈ calls, call.result = .error e := by
  have hDeclines : ∀ k, ∀ call ∈ declines request place k, call.result = .ok none := by
    intro k call hCall
    obtain ⟨_, -, rfl⟩ := List.mem_map.1 hCall
    rfl
  have hLast : ∀ {k : Nat} {result : Except ConfigError (Option Value)},
      calls = declines request place k ++ [⟨place + k, request, result⟩] →
        (result = .error e ↔ ∃ call ∈ calls, call.result = .error e) := by
    rintro k result rfl
    constructor
    · exact fun hError => ⟨_, List.mem_append_right _ List.mem_cons_self, hError⟩
    · rintro ⟨call, hCall, hError⟩
      rcases List.mem_append.1 hCall with hCall | hCall
      · cases (hDeclines k call hCall).symm.trans hError
      · cases List.mem_singleton.1 hCall
        exact hError
  cases r with
  | error e' =>
    obtain ⟨k, -, hCalls⟩ := h
    rw [← hLast hCalls, Except.error.injEq]
  | ok found =>
    cases found with
    | some a =>
      obtain ⟨k, -, hCalls⟩ := h
      exact (iff_of_false (fun hError => by cases hError) fun hError => by cases hError).trans
        (hLast hCalls)
    | none =>
      have hCalls : calls = declines request place n := h
      refine ⟨fun hError => (by cases hError), fun ⟨call, hCall, hError⟩ => ?_⟩
      cases (hDeclines n call (hCalls ▸ hCall)).symm.trans hError

/-- Once a body spells something, asking for that is accounted for. -/
theorem Accounts.answered {body : List Piece} {inner asking : List Asked}
    {fragments : List Fragment} {r : Except ConfigError (Option Value)}
    (hBody : body ∈ bodies) (hInner : Accounts n subject bodies inner (.ok fragments))
    (hSpells : Spells n subject body inner fragments)
    (h : Answered (.ofFragments fragments subject) 0 n asking r) :
    Accounts n subject bodies (inner ++ asking) r := by
  refine hInner.behind h.fails_iff fun between call back hAsking => ?_
  obtain ⟨hRequest, hFront⟩ := h.front_eq hAsking
  exact ⟨body, hBody, [], inner, fragments, by rw [hRequest, ← hFront]; rfl, hSpells, hRequest⟩

end

-- ---------------------------------------------------------------------------
-- Texts
-- ---------------------------------------------------------------------------

section

variable {resolvers : List (Resolver σ)} {subject : Option Text}

/-- The first answer of the resolvers, where each call is kept. -/
abbrev askFirst (resolvers : List (Resolver σ)) : Resolver (σ × List Asked) :=
  Resolver.first (Resolver.askingFrom 0 resolvers)

/-- Given the account of the body, that of a reference: its calls are those of the body and those
for what this spells then. -/
theorem logs_lookup {body : List Piece}
    (h : Logs (fun calls r => Accounts resolvers.length subject (innerBodies body) calls r ∧
        ∀ fragments, r = .ok fragments → Spells resolvers.length subject body calls fragments)
      (evalPieces (askFirst resolvers) subject body)) :
    Logs (fun calls r => Accounts resolvers.length subject (body :: innerBodies body) calls r ∧
        ∀ found, r = .ok found → ∃ inner asking fragments, calls = inner ++ asking ∧
          Spells resolvers.length subject body inner fragments ∧
          Answered (.ofFragments fragments subject) 0 resolvers.length asking (.ok found))
      (lookup (askFirst resolvers) subject body) := by
  refine h.bind (fun fragments => logs_first resolvers (.ofFragments fragments subject) 0) ?_ ?_
  · rintro calls e ⟨hAccounts, -⟩
    exact ⟨(hAccounts.mono (List.subset_cons_self ..)).map (β := Option Value) fun _ => none,
      fun found hFound => by cases hFound⟩
  · rintro calls fragments asking r ⟨hAccounts, hSpells⟩ hAnswered
    have hSpells := hSpells fragments rfl
    refine ⟨.answered List.mem_cons_self (hAccounts.mono (List.subset_cons_self ..)) hSpells
      hAnswered, ?_⟩
    rintro found rfl
    exact ⟨calls, asking, fragments, rfl, hSpells, hAnswered⟩

theorem evalPiece_lookup (ask : Resolver σ) (body : List Piece) :
    evalPiece ask subject (.lookup body) = Fragment.value <$> lookup ask subject body := by
  rw [evalPiece, lookup, map_eq_pure_bind, bind_assoc]

theorem evalPieces_cons (ask : Resolver σ) (piece : Piece) (rest : List Piece) :
    evalPieces ask subject (piece :: rest) = evalPiece ask subject piece >>= fun fragment =>
      (fragment :: ·) <$> evalPieces ask subject rest := by
  rw [evalPieces]
  simp only [map_eq_pure_bind]

mutual

theorem logs_evalPiece : ∀ piece : Piece,
    Logs (fun calls r => Accounts resolvers.length subject (pieceBodies piece) calls r ∧
        ∀ fragment, r = .ok fragment → Spells resolvers.length subject [piece] calls [fragment])
      (evalPiece (askFirst resolvers) subject piece)
  | .text chars => .pure ⟨.nil _, fun _ h => (by cases h; exact .text chars .nil)⟩
  | .colon => .pure ⟨.nil _, fun _ h => (by cases h; exact .colon .nil)⟩
  | .lookup body => by
    rw [evalPiece_lookup]
    refine (logs_lookup (logs_evalPieces body)).map Fragment.value fun calls r h => ?_
    refine ⟨h.1.map _, fun fragment hFragment => ?_⟩
    cases r with
    | error e => cases hFragment
    | ok found =>
      cases hFragment
      obtain ⟨inner, asking, fragments, rfl, hSpells, hAnswered⟩ := h.2 found rfl
      rw [← List.append_nil (inner ++ asking)]
      exact .lookup hSpells hAnswered .nil

theorem logs_evalPieces : ∀ body : List Piece,
    Logs (fun calls r => Accounts resolvers.length subject (innerBodies body) calls r ∧
        ∀ fragments, r = .ok fragments → Spells resolvers.length subject body calls fragments)
      (evalPieces (askFirst resolvers) subject body)
  | [] => .pure ⟨.nil _, fun _ h => (by cases h; exact .nil)⟩
  | piece :: rest => by
    rw [evalPieces_cons]
    refine (logs_evalPiece piece).bind (fun fragment => (logs_evalPieces rest).map (fragment :: ·)
      (Q := fun calls r => Accounts resolvers.length subject (innerBodies rest) calls r ∧
        ∀ fragments, r = .ok fragments → ∃ others, fragments = fragment :: others ∧
          Spells resolvers.length subject rest calls others) fun calls r h => ?_) ?_ ?_
    · refine ⟨h.1.map _, fun fragments hFragments => ?_⟩
      cases r with
      | error e => cases hFragments
      | ok others =>
        cases hFragments
        exact ⟨others, rfl, h.2 others rfl⟩
    · rintro calls e ⟨hAccounts, -⟩
      exact ⟨(hAccounts.mono (List.subset_append_left ..)).map (β := List Fragment) fun _ => [],
        fun fragments hFragments => by cases hFragments⟩
    · rintro calls fragment more r ⟨hFirst, hSpells⟩ ⟨hRest, hOthers⟩
      refine ⟨.append (hFirst.mono (List.subset_append_left ..))
        (hRest.mono (List.subset_append_right ..)), fun fragments hFragments => ?_⟩
      obtain ⟨others, rfl, hMore⟩ := hOthers fragments hFragments
      exact (hSpells fragment rfl).append hMore

end

theorem logs_evalPart (part : Part) :
    Logs (fun calls r => Accounts resolvers.length subject (partBodies part) calls r)
      (evalPart (askFirst resolvers) subject part) := by
  cases part with
  | literal chars => exact .pure (.nil _)
  | reference body =>
    have hMap : evalPart (askFirst resolvers) subject (.reference body) =
        (fun found => (found.map Value.render).getD "") <$>
          lookup (askFirst resolvers) subject body := by
      rw [map_eq_pure_bind]
      rfl
    rw [hMap]
    exact (logs_lookup (logs_evalPieces body)).map _ fun calls r h => h.1.map _

theorem logs_evalParts (parts : Template) :
    Logs (fun calls r => Accounts resolvers.length subject (bodies parts) calls r)
      (evalParts (askFirst resolvers) subject parts) := by
  induction parts with
  | nil => exact .pure (.nil _)
  | cons part rest ih =>
    have hRest : ∀ text : String,
        Logs (fun calls r => Accounts resolvers.length subject (bodies rest) calls r)
          (evalParts (askFirst resolvers) subject rest >>= fun texts => pure (text :: texts)) := by
      intro text
      rw [← map_eq_pure_bind]
      exact ih.map _ fun calls r h => h.map _
    rw [evalParts, bodies, List.flatMap_cons]
    refine (logs_evalPart part).bind hRest ?_ ?_
    · intro calls e h
      exact (h.mono (List.subset_append_left ..)).map (β := List String) fun _ => []
    · intro calls text more r hFirst hMore
      exact .append (hFirst.mono (List.subset_append_left ..))
        (hMore.mono (List.subset_append_right ..))

theorem logs_eval (template : Template) :
    Logs (fun calls r => Accounts resolvers.length subject (bodies template) calls r)
      (eval (askFirst resolvers) subject template) := by
  rw [eval.eq_def]
  split
  · rename_i body
    show Logs _ (lookup (askFirst resolvers) subject body >>= _)
    rw [← map_eq_pure_bind, bodies, List.flatMap_singleton]
    exact (logs_lookup (logs_evalPieces body)).map _ fun calls r h => h.1.map _
  · show Logs _ (evalParts (askFirst resolvers) subject template >>= _)
    rw [← map_eq_pure_bind (fun texts => Value.ofString (String.join texts))]
    exact (logs_evalParts template).map _ fun calls r h => h.map _

/-- The calls that a text makes, unless it is malformed, account for what comes of it. -/
theorem accounts_interpolate {text : String} {template : Template}
    (h : parse text = .ok template) (resolvers : List (Resolver σ)) (subject : Option Text)
    (s : σ) : Accounts resolvers.length subject (bodies template) (calls resolvers subject text s)
      ((interpolate resolvers subject text).run s).1 := by
  have hLogs : Logs (Accounts resolvers.length subject (bodies template))
      (eval (askFirst resolvers) subject template) := logs_eval template
  obtain ⟨more, hCalls, hAccounts⟩ := hLogs s []
  rw [← interpolate_of_parse h, run_asking] at hCalls hAccounts
  obtain rfl : calls resolvers subject text s = more := hCalls
  exact hAccounts

/-- A text that is one reference makes the calls of the body and those for what this spells, and is
what comes of these. -/
theorem calls_of_reference {text : String} {body : List Piece}
    (h : parse text = .ok [.reference body]) {s : σ} {v : Value}
    (hValue : ((interpolate resolvers subject text).run s).1 = .ok v) :
    ∃ inner asking fragments found, calls resolvers subject text s = inner ++ asking ∧
      Spells resolvers.length subject body inner fragments ∧
      Answered (.ofFragments fragments subject) 0 resolvers.length asking (.ok found) ∧
      v = found.getD (Value.ofString "") := by
  have hLogs : Logs (fun calls r => ∀ v, r = .ok v → ∃ inner asking fragments found,
        calls = inner ++ asking ∧ Spells resolvers.length subject body inner fragments ∧
        Answered (.ofFragments fragments subject) 0 resolvers.length asking (.ok found) ∧
        v = found.getD (Value.ofString ""))
      ((fun found => found.getD (Value.ofString "")) <$>
        lookup (askFirst resolvers) subject body) := by
    refine (logs_lookup (logs_evalPieces body)).map _ fun calls r hLookup v hv => ?_
    cases r with
    | error e => cases hv
    | ok found =>
      cases hv
      obtain ⟨inner, asking, fragments, hCalls, hSpells, hAnswered⟩ := hLookup.2 found rfl
      exact ⟨inner, asking, fragments, found, hCalls, hSpells, hAnswered, rfl⟩
  obtain ⟨more, hCalls, hMore⟩ := hLogs s []
  rw [← eval_reference, ← interpolate_of_parse h, run_asking] at hCalls hMore
  obtain rfl : calls resolvers subject text s = more := hCalls
  exact hMore v hValue

end

end Template

end LayeredConfig
