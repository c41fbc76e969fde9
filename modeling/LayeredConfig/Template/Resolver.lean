import LayeredConfig.Eval
import LayeredConfig.Value.Render

/-!
# LayeredConfig — resolvers

A resolver is asked for the value of an expression. It answers, declines, or
fails. Resolvers stand in a chain: the first answer counts.

* `Request`           — what a resolver is told.
* `Resolver`          — the type.
* `Resolver.first`    — the first answer of a chain.
* `Resolver.path`, `Resolver.envFunction`, `Resolver.envVariable`,
  `Resolver.reject`   — the resolvers that come with the library.
-/

namespace LayeredConfig

/-- A call `name:argument` inside a reference. -/
structure Call where
  name : String
  arg : Value

/-- What a resolver is told. -/
structure Request where
  /-- The expression in full. -/
  expression : String
  /-- The call that the expression has the shape of, if any. -/
  call : Option Call
  /-- The text that is being interpolated, if it is known. -/
  subject : Option Text

/-- Answers a request with a value, or declines it. -/
abbrev Resolver (σ : Type) := Request → Eval σ (Option Value)

/-- Values of environment variables. -/
abbrev EnvLookup := String → Option String

namespace Request

/-- The argument, if the request is a call of the function. -/
def callOf? (request : Request) (name : String) : Option Value :=
  match request.call with
  | some call => if call.name = name then some call.arg else none
  | none => none

end Request

namespace Resolver

/-- The first answer of a chain; the resolvers behind it are not asked. -/
def first (chain : List (Resolver σ)) (request : Request) : Eval σ (Option Value) :=
  match chain with
  | [] => pure none
  | resolver :: rest => do
    match ← resolver request with
    | some value => pure (some value)
    | none => first rest request

/-- Declines everything. -/
def silent : Resolver σ := fun _ => pure none

/-- The path name that `path:` makes of its argument: an annotated text is
taken relative to its own origin, anything else relative to the origin of the
text that is being interpolated. -/
def pathOf (arg : Value) (subject : Option Text) : String :=
  match Value.text? arg with
  | some ⟨text, some dir⟩ => Path.join dir text
  | _ =>
    match subject.bind (·.origin) with
    | some dir => Path.join dir (Value.render arg)
    | none => Value.render arg

/-- `${path:…}`: a path name. -/
def path : Resolver σ := fun request =>
  pure ((request.callOf? "path").map (fun arg => Value.ofString (pathOf arg request.subject)))

/-- `${env:NAME}`: an environment variable. -/
def envFunction (env : EnvLookup) : Resolver σ := fun request =>
  pure ((request.callOf? "env").bind (fun arg => (env (Value.render arg)).map Value.ofString))

/-- `${NAME}`: an environment variable. -/
def envVariable (env : EnvLookup) : Resolver σ := fun request =>
  pure (if request.call.isSome then none else (env request.expression).map Value.ofString)

/-- Refuses every expression as undefined. -/
def reject (origin : Option String) : Resolver σ := fun request =>
  Eval.fail (.undefinedVariable request.expression origin)

end Resolver

end LayeredConfig
