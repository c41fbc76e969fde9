import LayeredConfig.Expansion.Session
import LayeredConfig.Pattern.Paths
import LayeredConfig.Template.Evaluation

/-!
# LayeredConfig — resolving leaves

A leaf is resolved when it is first needed, and its value is kept. To resolve
it is to interpolate its text with a chain of resolvers. One of these, the
scope, looks into the tree itself and so resolves further leaves. A leaf that
is requested while it is under evaluation depends on itself.

What looks into the tree is told how to resolve the leaves it meets. Each
evaluation within another has one leaf fewer to start, so the number of leaves
bounds how deep evaluations are nested, and `resolve` recurses on that number.

* `ExpansionRules` — what the client decides.
* `select`         — the draft that a pattern names.
* `complete`       — the value of a draft.
* `resolve`        — the value of a leaf.
-/

namespace LayeredConfig

/-- How a tree is expanded. -/
structure ExpansionRules (σ : Type) where
  /-- Asked before anything else. -/
  resolvers : List (Resolver σ)
  /-- Asked when all else has declined. -/
  defaultResolvers : List (Resolver σ)
  /-- References to paths in the tree are resolved. -/
  expandVars : Bool
  /-- References to environment variables are resolved. -/
  expandEnv : Bool
  /-- A reference that nobody answers leaves nothing. -/
  allowUndefined : Bool
  env : EnvLookup

namespace Expansion

/-- Gives the value of a leaf. -/
abbrev LeafResolver (σ : Type) := Leaf → Eval (Session σ) Value

-- ---------------------------------------------------------------------------
-- Looking into a draft
-- ---------------------------------------------------------------------------

/-- What the segments lead to. A leaf met before the end is resolved, and the
way goes on in its value; one at the end is left as it is. -/
def follow (resolveLeaf : LeafResolver σ) :
    KeyPath → Draft → Eval (Session σ) (Option Draft)
  | [], draft => pure (some draft)
  | segment :: rest, .leaf (.deferred leaf) => do
    let v ← resolveLeaf leaf
    return (Tree.follow? v (segment :: rest)).map Draft.known
  | segment :: rest, draft =>
    match draft.child? segment with
    | none => pure none
    | some below => follow resolveLeaf rest below

/-- The draft at a path with at least one segment. -/
def find (resolveLeaf : LeafResolver σ) (root : Draft) (path : KeyPath) :
    Eval (Session σ) (Option Draft) :=
  if path.isEmpty then pure none else follow resolveLeaf path root

/-- The drafts at all paths of a pattern, merged. A leaf not resolved by then
is merged as a whole. -/
def select (resolveLeaf : LeafResolver σ) (root : Draft) (pattern : Pattern) :
    Eval (Session σ) (Option Draft) := do
  let found ← pattern.mapPaths (find resolveLeaf root)
  let history ← Session.currentHistory
  let settled := found.map (Option.map (Draft.settle (fun leaf => history.value? leaf.location)))
  return Tree.mergeWith Draft.isDeferred settled

/-- The value of a cell. -/
def completeCell (resolveLeaf : LeafResolver σ) : Cell → Eval (Session σ) Value
  | .known s => pure (.leaf s)
  | .deferred leaf => resolveLeaf leaf

/-- The value of a draft: all its leaves resolved, entries in key order and
items from the left. -/
def complete (resolveLeaf : LeafResolver σ) (draft : Draft) : Eval (Session σ) Value :=
  draft.graftM (completeCell resolveLeaf)

/-- The value at a pattern. -/
def valueAt (resolveLeaf : LeafResolver σ) (root : Draft) (pattern : Pattern) :
    Eval (Session σ) (Option Value) := do
  match ← select resolveLeaf root pattern with
  | none => pure none
  | some draft => some <$> complete resolveLeaf draft

-- ---------------------------------------------------------------------------
-- The chain of resolvers
-- ---------------------------------------------------------------------------

/-- Answers patterns with what they name in the tree. Calls are declined, and
so is text that is no pattern. -/
def scope (resolveLeaf : LeafResolver σ) (root : Draft) : Resolver (Session σ) :=
  fun request =>
    if request.call.isSome then pure none
    else
      match Pattern.parse request.expression with
      | .error _ => pure none
      | .ok pattern => valueAt resolveLeaf root pattern

/-- A client's resolver. -/
def ofClient (resolver : Resolver σ) : Resolver (Session σ) :=
  fun request => Session.onClient (resolver request)

/-- The resolvers for a leaf, in the order they are asked. -/
def chain (rules : ExpansionRules σ) (scope : Resolver (Session σ)) (leaf : Leaf) :
    List (Resolver (Session σ)) :=
  rules.resolvers.map ofClient
    ++ [Resolver.path]
    ++ (if rules.expandEnv then [Resolver.envFunction rules.env] else [])
    ++ (if rules.expandVars then [scope] else [])
    ++ (if rules.expandEnv then [Resolver.envVariable rules.env] else [])
    ++ rules.defaultResolvers.map ofClient
    ++ (if rules.allowUndefined then [] else [Resolver.reject (some leaf.originPath)])

-- ---------------------------------------------------------------------------
-- Resolving
-- ---------------------------------------------------------------------------

/-- A text that a leaf evaluates to has the origin of the leaf. -/
def withOriginOf (leaf : Leaf) : Value → Value
  | .leaf (.text t) => .leaf (.text (leaf.raw.withText t.text))
  | v => v

/-- Evaluates a leaf and records how that went: resolved for good, or pending
again after an error. -/
def evaluate (x : Eval (Session σ) Value) (trigger : Option Location) (leaf : Leaf) :
    Eval (Session σ) Value := do
  Session.record leaf.location (.evaluating trigger)
  match ← x.attempt with
  | .error e =>
    Session.record leaf.location .pending
    Eval.fail e
  | .ok v =>
    let v := withOriginOf leaf v
    Session.record leaf.location (.resolved v)
    pure v

/-- The error for a leaf that was come back to. -/
def circular (trigger : Option Location) (leaf : Leaf) : Eval (Session σ) Value := do
  let history ← Session.currentHistory
  Eval.fail (.circularReference (history.cycleTrace trigger leaf.location))

/-- The value of a leaf: the one it has, or the one that `x` gives. -/
def request (x : Eval (Session σ) Value) (trigger : Option Location) (leaf : Leaf) :
    Eval (Session σ) Value := do
  let history ← Session.currentHistory
  match history.progress leaf.location with
  | .resolved v => pure v
  | .evaluating _ => circular trigger leaf
  | .pending => evaluate x trigger leaf

/-- The value of a leaf, where at most `depth` leaves are not yet under
evaluation. `trigger` is the leaf that requests it, if one does. With all the
leaves under evaluation none can be pending. -/
def resolve (rules : ExpansionRules σ) (root : Draft) :
    Nat → Option Location → LeafResolver σ
  | 0, trigger => fun leaf => request (circular trigger leaf) trigger leaf
  | depth + 1, trigger => fun leaf =>
    let inner := resolve rules root depth (some leaf.location)
    let resolvers := chain rules (scope inner root) leaf
    request (Template.interpolate resolvers (some leaf.raw) leaf.raw.text) trigger leaf

end Expansion

end LayeredConfig
