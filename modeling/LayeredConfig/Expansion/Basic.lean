import LayeredConfig.Expansion.Resolution

/-!
# LayeredConfig — expansions

An expansion holds a tree whose texts are interpolated as they are needed. Its
calls share a session: what one call has resolved the next one finds.

* `Expansion.get` — the value at a pattern.
* `Expansion.all` — the value of the whole tree.
* `Value.get`     — the value at a pattern of a tree that needs no expansion.
* `Value.expand`  — a tree expanded in a session of its own.
-/

namespace LayeredConfig

/-- A tree being expanded, and how. -/
structure Expansion (σ : Type) where
  root : Draft
  rules : ExpansionRules σ

namespace Expansion

/-- The expansion of a tree. -/
def ofValue (tree : Value) (rules : ExpansionRules σ) : Expansion σ :=
  ⟨Draft.ofValue tree, rules⟩

/-- The value of a leaf that a call requests. -/
def resolveLeaf (x : Expansion σ) : LeafResolver σ :=
  resolve x.rules x.root x.root.deferredLeaves.length none

/-- The value at a pattern, fully resolved. -/
def get (x : Expansion σ) (spec : String) : Eval (Session σ) (Option Value) :=
  match Pattern.parse spec with
  | .error reason => Eval.fail (.badPattern reason)
  | .ok pattern => valueAt x.resolveLeaf x.root pattern

/-- The value of the whole tree. -/
def all (x : Expansion σ) : Eval (Session σ) Value :=
  complete x.resolveLeaf x.root

end Expansion

namespace Value

/-- The value at a pattern: what its paths lead to, merged. -/
def get (tree : Value) (spec : String) : Except ConfigError (Option Value) :=
  match Pattern.parse spec with
  | .error reason => .error (.badPattern reason)
  | .ok pattern => .ok (Tree.merge (pattern.paths.map tree.get?))

/-- The tree with every reference expanded. -/
def expand (tree : Value) (rules : ExpansionRules σ) : Eval σ Value := fun client =>
  let (r, session) := (Expansion.ofValue tree rules).all.run (Session.start client)
  (r, session.client)

end Value

end LayeredConfig
