import LayeredConfig.Decode
import LayeredConfig.Expansion.Basic

/-!
# LayeredConfig — configurations

An expanded configuration is looked into with patterns, and decoded.

* `Configuration.get`       — the value at a pattern.
* `Configuration.pathnames` — the texts at a pattern as path names.
* `Configuration.decode`    — the whole tree, decoded.
-/

namespace LayeredConfig

/-- An expanded configuration. -/
structure Configuration where
  value : Value

namespace Configuration

/-- The value at a pattern: what its paths lead to, merged. -/
def get (tree : Configuration) (spec : String) : Except ConfigError (Option Value) :=
  Value.get tree.value spec

/-- The texts at a pattern as path names, each relative to where it came
from: a text, or the texts among the items of a sequence. -/
def pathnames (tree : Configuration) (spec : String) : Except ConfigError (List String) := do
  match ← tree.get spec with
  | some (.leaf (.text t)) => return [t.pathname]
  | some (.seq items) => return (items.filterMap Value.text?).map Text.pathname
  | _ => return []

/-- The tree as a decoder reads it. -/
def data (tree : Configuration) : Data := (Value.toJson tree.value).map Datum.ofJson

/-- The whole tree, decoded. -/
def decode (tree : Configuration) (d : Decoder α) : Except ConfigError α :=
  match d tree.data with
  | some a => .ok a
  | none => .error .undecodable

end Configuration

end LayeredConfig
