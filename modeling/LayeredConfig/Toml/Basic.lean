import LayeredConfig.Toml.DateTime
import LayeredConfig.Tree.Basic

/-!
# LayeredConfig — TOML documents

A document is a table; what it holds is a tree of TOML's scalars. The entries
of a table stand in the order they are written, each key once.
-/

namespace LayeredConfig

/-- A TOML value without parts. -/
inductive TomlScalar where
  | string (s : String)
  | integer (i : Int64)
  | float (x : Float)
  | boolean (b : Bool)
  | datetime (t : DateTime)
  deriving DecidableEq

/-- A TOML value; the entries of a table are in the order they are written. -/
abbrev Toml := Tree TomlScalar

end LayeredConfig
