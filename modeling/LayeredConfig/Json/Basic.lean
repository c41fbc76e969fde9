import LayeredConfig.Tree.Basic

/-!
# LayeredConfig — JSON documents

A document is a tree of JSON's scalars. Numbers written without fraction and
exponent are kept as whole numbers, all others as floats.
-/

namespace LayeredConfig

/-- A JSON value without parts. -/
inductive JsonScalar where
  | null
  | bool (b : Bool)
  | integer (n : Int)
  | float (x : Float)
  | string (s : String)
  deriving DecidableEq

/-- A JSON document; the members of an object are in key order. -/
abbrev Json := Tree JsonScalar

end LayeredConfig
