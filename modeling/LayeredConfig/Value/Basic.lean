import LayeredConfig.Text
import LayeredConfig.Tree.Path

/-!
# LayeredConfig — values

A value is a tree of scalars: null, booleans, whole numbers of 64 bits,
floats, and texts.

* `Value.annotate` — gives every text of the tree an origin.
* `Value.same`     — equality of values: floats compare as numbers, so a tree
  that holds a NaN differs from itself, and directories compare by their
  components.
-/

namespace LayeredConfig

/-- A value without parts. -/
inductive Scalar where
  | null
  | bool (b : Bool)
  | integer (i : Int64)
  | float (x : Float)
  | text (t : Text)
  deriving DecidableEq

/-- A configuration tree. -/
abbrev Value := Tree Scalar

namespace Scalar

/-- The text with an origin, where the scalar is a text. -/
def annotate (dir : String) : Scalar → Scalar
  | text t => text (t.annotate dir)
  | s => s

/-- The scalars are equal: floats as numbers, texts up to the spelling of
their directories. -/
def same : Scalar → Scalar → Bool
  | null, null => true
  | bool a, bool b => a == b
  | integer a, integer b => a == b
  | float a, float b => a == b
  | text a, text b => a.same b
  | _, _ => false

end Scalar

namespace Value

/-- A plain text. -/
def ofString (s : String) : Value := .leaf (.text (Text.plain s))

/-- The text that the value is. -/
def text? : Value → Option Text
  | .leaf (.text t) => some t
  | _ => none

/-- The characters of the text that the value is. -/
def string? (v : Value) : Option String := (text? v).map (·.text)

/-- The value with `dir` as the origin of every text that has none. -/
def annotate (dir : String) (v : Value) : Value := v.map (Scalar.annotate dir)

mutual

/-- The values are equal. -/
def same : Value → Value → Bool
  | .leaf a, .leaf b => a.same b
  | .seq as, .seq bs => sameItems as bs
  | .table as, .table bs => sameEntries as bs
  | _, _ => false

def sameItems : List (Tree Scalar) → List (Tree Scalar) → Bool
  | [], [] => true
  | a :: as, b :: bs => same a b && sameItems as bs
  | _, _ => false

def sameEntries : List (String × Tree Scalar) → List (String × Tree Scalar) → Bool
  | [], [] => true
  | (k, a) :: as, (l, b) :: bs => k == l && same a b && sameEntries as bs
  | _, _ => false

end

end Value

end LayeredConfig
