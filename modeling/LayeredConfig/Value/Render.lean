import LayeredConfig.Value.Basic
import LayeredConfig.Json.Writer

/-!
# LayeredConfig — values as documents and as text

A value can be taken as a JSON document and made from one, and it has a text:
the one that stands in its place when it is put inside another text.

* `Value.toJson` — the document; origins are lost, and floats that are not
  finite become null.
* `Value.ofJson` — the value; whole numbers beyond 64 bits become floats.
* `Value.render` — the text: a text is its own, a scalar has its usual
  spelling, and anything larger is written as JSON.
-/

namespace LayeredConfig

namespace Scalar

/-- The scalar in a JSON document. -/
def toJson : Scalar → JsonScalar
  | null => .null
  | bool b => .bool b
  | integer i => .integer i.toInt
  | float x => if x.isFinite then .float x else .null
  | text t => .string t.text

/-- The scalar that stands in a JSON document. -/
def ofJson : JsonScalar → Scalar
  | .null => null
  | .bool b => bool b
  | .integer n =>
    if Int64.minValue.toInt ≤ n ∧ n ≤ Int64.maxValue.toInt then integer (Int64.ofInt n)
    else float (Float.ofInt n)
  | .float x => float x
  | .string s => text (Text.plain s)

/-- Floats inside a text: positional, with no more than the digits needed, a
tie going up. -/
def numbers : Layout :=
  { tie := .up
    positionalFrom := none
    positionalBelow := none
    integralEnd := "" }

/-- The text of a float. -/
def renderFloat (x : Float) : String :=
  match FloatParts.ofFloat x with
  | .nan => "NaN"
  | .infinite false => "inf"
  | .infinite true => "-inf"
  | .finite negative magnitude => numbers.signed negative magnitude

/-- The text of a scalar. -/
def render : Scalar → String
  | null => "null"
  | bool true => "true"
  | bool false => "false"
  | integer i => toString i.toInt
  | float x => renderFloat x
  | text t => t.text

end Scalar

namespace Value

/-- The value as a JSON document. -/
def toJson (v : Value) : Json := v.map Scalar.toJson

/-- The value that a JSON document holds. -/
def ofJson (d : Json) : Value := d.map Scalar.ofJson

/-- The JSON text of the value. -/
def writeJson (v : Value) : String := Json.write (toJson v)

/-- The text of the value. -/
def render : Value → String
  | .leaf s => s.render
  | v => writeJson v

end Value

end LayeredConfig
