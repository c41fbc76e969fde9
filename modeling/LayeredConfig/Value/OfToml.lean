import LayeredConfig.Toml.Basic
import LayeredConfig.Value.Basic

/-!
# LayeredConfig — values from TOML

A TOML document is taken as a value. It has no place for dates and times, so
these become their text.

A table below the root is a date-time in disguise where its first entry has
the reserved key `Toml.dateTimeKey`. That entry has to be a string that writes
a date-time, or the document has no value; the other entries do not count.

* `Value.ofToml?` — the value that a document holds.
-/

namespace LayeredConfig

namespace Toml

/-- The key that makes a date-time of a table. -/
def dateTimeKey : String := "$__toml_private_datetime"

/-- What stands at the reserved key, if the first entry has it. -/
def disguised? : List (String × Toml) → Option Toml
  | (key, t) :: _ => if key = dateTimeKey then some t else none
  | [] => none

/-- The date-time that a string writes. -/
def dateTime? : Toml → Option DateTime
  | .leaf (.string s) => DateTime.ofString? s
  | _ => none

end Toml

namespace Scalar

/-- The scalar that stands in a TOML document. -/
def ofToml : TomlScalar → Scalar
  | .string s => text (Text.plain s)
  | .integer i => integer i
  | .float x => float x
  | .boolean b => bool b
  | .datetime t => text (Text.plain t.written)

end Scalar

namespace Value

mutual

/-- The value of what stands in a document. -/
def ofTomlPart? : Toml → Option Value
  | .leaf s => some (.leaf (Scalar.ofToml s))
  | .seq items => do return .seq (← ofTomlItems? items)
  | .table entries =>
    match Toml.disguised? entries with
    | some t => (Toml.dateTime? t).map (fun d => .leaf (Scalar.ofToml (.datetime d)))
    | none => do return .table (Fields.ofList (← ofTomlEntries? entries))

def ofTomlItems? : List (Tree TomlScalar) → Option (List (Tree Scalar))
  | [] => some []
  | t :: rest => do
    let first ← ofTomlPart? t
    return first :: (← ofTomlItems? rest)

def ofTomlEntries? : List (String × Tree TomlScalar) → Option (List (String × Tree Scalar))
  | [] => some []
  | (key, t) :: rest => do
    let first ← ofTomlPart? t
    return (key, first) :: (← ofTomlEntries? rest)

end

/-- The value that a TOML document holds; its root is always a table. -/
def ofToml? : Toml → Option Value
  | .table entries => do return .table (Fields.ofList (← ofTomlEntries? entries))
  | t => ofTomlPart? t

end Value

end LayeredConfig
