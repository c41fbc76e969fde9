import LayeredConfig.Json.Basic
import LayeredConfig.Toml.Basic

/-!
# LayeredConfig — decoding

A decoder takes a value of some type from a tree, or refuses it. It sees the
trees of all formats alike, as `Data`.

A record is decoded from a table, by the names of its fields and with other
keys ignored, or from a sequence, by their order and with nothing left over.

* `Data`    — what decoders read.
* `Decoder` — the type, with decoders for texts, numbers and so on.
* `Record`  — the fields of a record.
-/

namespace LayeredConfig

/-- What a scalar is to a decoder. -/
inductive Datum where
  | null
  | bool (b : Bool)
  | integer (n : Int)
  | text (s : String)
  /-- A scalar that fits no decoder. -/
  | other
  deriving DecidableEq, Repr

/-- A tree that a decoder reads. -/
abbrev Data := Tree Datum

namespace Datum

/-- A JSON scalar. -/
def ofJson : JsonScalar → Datum
  | .null => null
  | .bool b => bool b
  | .integer n => integer n
  | .float _ => other
  | .string s => text s

/-- A TOML scalar. -/
def ofToml : TomlScalar → Datum
  | .string s => text s
  | .integer i => integer i.toInt
  | .float _ => other
  | .boolean b => bool b
  | .datetime _ => other

end Datum

/-- Takes a value from a tree, or refuses it. -/
abbrev Decoder (α : Type) := Data → Option α

namespace Decoder

/-- A text. -/
def text : Decoder String
  | .leaf (.text s) => some s
  | _ => none

/-- A boolean. -/
def bool : Decoder Bool
  | .leaf (.bool b) => some b
  | _ => none

/-- A natural number below a limit. -/
def natural (limit : Nat) : Decoder Nat
  | .leaf (.integer n) => if 0 ≤ n ∧ n < limit then some n.toNat else none
  | _ => none

/-- Nothing for null, and a value otherwise. -/
def nullable (d : Decoder α) : Decoder (Option α)
  | .leaf .null => some none
  | data => (d data).map some

/-- A table whose values are all alike. -/
def tableOf (d : Decoder α) : Decoder (Fields α)
  | .table entries => entries.mapM (fun (key, data) => (d data).map (Prod.mk key))
  | _ => none

end Decoder

/-- The fields of a record, in the order they are declared. -/
structure Record where
  /-- Whether the fields are told apart by their order. -/
  positional : Bool
  fields : List (Option Data)

namespace Record

/-- The fields of a record with these names. -/
def ofNames (names : List String) : Decoder Record
  | .table entries => some ⟨false, names.map (Fields.get? entries)⟩
  | .seq items =>
    if items.length ≤ names.length then some ⟨true, items.map some⟩ else none
  | .leaf _ => none

/-- The field at an index, or `missing` if it is not there. -/
def field (record : Record) (i : Nat) (d : Decoder α) (missing : Option α) : Option α :=
  match record.fields[i]?.join with
  | some data => d data
  | none => missing

end Record

end LayeredConfig
