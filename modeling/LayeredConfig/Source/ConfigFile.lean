import LayeredConfig.Error
import LayeredConfig.Json.Reader
import LayeredConfig.Source.FileSystem
import LayeredConfig.Source.Layer
import LayeredConfig.Toml.Reader
import LayeredConfig.Value.OfToml
import LayeredConfig.Value.Render

/-!
# LayeredConfig — configuration files

A file is read in the format that its extension names.

* `Format`            — the formats.
* `loadFile`          — the value in a file.
* `ConfigFile.layers` — the file as a layer.
-/

namespace LayeredConfig

/-- A file format. -/
inductive Format where
  | json
  | toml
  deriving DecidableEq, Repr

namespace Format

/-- Every format, in the order of their extensions. -/
def all : List Format := [json, toml]

/-- The extension of the format's files. -/
def extension : Format → String
  | json => "json"
  | toml => "toml"

/-- The format that a path's extension names. -/
def ofPath? (path : String) : Option Format :=
  (Path.extension? path).bind (fun ext => all.find? (fun format => format.extension == ext))

/-- The value that a text holds in the format. -/
def parse? : Format → String → Option Value
  | json, text => (Json.parse? text).map Value.ofJson
  | toml, text => (Toml.parse? text).bind Value.ofToml?

/-- The error for a file that is not well formed. -/
def malformed : Format → String → ConfigError
  | json, path => .malformedJson path
  | toml, path => .malformedToml path

end Format

/-- The value in a file. A missing one has none, unless it is required. -/
def loadFile (fs : FileSystem) (path : String) (required : Bool) :
    Except ConfigError (Option Value) :=
  match Format.ofPath? path with
  | none => .error (.unsupportedFormat path)
  | some format =>
    match fs.readText path with
    | .error .missing => if required then .error (.fileNotFound path) else .ok none
    | .error .unreadable => .error (.unreadableFile path)
    | .ok text =>
      match format.parse? text with
      | some v => .ok (some v)
      | none => .error (format.malformed path)

/-- A file that is a source. -/
structure ConfigFile where
  path : String
  required : Bool

namespace ConfigFile

/-- The directory that a file's texts come from. -/
def containingDir (path : String) : String :=
  match Path.parent? path with
  | none => "."
  | some "" => "."
  | some dir => dir

/-- The file as a layer, if it is there. -/
def layers (file : ConfigFile) (fs : FileSystem) : Except ConfigError (List Layer) := do
  match ← loadFile fs file.path file.required with
  | some v => return [⟨v, some (containingDir file.path)⟩]
  | none => return []

end ConfigFile

end LayeredConfig
