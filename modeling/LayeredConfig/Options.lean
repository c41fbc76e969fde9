import LayeredConfig.Decode

/-!
# LayeredConfig — options

What a client may set about how a configuration is found and expanded. Options
can be decoded from a document, where any of them may be missing.
-/

namespace LayeredConfig

/-- How a configuration is found and expanded. -/
structure Options where
  /-- Where discovery starts. -/
  startDir : String
  /-- How many directories discovery searches at most. -/
  maxUp : Option Nat
  /-- How many directories with files in them end discovery. -/
  stopAfter : Option Nat
  /-- Texts carry the directory they were read from. -/
  smartStrings : Bool
  /-- References to paths in the configuration are resolved. -/
  expandVars : Bool
  /-- References to environment variables are resolved. -/
  expandEnv : Bool
  /-- A reference that nobody answers leaves nothing. -/
  allowUndefined : Bool
  deriving DecidableEq, Repr

namespace Options

/-- The options of a client that sets none. -/
def default : Options :=
  { startDir := "."
    maxUp := none
    stopAfter := none
    smartStrings := true
    expandVars := true
    expandEnv := true
    allowUndefined := false }

/-- The names of the options in a document, in order. -/
def names : List String :=
  ["start_dir", "max_up", "stop_after", "smart_strings", "expand_vars", "expand_env",
    "allow_undefined"]

/-- How many directories, or no limit. -/
def limit : Decoder (Option Nat) := Decoder.nullable (Decoder.natural UInt64.size)

/-- The options in a document; those missing are as by default. -/
def decoder : Decoder Options := fun data => do
  let record ← Record.ofNames names data
  let startDir ← record.field 0 Decoder.text (some default.startDir)
  let maxUp ← record.field 1 limit (some default.maxUp)
  let stopAfter ← record.field 2 limit (some default.stopAfter)
  let smartStrings ← record.field 3 Decoder.bool (some default.smartStrings)
  let expandVars ← record.field 4 Decoder.bool (some default.expandVars)
  let expandEnv ← record.field 5 Decoder.bool (some default.expandEnv)
  let allowUndefined ← record.field 6 Decoder.bool (some default.allowUndefined)
  return { startDir, maxUp, stopAfter, smartStrings, expandVars, expandEnv, allowUndefined }

end Options

end LayeredConfig
