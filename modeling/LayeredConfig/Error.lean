import LayeredConfig.Pattern.Basic

/-!
# LayeredConfig — errors

What can go wrong when a configuration is loaded, expanded, looked into or
decoded, and the message for each cause.
-/

namespace LayeredConfig

/-- Why a configuration cannot be had. -/
inductive ConfigError where
  /-- A text is no pattern. -/
  | badPattern (reason : PatternError)
  /-- A reference in a text is not closed. -/
  | unclosedReference
  /-- A resolver or a source of the client's refuses. -/
  | refused (message : String)
  /-- A value depends on itself; the chain of origin paths. -/
  | circularReference (trace : List String)
  /-- No resolver knows a name; where it was referred to, if known. -/
  | undefinedVariable (name : String) (origin : Option String)
  | fileNotFound (path : String)
  | unreadableFile (path : String)
  | malformedToml (path : String)
  | malformedJson (path : String)
  | unsupportedFormat (path : String)
  /-- The tree does not fit the type it is decoded into. -/
  | undecodable
  /-- An environment source has nothing to split names at. -/
  | emptySeparator
  deriving DecidableEq, Repr

namespace ConfigError

/-- Where a name was referred to, as messages show it. -/
def referencedFrom : Option String → String
  | none => ""
  | some "" => ""
  | some origin => " (referenced from '" ++ origin ++ "')"

/-- The message for an error. -/
def message : ConfigError → String
  | badPattern reason => "syntax error: " ++ reason.message
  | unclosedReference => "syntax error: missing '\x7d' after '$\x7b'"
  | refused message => "syntax error: " ++ message
  | circularReference trace => "circular reference: " ++ " -> ".intercalate trace
  | undefinedVariable name origin => "undefined variable '" ++ name ++ "'" ++ referencedFrom origin
  | fileNotFound path => "required config file not found: " ++ path
  | unreadableFile path => "failed to read config file '" ++ path ++ "'"
  | malformedToml path => "failed to parse config file '" ++ path ++ "'"
  | malformedJson path => "failed to parse config file '" ++ path ++ "'"
  | unsupportedFormat path => "unsupported config file format: " ++ path
  | undecodable => "failed to deserialize config"
  | emptySeparator => "separator must not be empty"

end ConfigError

end LayeredConfig
