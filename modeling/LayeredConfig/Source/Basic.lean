import LayeredConfig.Options
import LayeredConfig.Source.Discovery
import LayeredConfig.Source.Environment

/-!
# LayeredConfig — sources

A source gives layers, the first of them with the highest precedence, or it
fails. What it reads is the world: files and environment variables.

* `Source.layers`    — the layers of a source.
* `Source.allLayers` — the layers of several sources in order.
-/

namespace LayeredConfig

/-- What sources read. -/
structure World where
  files : FileSystem
  environment : Environment

/-- Where layers come from. -/
inductive Source where
  /-- A file. -/
  | file (f : ConfigFile)
  /-- Environment variables with a prefix, their names split at a separator. -/
  | environment (front separator : String)
  /-- A layer already at hand. -/
  | given (layer : Layer)
  /-- Files of a base name, looked for as the options say. -/
  | discover (baseName : String)
  /-- A source of the client's, and what it gives. -/
  | custom (layers : Except ConfigError (List Layer))

namespace Source

/-- The layers of a source. -/
def layers (world : World) (options : Options) : Source → Except ConfigError (List Layer)
  | file f => f.layers world.files
  | environment front separator =>
    match Separator.ofString? separator with
    | none => .error .emptySeparator
    | some separator => .ok (Overlay.layers ⟨front, separator⟩ world.environment)
  | given layer => .ok [layer]
  | discover baseName =>
    Discovery.layers ⟨baseName, options.startDir, options.maxUp, options.stopAfter⟩ world.files
  | custom layers => layers

/-- The layers of sources, up to the first error. -/
def allLayers (world : World) (options : Options) :
    List Source → Except ConfigError (List Layer)
  | [] => .ok []
  | source :: rest => do
    let first ← source.layers world options
    return first ++ (← allLayers world options rest)

end Source

end LayeredConfig
