import LayeredConfig.Pattern.Paths
import LayeredConfig.Source.ConfigFile

/-!
# LayeredConfig — discovery

Discovery looks for files of a base name in a directory and in those above it.
The base name is a pattern: its paths, joined by dots, are the names to look
for, each with the extension of each format. What is nearer comes first.

The search ends at the root, after a number of directories, or once a number
of directories have had files in them.

* `Discovery.candidates` — the file names.
* `Discovery.layers`     — the files as layers.
-/

namespace LayeredConfig

/-- A search for files. -/
structure Discovery where
  baseName : String
  startDir : String
  /-- How many directories are searched at most. -/
  maxUp : Option Nat
  /-- How many directories with files in them end the search. -/
  stopAfter : Option Nat

namespace Discovery

/-- The file names to look for, in order. The empty path names no file. -/
def candidates (d : Discovery) : Except ConfigError (List String) :=
  match Pattern.parse d.baseName with
  | .error reason => .error (.badPattern reason)
  | .ok pattern =>
    .ok ((pattern.paths.filter (!·.isEmpty)).flatMap (fun path =>
      Format.all.map (fun format => KeyPath.toString path ++ "." ++ format.extension)))

/-- The files of one directory. -/
def layersIn (fs : FileSystem) (dir : String) : List String → Except ConfigError (List Layer)
  | [] => .ok []
  | candidate :: rest => do
    let found ← loadFile fs (Path.join dir candidate) false
    let more ← layersIn fs dir rest
    return (found.map (fun v => ⟨v, some dir⟩)).toList ++ more

/-- The files of directories, one after the other, where `searched` have been
searched before and `found` of them had files. -/
def search (d : Discovery) (fs : FileSystem) (candidates : List String)
    (searched found : Nat) : List (List String) → Except ConfigError (List Layer)
  | [] => .ok []
  | place :: above =>
    if d.maxUp.any (· ≤ searched) || d.stopAfter.any (· ≤ found) then .ok []
    else do
      let here ← layersIn fs (FileSystem.absolutePath place) candidates
      let found := if here.isEmpty then found else found + 1
      let more ← search d fs candidates (searched + 1) found above
      return here ++ more

/-- The files found, nearest first. -/
def layers (d : Discovery) (fs : FileSystem) : Except ConfigError (List Layer) := do
  let names ← d.candidates
  match fs.resolve d.startDir with
  | .error _ => .error (.unreadableFile d.startDir)
  | .ok start => d.search fs names 0 0 (FileSystem.ancestors start)

end Discovery

end LayeredConfig
