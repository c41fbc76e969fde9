import LayeredConfig.Path

/-!
# LayeredConfig — file systems

A file system says what stands at each place, a place being the list of names
that leads there from the root, and which directory relative paths start in.
A path is followed name by name: each name is looked for in a directory, `..`
leads to the directory above, and the root is above itself. There are no
links.

* `FileSystem.resolve`  — the place that a path leads to and what is there.
* `FileSystem.readText` — the text of a file.
-/

namespace LayeredConfig

/-- What can stand at a place. -/
inductive FileNode where
  | file (content : ByteArray)
  | directory

/-- What stands where; nothing in most places. -/
structure FileSystem where
  node? : List String → Option FileNode
  workingDir : List String

/-- Why a path leads to no text. -/
inductive ReadFailure where
  | missing
  | unreadable
  deriving DecidableEq, Repr

namespace FileSystem

/-- The most bytes that a name can have. -/
def maxNameBytes : Nat := 255

/-- The most bytes that the path of a file to be read can have. -/
def maxPathBytes : Nat := 4095

/-- What stands at a place; the root is a directory. -/
def at? (fs : FileSystem) (place : List String) : Option FileNode :=
  if place = [] then some .directory else fs.node? place

/-- One segment further from a place. -/
def enter (fs : FileSystem) (place : List String) (segment : String) :
    Except ReadFailure (List String) :=
  match fs.at? place with
  | none => .error .missing
  | some (.file _) => .error .unreadable
  | some .directory =>
    if segment = "" || segment = "." then .ok place
    else if segment = ".." then .ok place.dropLast
    else if maxNameBytes < segment.utf8ByteSize then .error .unreadable
    else if (fs.at? (place ++ [segment])).isSome then .ok (place ++ [segment])
    else .error .missing

/-- The place that a path leads to. -/
def resolve (fs : FileSystem) (path : String) : Except ReadFailure (List String) :=
  if path.isEmpty then .error .missing
  else if path.toList.contains '\x00' then .error .unreadable
  else
    let start := if Path.isAbsolute path then [] else fs.workingDir
    ((path.toList.splitOn '/').map String.ofList).foldlM fs.enter start

/-- The text in what stands at a place. -/
def textOf : Option FileNode → Except ReadFailure String
  | none => .error .missing
  | some .directory => .error .unreadable
  | some (.file content) =>
    match String.fromUTF8? content with
    | some text => .ok text
    | none => .error .unreadable

/-- The text of the file that a path leads to. A path may be resolved whatever
its length, but a file is read only by a path that is not too long. -/
def readText (fs : FileSystem) (path : String) : Except ReadFailure String := do
  if maxPathBytes < path.utf8ByteSize then .error .unreadable
  else textOf (fs.at? (← fs.resolve path))

/-- The path of a place, from the root. -/
def absolutePath (place : List String) : String := "/" ++ "/".intercalate place

/-- A place and the directories above it, up to the root. -/
def ancestors (place : List String) : List (List String) :=
  (List.range (place.length + 1)).map (fun up => place.take (place.length - up))

end FileSystem

end LayeredConfig
