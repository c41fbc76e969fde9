/-!
# LayeredConfig — path texts

A path is text: segments between slashes, absolute when a slash comes first.
The functions here work on the text alone and ask no file system.

* `Path.join`       — one path below another.
* `Path.parent?`    — the path without its last component.
* `Path.extension?` — what follows the last dot of the last component.
* `Path.components` — what the path names, step by step; two paths are taken
  as equal when their components are.

Slashes at the end, doubled slashes and `.` segments name nothing, except for
a `.` that comes first.
-/

namespace LayeredConfig

namespace Path

/-- A step of a path. -/
inductive Component where
  | root
  | current
  | parent
  | name (text : String)
  deriving DecidableEq, Repr

/-- Whether the path starts at the root. -/
def isAbsolute (path : String) : Bool := path.toList.head? == some '/'

/-- `right` below `left`. An absolute `right` stands for itself, and nothing
is put between an empty `left` and `right`. -/
def join (left right : String) : String :=
  if isAbsolute right then right
  else if left.isEmpty then right
  else if left.toList.getLast? == some '/' then left ++ right
  else left ++ "/" ++ right

-- ---------------------------------------------------------------------------
-- Segments
-- ---------------------------------------------------------------------------

/-- A segment that names nothing unless it comes first. -/
def isIdle (segment : List Char) : Bool := segment == [] || segment == ['.']

/-- The first segment and the later ones that end in one that names
something. An absolute path has an empty first segment. -/
structure Segments where
  first : List Char
  later : List (List Char)

/-- Segments without those at the end that name nothing. -/
def trimIdle (segments : List (List Char)) : List (List Char) :=
  (segments.reverse.dropWhile isIdle).reverse

/-- The text between the slashes, cut at the end. -/
def segments (path : String) : Segments :=
  match path.toList.splitOn '/' with
  | [] => ⟨[], []⟩
  | first :: later => ⟨first, trimIdle later⟩

/-- What the first segment stands for when it starts the path. -/
def leading (path : String) (first : List Char) : List Component :=
  if isAbsolute path then [.root]
  else if first = [] then []
  else if first = ['.'] then [.current]
  else if first = ['.', '.'] then [.parent]
  else [.name (String.ofList first)]

/-- What a later segment stands for. -/
def ofSegment? (segment : List Char) : Option Component :=
  if isIdle segment then none
  else if segment = ['.', '.'] then some .parent
  else some (.name (String.ofList segment))

/-- The steps of a path. -/
def components (path : String) : List Component :=
  let s := segments path
  leading path s.first ++ s.later.filterMap ofSegment?

/-- The two paths take the same steps. -/
def same (a b : String) : Bool := components a == components b

-- ---------------------------------------------------------------------------
-- Last component
-- ---------------------------------------------------------------------------

/-- The path without its last component; none for the root and the empty
path. -/
def parent? (path : String) : Option String :=
  let s := segments path
  if s.later = [] then
    if isAbsolute path || s.first = [] then none else some ""
  else
    match trimIdle s.later.dropLast with
    | [] => some (if isAbsolute path then "/" else String.ofList s.first)
    | later => some (String.ofList (['/'].intercalate (s.first :: later)))

/-- The name at the end of the path, if the last component is a name. -/
def fileName? (path : String) : Option String :=
  match (components path).getLast? with
  | some (.name text) => some text
  | _ => none

/-- What follows the last dot of a name. A dot that comes first and is the
only one starts no extension. -/
def extensionOfName? (name : String) : Option String :=
  match name.toList.reverse.span (· != '.') with
  | (_, []) => none
  | (_, [_]) => none
  | (after, _ :: _ :: _) => some (String.ofList after.reverse)

/-- The extension of the name at the end of the path. -/
def extension? (path : String) : Option String :=
  (fileName? path).bind extensionOfName?

end Path

end LayeredConfig
