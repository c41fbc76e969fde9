import LayeredConfig.Toml.Basic
import LayeredConfig.Toml.Entries

/-!
# LayeredConfig — TOML tables

A document is a list of statements: headers that open a table or a further
item of an array of tables, and entries put into the table opened last. The
rules for tables keep any of them from being written in two places.

* A table opened by a header is `declared`, and can be opened only once.
* A table on the way to one that a header opens is `implied`; a header may
  still declare it, and then it counts as written there.
* A table on the way to an entry with a dotted key is `dotted`. Further
  entries with dotted keys may go into it, but no header may open it.
* Values, inline tables among them, are closed.

* `TomlNode`      — a value or a table that is still open.
* `Toml.ofStatements` — the document that statements make.
-/

namespace LayeredConfig

/-- How a table came about. -/
inductive TableKind where
  | declared
  | implied
  | dotted
  deriving DecidableEq, Repr

/-- A part of a document that is being put together. -/
inductive TomlNode where
  | value (v : Toml)
  | table (kind : TableKind) (entries : List (String × TomlNode))
  /-- An array of tables; only its last item is open. -/
  | tables (earlier : List Toml) (last : List (String × TomlNode))

/-- A statement of a document. A key is a path of at least one segment, of
which the last is given apart. -/
inductive TomlStatement where
  | table (path : List String) (key : String)
  | item (path : List String) (key : String)
  | entry (path : List String) (key : String) (value : Toml)

namespace TomlNode

open Toml (Entries put putLast)

mutual

/-- The value of a part of a document. -/
def toToml : TomlNode → Toml
  | value v => v
  | table _ entries => .table (entriesToToml entries)
  | tables earlier last => .seq (earlier ++ [.table (entriesToToml last)])

def entriesToToml : List (String × TomlNode) → List (String × Toml)
  | [] => []
  | (key, node) :: rest => (key, toToml node) :: entriesToToml rest

end

-- ---------------------------------------------------------------------------
-- Going down to a table
-- ---------------------------------------------------------------------------

/-- What is done to a table once it is reached. -/
abbrev Change := TableKind → Entries TomlNode → Option (Entries TomlNode)

/-- The table with `change` made at a path of keys below it. Tables missing on
the way are made, of kind `missing`; `enter` says which ones may be gone
through. -/
def changeAt (missing : TableKind) (enter : TableKind → Bool) (change : Change) :
    List String → Change
  | [], kind, entries => change kind entries
  | key :: path, _, entries =>
    match entries.lookup key with
    | none =>
      (changeAt missing enter change path missing []).map (fun below =>
        put key (table missing below) entries)
    | some (table kind below) =>
      if enter kind then
        (changeAt missing enter change path kind below).map (fun below =>
          put key (table kind below) entries)
      else none
    | some (tables earlier last) =>
      (changeAt missing enter change path .declared last).map (fun last =>
        put key (tables earlier last) entries)
    | some (value _) => none

/-- A change at the path of a header. -/
def changeAtHeader (change : Change) (path : List String) : Change :=
  changeAt .implied (fun _ => true) change path

/-- A change at the path of a dotted key. -/
def changeAtDotted (change : Change) (path : List String) : Change :=
  changeAt .dotted (· != .declared) change path

-- ---------------------------------------------------------------------------
-- Changes
-- ---------------------------------------------------------------------------

/-- Opens the table at a key: a new one, or one that is only implied so far. It
becomes the last entry. -/
def openTable (key : String) : Change := fun _ entries =>
  match entries.lookup key with
  | none => some (putLast key (table .declared []) entries)
  | some (table .implied below) => some (putLast key (table .declared below) entries)
  | some _ => none

/-- Opens a further item of the array of tables at a key. -/
def openItem (key : String) : Change := fun _ entries =>
  match entries.lookup key with
  | none => some (put key (tables [] []) entries)
  | some (tables earlier last) =>
    some (put key (tables (earlier ++ [.table (entriesToToml last)]) []) entries)
  | some _ => none

/-- Puts a value at a key that is free. The table a dotted key leads to has to
be one that dotted keys made. -/
def addHere (dotted : Bool) (key : String) (v : Toml) : Change := fun kind entries =>
  if dotted != (kind == .dotted) then none
  else if (entries.lookup key).isSome then none
  else some (put key (value v) entries)

/-- Puts a value at a key, behind a path if the key is dotted. -/
def addEntry (path : List String) (key : String) (v : Toml) : Change :=
  changeAtDotted (addHere (!path.isEmpty) key v) path

/-- The table that the entries of an inline table make. -/
def inlineTable? (entries : List (List String × String × Toml)) : Option Toml :=
  (entries.foldlM (fun table (path, key, v) => addEntry path key v .declared table) []).map
    (fun fields => .table (entriesToToml fields))

end TomlNode

namespace Toml

/-- A document that is being put together, and the path of the table that
entries go into. -/
structure Builder where
  root : Entries TomlNode
  current : List String

namespace Builder

/-- The document with one statement more. -/
def step (b : Builder) : TomlStatement → Option Builder
  | .table path key => do
    let root ← TomlNode.changeAtHeader (TomlNode.openTable key) path .declared b.root
    return ⟨root, path ++ [key]⟩
  | .item path key => do
    let root ← TomlNode.changeAtHeader (TomlNode.openItem key) path .declared b.root
    return ⟨root, path ++ [key]⟩
  | .entry path key v => do
    let root ← TomlNode.changeAtHeader (TomlNode.addEntry path key v) b.current .declared b.root
    return ⟨root, b.current⟩

end Builder

/-- The document that statements make, unless one of them breaks the rules. -/
def ofStatements (statements : List TomlStatement) : Option Toml :=
  (statements.foldlM Builder.step ⟨[], []⟩).map (fun b =>
    .table (TomlNode.entriesToToml b.root))

end Toml

end LayeredConfig
