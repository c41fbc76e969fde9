import LayeredConfig.Tree.Merge
import LayeredConfig.Value.Basic

/-!
# LayeredConfig — drafts

While a configuration is expanded each of its texts is a deferred leaf: the
raw text and where in the tree it stands. A draft is a tree of such leaves and
of scalars whose value is known.

* `Location`       — the way to a node by keys and indexes.
* `Draft.ofValue`  — a value with all its texts deferred.
* `Draft.known`    — a value with nothing deferred.
* `Draft.settle`   — a draft with the leaves replaced whose value is known.
-/

namespace LayeredConfig

-- ---------------------------------------------------------------------------
-- Locations
-- ---------------------------------------------------------------------------

/-- A step down a tree. -/
inductive Step where
  | key (name : String)
  | index (i : Nat)
  deriving DecidableEq, Repr

/-- The steps from the root of a tree to a node. -/
abbrev Location := List Step

namespace Step

/-- The step as a segment of a path. -/
def segment : Step → String
  | key name => name
  | index i => Nat.repr i

end Step

namespace Location

/-- A path with a segment more. Nothing stands between an empty path and the
segment. -/
def extendPath (path segment : String) : String :=
  if path.isEmpty then segment else path ++ "." ++ segment

/-- The path text that errors give for a location. -/
def originPath (location : Location) : String :=
  location.foldl (fun path step => extendPath path step.segment) ""

end Location

-- ---------------------------------------------------------------------------
-- Drafts
-- ---------------------------------------------------------------------------

/-- A text awaiting interpolation. -/
structure Leaf where
  location : Location
  raw : Text
  deriving DecidableEq, Repr

namespace Leaf

/-- The path text that errors give for the leaf. -/
def originPath (leaf : Leaf) : String := leaf.location.originPath

end Leaf

/-- A leaf of a draft. -/
inductive Cell where
  | known (s : Scalar)
  | deferred (leaf : Leaf)

/-- A tree being expanded, or a part of it. -/
abbrev Draft := Tree Cell

namespace Draft

/-- A value with nothing deferred. -/
def known (v : Value) : Draft := v.map .known

/-- A scalar at a location: a text is deferred. -/
def ofScalarAt (location : Location) : Scalar → Draft
  | .text raw => .leaf (.deferred ⟨location, raw⟩)
  | s => .leaf (.known s)

mutual

/-- A value at a location with all its texts deferred. -/
def ofValueAt (location : Location) : Value → Draft
  | .leaf s => ofScalarAt location s
  | .seq items => .seq (ofItemsAt location 0 items)
  | .table entries => .table (ofEntriesAt location entries)

/-- Items from the index `i` on. -/
def ofItemsAt (location : Location) (i : Nat) : List (Tree Scalar) → List (Tree Cell)
  | [] => []
  | v :: rest => ofValueAt (location ++ [.index i]) v :: ofItemsAt location (i + 1) rest

def ofEntriesAt (location : Location) :
    List (String × Tree Scalar) → List (String × Tree Cell)
  | [] => []
  | (key, v) :: rest =>
    (key, ofValueAt (location ++ [.key key]) v) :: ofEntriesAt location rest

end

/-- A value with all its texts deferred. -/
def ofValue (v : Value) : Draft := ofValueAt [] v

/-- A single deferred leaf. -/
def isDeferred : Draft → Bool
  | .leaf (.deferred _) => true
  | _ => false

/-- The leaf that a cell defers. -/
def leafOf? : Cell → Option Leaf
  | .deferred leaf => some leaf
  | .known _ => none

/-- The deferred leaves of a draft, depth first. -/
def deferredLeaves (draft : Draft) : List Leaf := draft.leaves.filterMap leafOf?

/-- What stands in place of a cell once the values of some leaves are known. -/
def settleCell (value? : Leaf → Option Value) : Cell → Draft
  | .known s => .leaf (.known s)
  | .deferred leaf =>
    match value? leaf with
    | some v => known v
    | none => .leaf (.deferred leaf)

/-- The draft with the leaves replaced whose value is known. -/
def settle (value? : Leaf → Option Value) (draft : Draft) : Draft :=
  draft.graft (settleCell value?)

end Draft

end LayeredConfig
