import LayeredConfig.Tree.Basic

/-!
# LayeredConfig — paths into trees

A key path is a list of segments, written with dots between them. A segment
names an entry of a table or the index of an item. An index is written in
decimal digits, with leading zeros and a plus sign if one likes, and is at
most `maxIndex`.

* `KeyPath.ofString` — the segments of a path text; the empty text has none.
* `Tree.get?`        — the tree at a path; the path without segments leads
  nowhere.
* `Tree.insertAt`    — an entry put in at a path.
-/

namespace LayeredConfig

/-- The segments of a path into a tree. -/
abbrev KeyPath := List String

namespace KeyPath

/-- The segments of a path text. -/
def ofString (text : String) : KeyPath :=
  if text.isEmpty then [] else (text.toList.splitOn '.').map String.ofList

/-- The text of a path. -/
def toString (path : KeyPath) : String := ".".intercalate path

end KeyPath

/-- The largest index a segment can name. -/
def maxIndex : Nat := UInt64.size - 1

/-- The index that a segment names, if it names one. -/
def index? (segment : String) : Option Nat :=
  let digits :=
    match segment.toList with
    | '+' :: rest => rest
    | cs => cs
  if digits.isEmpty || !digits.all Char.isDigit then none
  else
    let n := Nat.ofDigitChars 10 digits 0
    if n ≤ maxIndex then some n else none

namespace Tree

/-- What a segment names directly below a tree. -/
def child? (t : Tree α) (segment : String) : Option (Tree α) :=
  match t with
  | leaf _ => none
  | seq items => (index? segment).bind (fun i => items[i]?)
  | table entries => Fields.get? entries segment

/-- The tree that the segments lead to, one by one. -/
def follow? (t : Tree α) : KeyPath → Option (Tree α)
  | [] => some t
  | segment :: rest => (t.child? segment).bind (fun below => below.follow? rest)

/-- The tree at a path with at least one segment. -/
def get? (t : Tree α) (path : KeyPath) : Option (Tree α) :=
  if path.isEmpty then none else t.follow? path

-- ---------------------------------------------------------------------------
-- Insertion
-- ---------------------------------------------------------------------------

/-- The entries with `a` at a path of keys. Tables are made on the way where
there are none, in place of anything else. -/
def insertAt (a : Tree α) : KeyPath → Fields (Tree α) → Fields (Tree α)
  | [], entries => entries
  | [key], entries => Fields.insert key a entries
  | key :: rest, entries =>
    let below := ((Fields.get? entries key).bind entries?).getD []
    Fields.insert key (table (insertAt a rest below)) entries

end Tree

end LayeredConfig
