import LayeredConfig.Fields

/-!
# LayeredConfig — trees

A configuration tree is a leaf, a sequence, or a table. What the leaves hold
is a parameter: scalars in a configuration as it is read, deferred texts in
one that is being expanded, syntax-level scalars in a document just parsed.

* `Tree`          — the type.
* `Tree.map`      — change what the leaves hold.
* `Tree.WellFormed` — every table below has its keys in order, each once.
-/

namespace LayeredConfig

/-- A tree whose leaves hold values of `α`. -/
inductive Tree (α : Type u) where
  | leaf (a : α)
  | seq (items : List (Tree α))
  | table (entries : List (String × Tree α))

instance : Inhabited (Tree α) := ⟨.seq []⟩

namespace Tree

/-- Neither a sequence nor a table. -/
def isTerminal : Tree α → Bool
  | leaf _ => true
  | _ => false

/-- The items of a sequence. -/
def items? : Tree α → Option (List (Tree α))
  | seq items => some items
  | _ => none

/-- The entries of a table. -/
def entries? : Tree α → Option (Fields (Tree α))
  | table entries => some entries
  | _ => none

/-- The entry of a table at `key`. -/
def entry? (t : Tree α) (key : String) : Option (Tree α) :=
  t.entries?.bind (fun entries => Fields.get? entries key)

-- ---------------------------------------------------------------------------
-- Map
-- ---------------------------------------------------------------------------

mutual

/-- The same tree with `f` applied to every leaf. -/
def map (f : α → β) : Tree α → Tree β
  | leaf a => leaf (f a)
  | seq items => seq (mapItems f items)
  | table entries => table (mapEntries f entries)

def mapItems (f : α → β) : List (Tree α) → List (Tree β)
  | [] => []
  | t :: rest => map f t :: mapItems f rest

def mapEntries (f : α → β) : List (String × Tree α) → List (String × Tree β)
  | [] => []
  | (key, t) :: rest => (key, map f t) :: mapEntries f rest

end

theorem mapItems_eq (f : α → β) (items : List (Tree α)) :
    mapItems f items = items.map (map f) := by
  induction items with
  | nil => rfl
  | cons t rest ih => simp [mapItems, ih]

theorem mapEntries_eq (f : α → β) (entries : List (String × Tree α)) :
    mapEntries f entries = entries.map (fun entry => (entry.1, map f entry.2)) := by
  induction entries with
  | nil => rfl
  | cons entry rest ih => simp [mapEntries, ih]

mutual

/-- The same tree with every leaf replaced by a tree. -/
def graft (f : α → Tree β) : Tree α → Tree β
  | leaf a => f a
  | seq items => seq (graftItems f items)
  | table entries => table (graftEntries f entries)

def graftItems (f : α → Tree β) : List (Tree α) → List (Tree β)
  | [] => []
  | t :: rest => graft f t :: graftItems f rest

def graftEntries (f : α → Tree β) : List (String × Tree α) → List (String × Tree β)
  | [] => []
  | (key, t) :: rest => (key, graft f t) :: graftEntries f rest

end

mutual

/-- The leaves, depth first. -/
def leaves : Tree α → List α
  | leaf a => [a]
  | seq items => itemLeaves items
  | table entries => entryLeaves entries

def itemLeaves : List (Tree α) → List α
  | [] => []
  | t :: rest => leaves t ++ itemLeaves rest

def entryLeaves : List (String × Tree α) → List α
  | [] => []
  | (_, t) :: rest => leaves t ++ entryLeaves rest

end

-- ---------------------------------------------------------------------------
-- Traversal
-- ---------------------------------------------------------------------------

mutual

/-- The tree of the values that `f` gives for the leaves, taken depth first:
entries in key order, items from the left. -/
def graftM [Monad m] (f : α → m (Tree β)) : Tree α → m (Tree β)
  | leaf a => f a
  | seq items => do return seq (← graftItemsM f items)
  | table entries => do return table (← graftEntriesM f entries)

def graftItemsM [Monad m] (f : α → m (Tree β)) : List (Tree α) → m (List (Tree β))
  | [] => pure []
  | t :: rest => do
    let first ← graftM f t
    return first :: (← graftItemsM f rest)

def graftEntriesM [Monad m] (f : α → m (Tree β)) :
    List (String × Tree α) → m (List (String × Tree β))
  | [] => pure []
  | (key, t) :: rest => do
    let first ← graftM f t
    return (key, first) :: (← graftEntriesM f rest)

end

-- ---------------------------------------------------------------------------
-- Well-formed trees
-- ---------------------------------------------------------------------------

mutual

/-- Every table in the tree has its keys in strictly ascending order. -/
def WellFormed : Tree α → Prop
  | leaf _ => True
  | seq items => WellFormedItems items
  | table entries => Fields.Ordered entries ∧ WellFormedEntries entries

def WellFormedItems : List (Tree α) → Prop
  | [] => True
  | t :: rest => WellFormed t ∧ WellFormedItems rest

def WellFormedEntries : List (String × Tree α) → Prop
  | [] => True
  | (_, t) :: rest => WellFormed t ∧ WellFormedEntries rest

end

end Tree

end LayeredConfig
