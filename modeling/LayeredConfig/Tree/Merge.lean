import LayeredConfig.Tree.Basic

/-!
# LayeredConfig — merging trees

Trees are merged from left to right and the first one wins: later trees only
add to it.

* A terminal is kept as it is, whatever follows.
* A sequence takes in the items of later sequences one by one, and anything
  else as a single item.
* A table takes in later tables key by key, merging under the keys both
  have, and ignores anything else.

`mergeWith stop` treats a tree that satisfies `stop` as indivisible: nothing
is merged into it, as an item it stays whole, and as a table it adds
nothing. `merge` is the case where nothing is indivisible.
-/

namespace LayeredConfig

namespace Tree

mutual

/-- `extend stop a b` is `a` with what `b` adds to it. Whether `a` itself may
be added to is for the caller to ask. -/
def extend (stop : Tree α → Bool) (a : Tree α) : Tree α → Tree α
  | leaf b =>
    match a with
    | seq items => seq (items ++ [leaf b])
    | _ => a
  | seq more =>
    match a with
    | seq items => seq (items ++ if stop (seq more) then [seq more] else more)
    | _ => a
  | table more =>
    match a with
    | seq items => seq (items ++ [table more])
    | table entries =>
      if stop (table more) then a else table (extendEntries stop entries more)
    | leaf _ => a

/-- The entries of `acc` with those of a later table merged in, key by key. -/
def extendEntries (stop : Tree α → Bool) (acc : List (String × Tree α)) :
    List (String × Tree α) → List (String × Tree α)
  | [] => acc
  | (key, b) :: rest =>
    let merged :=
      match Fields.get? acc key with
      | none => b
      | some a => if stop a then a else extend stop a b
    extendEntries stop (Fields.insert key merged acc) rest

end

/-- `first` with what each of the later trees adds, unless `first` is
indivisible. -/
def mergeOnto (stop : Tree α → Bool) (first : Tree α) (later : List (Tree α)) : Tree α :=
  if stop first then first else later.foldl (extend stop) first

/-- The merge of the trees that are there; nothing if none is. -/
def mergeWith (stop : Tree α → Bool) (trees : List (Option (Tree α))) : Option (Tree α) :=
  match trees.filterMap id with
  | [] => none
  | first :: later => some (mergeOnto stop first later)

/-- The merge of the trees that are there, all of them divisible. -/
def merge (trees : List (Option (Tree α))) : Option (Tree α) :=
  mergeWith (fun _ => false) trees

end Tree

end LayeredConfig
