import LayeredConfig.Chars.Lowercase
import LayeredConfig.Chars.Split
import LayeredConfig.Source.Layer
import LayeredConfig.Template.Resolver

/-!
# LayeredConfig — the environment

The environment is a list of variables. It is looked into by name, and it is a
source: with the prefix `APP` and the separator `__` the variable
`APP__DATABASE__HOST` gives the text at `database.host`.

* `Environment.lookup` — a variable by name.
* `Overlay.entries`    — the tree that the variables with a prefix make.
* `Overlay.layers`     — that tree as a layer, if it has any entries.
-/

namespace LayeredConfig

/-- Names and values, in the order of the environment. -/
abbrev Environment := List (String × String)

namespace Environment

/-- The value of the first variable of this name. Each variable is stored as
one text with `=` behind its name, and a name is found where that text starts
with it and `=` follows. The empty name and names that hold the character
with code 0 are never found. -/
def lookup (environment : Environment) : EnvLookup := fun name =>
  if name.isEmpty || name.toList.contains '\x00' then none
  else
    environment.findSome? (fun (key, value) =>
      (Separator.dropFront? (name.toList ++ ['=']) (key.toList ++ '=' :: value.toList)).map
        String.ofList)

end Environment

/-- The variables with a prefix, as a tree of texts. -/
structure Overlay where
  front : String
  separator : Separator

namespace Overlay

/-- The keys that a variable's name spells: what stands between separators
behind the prefix, in lower case. -/
def path? (overlay : Overlay) (name : String) : Option KeyPath :=
  match Separator.dropFront? (overlay.front.toList ++ overlay.separator.chars) name.toList with
  | none => none
  | some [] => none
  | some rest =>
    some ((overlay.separator.split rest).map (fun piece => Chars.lowercase (String.ofList piece)))

/-- The entries with a variable put in. -/
def addVariable (overlay : Overlay) (entries : Fields Value) (pair : String × String) :
    Fields Value :=
  match overlay.path? pair.1 with
  | none => entries
  | some path => Tree.insertAt (Value.ofString pair.2) path entries

/-- The tree that the environment makes, each variable put in in turn. -/
def entries (overlay : Overlay) (environment : Environment) : Fields Value :=
  environment.foldl overlay.addVariable []

/-- The tree as a layer, if it has any entries. -/
def layers (overlay : Overlay) (environment : Environment) : List Layer :=
  match overlay.entries environment with
  | [] => []
  | entries => [⟨.table entries, none⟩]

end Overlay

end LayeredConfig
