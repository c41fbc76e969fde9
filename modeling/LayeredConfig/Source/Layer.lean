import LayeredConfig.Value.Basic

/-!
# LayeredConfig — layers

A layer is a configuration tree as one source gives it, and the directory it
was read from. Sources give layers in the order of their precedence.
-/

namespace LayeredConfig

/-- A tree and the directory it was read from, if it was read from a file. -/
structure Layer where
  value : Value
  origin : Option String

namespace Layer

/-- The tree with the layer's directory as the origin of its texts. -/
def annotated (layer : Layer) : Value :=
  match layer.origin with
  | some dir => Value.annotate dir layer.value
  | none => layer.value

end Layer

end LayeredConfig
