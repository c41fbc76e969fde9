import LayeredConfig.Template.Basic
import LayeredConfig.Template.Resolver

/-!
# LayeredConfig — interpolation

To interpolate a text is to put the value of each reference in its place. The
references nested in a body come first; what the body then spells is the
expression that resolvers are asked for.

A text that is a single reference becomes the value itself. Any other text
becomes text, where a reference without a value leaves nothing.

* `Request.ofFragments`   — what a body asks for once its references are known.
* `Template.interpolate`  — the value of a text.
-/

namespace LayeredConfig

/-- A piece of a body with the value of the reference in it. -/
inductive Fragment where
  | text (chars : List Char)
  | colon
  | value (found : Option Value)

namespace Fragment

/-- The text of a piece; a reference without a value leaves nothing. -/
def render : Fragment → String
  | text chars => String.ofList chars
  | colon => ":"
  | value (some v) => Value.render v
  | value none => ""

/-- The text of pieces in a row. -/
def renderAll (fragments : List Fragment) : String := String.join (fragments.map render)

/-- A colon of the body itself. -/
def isColon : Fragment → Bool
  | colon => true
  | _ => false

/-- The argument that pieces make: a single reference is its value, all else
is text. -/
def argument : List Fragment → Value
  | [value found] => found.getD (Value.ofString "")
  | fragments => Value.ofString (renderAll fragments)

end Fragment

/-- A letter or an underscore, then letters, digits, underscores and hyphens,
all of them ASCII. -/
def isIdentifier (name : String) : Bool :=
  match name.toList with
  | [] => false
  | c :: rest =>
    (c.isAlpha || c == '_') && rest.all (fun c => c.isAlphanum || c == '_' || c == '-')

namespace Request

/-- The call that pieces have the shape of: what stands before the first colon
is its name, if that is an identifier. -/
def callOfFragments? (fragments : List Fragment) : Option Call :=
  match fragments.span (fun fragment => !fragment.isColon) with
  | (_, []) => none
  | (before, _ :: behind) =>
    let name := Fragment.renderAll before
    if isIdentifier name then some ⟨name, Fragment.argument behind⟩ else none

/-- What a body asks for. -/
def ofFragments (fragments : List Fragment) (subject : Option Text) : Request :=
  ⟨Fragment.renderAll fragments, callOfFragments? fragments, subject⟩

end Request

namespace Template

mutual

/-- The value of a piece of a body, once resolvers are asked. -/
def evalPiece (ask : Resolver σ) (subject : Option Text) : Piece → Eval σ Fragment
  | .text chars => pure (.text chars)
  | .colon => pure .colon
  | .lookup body => do
    let fragments ← evalPieces ask subject body
    return .value (← ask (.ofFragments fragments subject))

/-- The values of the pieces of a body, from left to right. -/
def evalPieces (ask : Resolver σ) (subject : Option Text) : List Piece → Eval σ (List Fragment)
  | [] => pure []
  | piece :: rest => do
    let fragment ← evalPiece ask subject piece
    return fragment :: (← evalPieces ask subject rest)

end

/-- The value of a reference. -/
def lookup (ask : Resolver σ) (subject : Option Text) (body : List Piece) :
    Eval σ (Option Value) := do
  let fragments ← evalPieces ask subject body
  ask (.ofFragments fragments subject)

/-- The text of a part. -/
def evalPart (ask : Resolver σ) (subject : Option Text) : Part → Eval σ String
  | .literal chars => pure (String.ofList chars)
  | .reference body => do
    return ((← lookup ask subject body).map Value.render).getD ""

/-- The texts of parts, from left to right. -/
def evalParts (ask : Resolver σ) (subject : Option Text) : Template → Eval σ (List String)
  | [] => pure []
  | part :: rest => do
    let text ← evalPart ask subject part
    return text :: (← evalParts ask subject rest)

/-- The value of a template. -/
def eval (ask : Resolver σ) (subject : Option Text) : Template → Eval σ Value
  | [.reference body] => do
    return (← lookup ask subject body).getD (Value.ofString "")
  | parts => do
    return Value.ofString (String.join (← evalParts ask subject parts))

/-- The value of a text. The resolvers are asked in order for each reference;
`subject` is what they are told of the text. -/
def interpolate (resolvers : List (Resolver σ)) (subject : Option Text) (text : String) :
    Eval σ Value := do
  let template ← Eval.ofExcept (parse text)
  template.eval (Resolver.first resolvers) subject

end Template

end LayeredConfig
