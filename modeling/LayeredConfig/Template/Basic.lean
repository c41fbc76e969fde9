import LayeredConfig.Template.Token
import LayeredConfig.Error

/-!
# LayeredConfig — templates

A template is literal text and references. The body of a reference is made of
text, colons, and further references, whose values become part of it: inside a
body a brace alone is enough to open one. Outside references braces and colons
are literal.

* `Piece`          — the parts of a reference's body.
* `Part`           — the parts of a template.
* `Template.parse` — the parts that a text writes, unless a reference in it is
  not closed.
-/

namespace LayeredConfig

/-- A part of the body of a reference. -/
inductive Piece where
  | text (chars : List Char)
  | colon
  | lookup (body : List Piece)

/-- A part of a template. -/
inductive Part where
  | literal (chars : List Char)
  | reference (body : List Piece)

/-- Literal text and references, from left to right. -/
abbrev Template := List Part

namespace Template

/-- What has been read of a template: its parts, and the bodies that are still
open, innermost first; all of them last piece first. -/
structure Builder where
  parts : List Part
  bodies : List (List Piece)

namespace Builder

/-- Nothing read yet. -/
def empty : Builder := ⟨[], []⟩

/-- Parts with literal text after them. -/
def addLiteral (chars : List Char) : List Part → List Part
  | .literal before :: rest => .literal (before ++ chars) :: rest
  | parts => .literal chars :: parts

/-- A body with text after it. -/
def addText (chars : List Char) : List Piece → List Piece
  | .text before :: rest => .text (before ++ chars) :: rest
  | body => .text chars :: body

/-- The innermost body closed: a part of the template, or a piece of the body
around it. -/
def closeBody (parts : List Part) (body : List Piece) : List (List Piece) → Builder
  | [] => ⟨.reference body.reverse :: parts, []⟩
  | outer :: rest => ⟨parts, (.lookup body.reverse :: outer) :: rest⟩

/-- One token more. -/
def step (b : Builder) (token : TemplateToken) : Builder :=
  match b.bodies, token with
  | [], .opening => { b with bodies := [[]] }
  | [], _ => { b with parts := addLiteral token.literal b.parts }
  | _ :: _, .opening => { b with bodies := [] :: b.bodies }
  | _ :: _, .leftBrace => { b with bodies := [] :: b.bodies }
  | body :: outer, .rightBrace => closeBody b.parts body outer
  | body :: outer, .colon => { b with bodies := (.colon :: body) :: outer }
  | body :: outer, _ => { b with bodies := addText token.literal body :: outer }

/-- The parts, unless a body is still open. -/
def finish (b : Builder) : Except ConfigError Template :=
  if b.bodies.isEmpty then .ok b.parts.reverse else .error .unclosedReference

end Builder

/-- The parts that tokens write. -/
def ofTokens (tokens : List TemplateToken) : Except ConfigError Template :=
  (tokens.foldl Builder.step Builder.empty).finish

/-- The parts that a text writes. -/
def parse (text : String) : Except ConfigError Template :=
  ofTokens (TemplateToken.scan text.toList)

end Template

end LayeredConfig
