/-!
# LayeredConfig — template tokens

In a template, `${` opens a reference and `$$` stands for a dollar sign. Braces
and colons are tokens of their own. Everything else is text, in runs as long
as they can be; a dollar sign before anything else is text, too.

* `TemplateToken.scan`  — the tokens of a text, taken greedily from the left.
* `TemplateToken.write` — the characters of a token as they were written.
-/

namespace LayeredConfig

/-- A token of a template. -/
inductive TemplateToken where
  | text (chars : List Char)
  | opening
  | dollar
  | leftBrace
  | rightBrace
  | colon
  deriving DecidableEq, Repr

namespace TemplateToken

/-- The tokens with a character of text in front. -/
def consTextChar (c : Char) : List TemplateToken → List TemplateToken
  | text cs :: rest => text (c :: cs) :: rest
  | tokens => text [c] :: tokens

/-- The tokens of a text. -/
def scan : List Char → List TemplateToken
  | [] => []
  | '$' :: '{' :: rest => opening :: scan rest
  | '$' :: '$' :: rest => dollar :: scan rest
  | '{' :: rest => leftBrace :: scan rest
  | '}' :: rest => rightBrace :: scan rest
  | ':' :: rest => colon :: scan rest
  | c :: rest => consTextChar c (scan rest)

/-- The characters that write the token. -/
def write : TemplateToken → List Char
  | text cs => cs
  | opening => ['$', '{']
  | dollar => ['$', '$']
  | leftBrace => ['{']
  | rightBrace => ['}']
  | colon => [':']

/-- What the token stands for outside references; an opening is not text. -/
def literal : TemplateToken → List Char
  | text cs => cs
  | opening => []
  | dollar => ['$']
  | leftBrace => ['{']
  | rightBrace => ['}']
  | colon => [':']

end TemplateToken

end LayeredConfig
