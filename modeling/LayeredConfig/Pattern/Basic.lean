import LayeredConfig.Pattern.Token
import LayeredConfig.Tree.Path

/-!
# LayeredConfig — patterns

A pattern names several key paths at once: a dotted path in which any segment
may be a group of alternatives, some of them perhaps empty. So
`database.(test|default).host` names two paths and `config.(local|)` names
`config.local` and `config`.

* `Element`      — the parts of a pattern.
* `Pattern`      — a pattern and the text it was read from.
* `PatternError` — why a text is no pattern.
-/

namespace LayeredConfig

/-- A part of a pattern. -/
inductive Element where
  /-- A run of segments, joined by dots. -/
  | word (segments : KeyPath)
  /-- Parts that follow each other; none is the empty alternative. -/
  | seq (parts : List Element)
  /-- Alternatives, from left to right. -/
  | alt (branches : List Element)
  deriving Repr

/-- A pattern: parts that follow each other, and how it was written. -/
structure Pattern where
  spec : String
  elements : List Element
  deriving Repr

/-- Why a text is no pattern. Where a token is missing, the one found instead
is given, or none at the end of the text. -/
inductive PatternError where
  | unexpectedCharacter (c : Char) (spec : String)
  | emptyPattern
  | unexpectedToken (token : PatternToken)
  | expectedClosing (found : Option PatternToken)
  | expectedTerm (found : Option PatternToken)
  deriving DecidableEq, Repr

namespace PatternError

/-- What was found, as messages show it. -/
def found : Option PatternToken → String
  | some token => token.shown
  | none => "end of input"

/-- The message for an error. -/
def message : PatternError → String
  | unexpectedCharacter c spec =>
    "unexpected character '" ++ c.toString ++ "' in pattern '" ++ spec ++ "'"
  | emptyPattern => "empty pattern"
  | unexpectedToken token => "unexpected " ++ token.shown
  | expectedClosing token => "expected ')', got " ++ found token
  | expectedTerm token => "expected a word or '(', got " ++ found token

end PatternError

end LayeredConfig
