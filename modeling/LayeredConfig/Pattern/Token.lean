/-!
# LayeredConfig — pattern tokens

A pattern is written with words, dots, parentheses and bars. A word is a run
of letters, digits, underscores and hyphens, all of them ASCII, and as long as
it can be.

* `PatternToken.scan` — the tokens of a text, or its first character that
  belongs to no token.
-/

namespace LayeredConfig

/-- A token of a pattern. -/
inductive PatternToken where
  | word (chars : List Char)
  | dot
  | opening
  | closing
  | bar
  deriving DecidableEq, Repr

namespace PatternToken

/-- A character of a word. -/
def isWordChar (c : Char) : Bool := c.isAlphanum || c == '_' || c == '-'

/-- The token that a character is by itself. -/
def ofMark? : Char → Option PatternToken
  | '.' => some dot
  | '(' => some opening
  | ')' => some closing
  | '|' => some bar
  | _ => none

/-- The tokens with a character in front that belongs to a word. -/
def consWordChar (c : Char) : List PatternToken → List PatternToken
  | word cs :: rest => word (c :: cs) :: rest
  | tokens => word [c] :: tokens

/-- The tokens of a text, or its first character that belongs to none. -/
def scan : List Char → Except Char (List PatternToken)
  | [] => .ok []
  | c :: rest =>
    if isWordChar c then consWordChar c <$> scan rest
    else
      match ofMark? c with
      | some token => (token :: ·) <$> scan rest
      | none => .error c

/-- The token as error messages show it. -/
def shown : PatternToken → String
  | word cs => "'" ++ String.ofList cs ++ "'"
  | dot => "'.'"
  | opening => "'('"
  | closing => "')'"
  | bar => "'|'"

end PatternToken

end LayeredConfig
