import LayeredConfig.Chars.Digits

/-!
# LayeredConfig — blanks, comments and strings of TOML

A string is basic, with escapes, or literal, without; both forms may span
lines when written between triple quotes. Then a line break right behind the
opening quotes is dropped, line breaks are read as `\n`, and one or two
quotes may stand anywhere, also right before the closing ones.

* `Toml.blanks`, `Toml.newline`, `Toml.comment`, `Toml.filler`
* `Toml.string` — a string in any of its four forms.
-/

namespace LayeredConfig

namespace Toml

-- ---------------------------------------------------------------------------
-- Blanks and comments
-- ---------------------------------------------------------------------------

/-- A space or a tab. -/
def isBlank (c : Char) : Bool := c == ' ' || c == '\t'

/-- A character of a comment or a string: a tab, or no control character. -/
def isPlain (c : Char) : Bool := c == '\t' || (0x20 ≤ c.toNat && c != '\x7f')

/-- Spaces and tabs, perhaps none. -/
def blanks : Parser Unit := Parser.skipWhile isBlank

/-- A line break, with or without a carriage return. -/
def newline : Parser Unit := Parser.char '\n' <|> Parser.chars ['\r', '\n']

/-- A comment without the line break behind it. -/
def comment : Parser Unit := do
  Parser.char '#'
  Parser.skipWhile isPlain

/-- At least one blank. -/
def someBlanks : Parser Unit := do
  let _ ← Parser.takeWhile1 isBlank

/-- Blanks, line breaks and comments, perhaps none. -/
def filler : Parser Unit := do
  let _ ← Parser.many (someBlanks <|> newline <|> comment)

/-- The end of a line: blanks, perhaps a comment, and a line break or the end
of the text. -/
def lineEnd : Parser Unit := do
  blanks
  let _ ← Parser.optional comment
  newline <|> Parser.finish

-- ---------------------------------------------------------------------------
-- Escapes
-- ---------------------------------------------------------------------------

/-- The character whose code point is written with `n` digits. -/
def codePoint (n : Nat) : Parser Char := do
  Parser.scalarValue (← Parser.hexNumber n)

/-- A backslash and what it makes of the next characters. -/
def escape : Parser Char := do
  Parser.char '\\'
  match ← Parser.satisfy (fun _ => true) with
  | '"' => pure '"'
  | '\\' => pure '\\'
  | 'b' => pure '\x08'
  | 'f' => pure '\x0c'
  | 'n' => pure '\n'
  | 'r' => pure '\r'
  | 't' => pure '\t'
  | 'u' => codePoint 4
  | 'U' => codePoint 8
  | _ => failure

-- ---------------------------------------------------------------------------
-- Strings
-- ---------------------------------------------------------------------------

/-- A basic string on one line. -/
def basicString : Parser String := do
  Parser.char '"'
  let cs ← Parser.many (Parser.satisfy (fun c => isPlain c && c != '"' && c != '\\') <|> escape)
  Parser.char '"'
  return String.ofList cs

/-- A literal string on one line. -/
def literalString : Parser String := do
  Parser.char '\''
  let cs ← Parser.takeWhile (fun c => isPlain c && c != '\'')
  Parser.char '\''
  return String.ofList cs

/-- One or two quotes that are not part of a longer run. -/
def shortQuotes (quote : Char) : Parser (List Char) := do
  let run ← Parser.takeWhile1 (· == quote)
  if run.length ≤ 2 then pure run else failure

/-- The closing quotes, and up to two more that belong to the string. -/
def closingQuotes (quote : Char) : Parser (List Char) := do
  let run ← Parser.takeWhile1 (· == quote)
  if 3 ≤ run.length ∧ run.length ≤ 5 then pure (run.drop 3) else failure

/-- A string between triple quotes, made of pieces and short runs of quotes. -/
def multiline (quote : Char) (piece : Parser (List Char)) : Parser String := do
  Parser.chars [quote, quote, quote]
  let _ ← Parser.optional newline
  let pieces ← Parser.many (piece <|> shortQuotes quote)
  let last ← closingQuotes quote
  return String.ofList (pieces.flatten ++ last)

/-- A line break inside a string. -/
def innerNewline : Parser (List Char) := do
  newline
  return ['\n']

/-- A backslash at the end of a line: it drops the line break and all blanks
and line breaks behind it. -/
def joinLines : Parser (List Char) := do
  Parser.char '\\'
  blanks
  newline
  let _ ← Parser.many (someBlanks <|> newline)
  return []

/-- A basic string over lines. -/
def multilineBasicString : Parser String :=
  multiline '"' <|
    Parser.takeWhile1 (fun c => isPlain c && c != '"' && c != '\\')
      <|> joinLines <|> (List.singleton <$> escape) <|> innerNewline

/-- A literal string over lines. -/
def multilineLiteralString : Parser String :=
  multiline '\'' (Parser.takeWhile1 (fun c => isPlain c && c != '\'') <|> innerNewline)

/-- A string in any of its forms. -/
def string : Parser String :=
  multilineBasicString <|> basicString <|> multilineLiteralString <|> literalString

end Toml

end LayeredConfig
