import LayeredConfig.Toml.Document
import LayeredConfig.Toml.Number
import LayeredConfig.Toml.Text

/-!
# LayeredConfig — reading TOML

A document is read as statements, each on lines of its own, and these are put
together into a table. Arrays and inline tables may be nested `Toml.maxDepth`
deep, and a dotted key has at most `Toml.maxKeyLength` segments.

* `Toml.parse?` — the document that a text writes.
-/

namespace LayeredConfig

namespace Toml

/-- How deep arrays and inline tables may be nested. -/
def maxDepth : Nat := 79

/-- How many segments a key may have. -/
def maxKeyLength : Nat := 79

-- ---------------------------------------------------------------------------
-- Keys
-- ---------------------------------------------------------------------------

/-- A character of a bare key. -/
def isKeyChar (c : Char) : Bool := c.isAlphanum || c == '-' || c == '_'

/-- A segment of a key: bare, or a string on one line. -/
def keySegment : Parser String := do
  match ← Parser.peek with
  | some '"' => basicString
  | some '\'' => literalString
  | _ => String.ofList <$> Parser.takeWhile1 isKeyChar

/-- A key: what stands before the last dot, and its last segment. Blanks may
stand around the segments. -/
def key : Parser (List String × String) := do
  let segments ← Parser.sepBy1 (do blanks; let s ← keySegment; blanks; pure s) (Parser.char '.')
  match segments.getLast? with
  | some last =>
    if segments.length ≤ maxKeyLength then pure (segments.dropLast, last) else failure
  | none => failure

-- ---------------------------------------------------------------------------
-- Values
-- ---------------------------------------------------------------------------

/-- A date, a time, or a number. -/
def dateOrNumber : Parser TomlScalar :=
  (.datetime <$> DateTime.parser) <|> (.float <$> float) <|> (.integer <$> integer)

/-- A value without parts. -/
def scalar : Parser TomlScalar := do
  match ← Parser.peek with
  | some '"' | some '\'' => .string <$> string
  | some 't' => do Parser.chars "true".toList; pure (.boolean true)
  | some 'f' => do Parser.chars "false".toList; pure (.boolean false)
  | some 'i' | some 'n' => .float <$> namedFloat
  | _ => dateOrNumber

/-- What `p` gives, nothing if it fails, for each place between commas. -/
def listed (p : Parser α) : Parser (List α) := do
  return (← Parser.optional (Parser.sepBy1 p (Parser.char ','))).getD []

/-- An array: line breaks and comments may stand between its parts, and a comma
behind its last item. -/
def array (value : Parser Toml) : Parser Toml := do
  Parser.char '['
  let items ← listed (do filler; let v ← value; filler; pure v)
  if !items.isEmpty then
    let _ ← Parser.optional (Parser.char ',')
  filler
  Parser.char ']'
  return .seq items

/-- A key, an equals sign, and a value. -/
def keyValue (value : Parser Toml) : Parser (List String × String × Toml) := do
  let (path, last) ← key
  Parser.char '='
  blanks
  return (path, last, ← value)

/-- An inline table: on one line, and without a comma behind its last entry. -/
def inlineTable (value : Parser Toml) : Parser Toml := do
  Parser.char '{'
  let entries ← listed (do let entry ← keyValue value; blanks; pure entry)
  blanks
  Parser.char '}'
  match TomlNode.inlineTable? entries with
  | some table => pure table
  | none => failure

/-- A value whose arrays and inline tables are nested at most `depth` deep. -/
def nested : Nat → Parser Toml
  | 0 => .leaf <$> scalar
  | depth + 1 => do
    match ← Parser.peek with
    | some '[' => array (nested depth)
    | some '{' => inlineTable (nested depth)
    | _ => .leaf <$> scalar

-- ---------------------------------------------------------------------------
-- Statements
-- ---------------------------------------------------------------------------

/-- The header of an item of an array of tables, or that of a table. -/
def header : Parser TomlStatement := do
  Parser.char '['
  match ← Parser.optional (Parser.char '[') with
  | some () => do
    let (path, last) ← key
    Parser.chars [']', ']']
    return .item path last
  | none => do
    let (path, last) ← key
    Parser.char ']'
    return .table path last

/-- A header or an entry, with the end of its line. -/
def statement : Parser TomlStatement := do
  let s ←
    match ← Parser.peek with
    | some '[' => header
    | _ => do
      let (path, last, v) ← keyValue (nested maxDepth)
      pure (.entry path last v)
  lineEnd
  return s

/-- A line: a statement, a comment, or nothing. -/
def line : Parser (Option TomlStatement) := do
  blanks
  match ← Parser.peek with
  | some '\n' | some '\r' => do newline; pure none
  | some '#' => do comment; newline <|> Parser.finish; pure none
  | _ => some <$> statement

/-- The statements of a document, perhaps with a byte order mark in front. -/
def statements : Parser (List TomlStatement) := do
  let _ ← Parser.optional (Parser.char '\uFEFF')
  let lines ← Parser.many line
  blanks
  return lines.filterMap id

/-- The document that a text writes. -/
def parse? (text : String) : Option Toml :=
  (Parser.whole statements text.toList).bind ofStatements

end Toml

end LayeredConfig
