import LayeredConfig.Json.Number

/-!
# LayeredConfig — reading JSON

A document is read strictly: no comments, no trailing commas, no characters
below the space in strings, and no half of a surrogate pair. Of members with
the same key the last one stays. Arrays and objects may be nested in each
other `Json.maxDepth` deep.

* `Json.parse?` — the document that a text writes.
-/

namespace LayeredConfig

namespace Json

/-- How deep arrays and objects may be nested. -/
def maxDepth : Nat := 127

/-- The characters allowed between tokens. -/
def isBlank (c : Char) : Bool := c == ' ' || c == '\t' || c == '\n' || c == '\r'

/-- Blanks, perhaps none. -/
def blanks : Parser Unit := Parser.skipWhile isBlank

-- ---------------------------------------------------------------------------
-- Strings
-- ---------------------------------------------------------------------------

/-- A code unit written with four digits, and a second one where the first is
the high half of a pair. -/
def unicodeEscape : Parser Char := do
  let first ← Parser.hexNumber 4
  if 0xD800 ≤ first && first ≤ 0xDBFF then
    Parser.chars ['\\', 'u']
    let second ← Parser.hexNumber 4
    if 0xDC00 ≤ second && second ≤ 0xDFFF then
      Parser.scalarValue (0x10000 + (first - 0xD800) * 0x400 + (second - 0xDC00))
    else failure
  else Parser.scalarValue first

/-- What follows a backslash. -/
def escaped : Parser Char := do
  match ← Parser.satisfy (fun _ => true) with
  | '"' => pure '"'
  | '\\' => pure '\\'
  | '/' => pure '/'
  | 'b' => pure '\x08'
  | 'f' => pure '\x0c'
  | 'n' => pure '\n'
  | 'r' => pure '\r'
  | 't' => pure '\t'
  | 'u' => unicodeEscape
  | _ => failure

/-- A character of a string. -/
def stringChar : Parser Char :=
  Parser.satisfy (fun c => c != '"' && c != '\\' && 0x20 ≤ c.toNat) <|> do
    Parser.char '\\'
    escaped

/-- A string in quotes. -/
def string : Parser String := do
  Parser.char '"'
  let cs ← Parser.many stringChar
  Parser.char '"'
  return String.ofList cs

-- ---------------------------------------------------------------------------
-- Documents
-- ---------------------------------------------------------------------------

/-- A document without parts. -/
def scalar : Parser Json := do
  match ← Parser.peek with
  | some 'n' => do Parser.chars "null".toList; pure (.leaf .null)
  | some 't' => do Parser.chars "true".toList; pure (.leaf (.bool true))
  | some 'f' => do Parser.chars "false".toList; pure (.leaf (.bool false))
  | some '"' => return .leaf (.string (← string))
  | _ => return .leaf (← number)

/-- What stands between brackets, commas apart, with blanks around it. -/
def listed (first last : Char) (p : Parser α) : Parser (List α) := do
  Parser.char first
  blanks
  match ← Parser.optional (Parser.char last) with
  | some () => pure []
  | none => do
    let items ← Parser.sepBy1 (do blanks; let a ← p; blanks; pure a) (Parser.char ',')
    Parser.char last
    pure items

/-- A member of an object. -/
def member (value : Parser Json) : Parser (String × Json) := do
  let key ← string
  blanks
  Parser.char ':'
  blanks
  return (key, ← value)

/-- A document whose arrays and objects are nested at most `depth` deep. -/
def nested : Nat → Parser Json
  | 0 => scalar
  | depth + 1 => do
    match ← Parser.peek with
    | some '[' => return .seq (← listed '[' ']' (nested depth))
    | some '{' => return .table (Fields.ofList (← listed '{' '}' (member (nested depth))))
    | _ => scalar

/-- The document that a text writes, with blanks around it. -/
def parse? (text : String) : Option Json :=
  Parser.whole (do blanks; let d ← nested maxDepth; blanks; pure d) text.toList

end Json

end LayeredConfig
