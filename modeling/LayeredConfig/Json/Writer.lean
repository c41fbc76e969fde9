import LayeredConfig.Json.Basic
import LayeredConfig.Decimal.Layout

/-!
# LayeredConfig — writing JSON

Documents are written without any space. In strings only what has to be
escaped is: the quote, the backslash, and the control characters below the
space, with a letter where JSON has one for them.

* `Json.numbers` — how floats are written.
* `Json.write`   — the text of a document.
-/

namespace LayeredConfig

namespace Json

/-- Floats always have a point or an exponent: positional from `10⁻⁵` up to
below `10¹⁶`, a tie going to the even digit. -/
def numbers : Layout :=
  { tie := .even
    positionalFrom := some (-5)
    positionalBelow := some 16
    integralEnd := ".0" }

/-- A digit of base sixteen, in lower case. -/
def hexDigit (n : Nat) : Char := (Nat.digitChar (n % 16))

/-- A character as it stands in a string. -/
def escape (c : Char) : List Char :=
  if c = '"' then ['\\', '"']
  else if c = '\\' then ['\\', '\\']
  else if c = '\x08' then ['\\', 'b']
  else if c = '\x0c' then ['\\', 'f']
  else if c = '\n' then ['\\', 'n']
  else if c = '\r' then ['\\', 'r']
  else if c = '\t' then ['\\', 't']
  else if c.toNat < 0x20 then
    ['\\', 'u', '0', '0', hexDigit (c.toNat / 16), hexDigit c.toNat]
  else [c]

/-- A string in quotes. -/
def quote (s : String) : String :=
  String.ofList ('"' :: (s.toList.flatMap escape ++ ['"']))

/-- The text of a scalar. A float that is not finite has no JSON form and
becomes null. -/
def writeScalar : JsonScalar → String
  | .null => "null"
  | .bool true => "true"
  | .bool false => "false"
  | .integer n => toString n
  | .float x => (numbers.float? x).getD "null"
  | .string s => quote s

mutual

/-- The text of a document. -/
def write : Json → String
  | .leaf s => writeScalar s
  | .seq items => "[" ++ ",".intercalate (writeItems items) ++ "]"
  | .table members => "\x7b" ++ ",".intercalate (writeMembers members) ++ "\x7d"

def writeItems : List (Tree JsonScalar) → List String
  | [] => []
  | item :: rest => write item :: writeItems rest

def writeMembers : List (String × Tree JsonScalar) → List String
  | [] => []
  | (key, item) :: rest => (quote key ++ ":" ++ write item) :: writeMembers rest

end

end Json

end LayeredConfig
