import LayeredConfig.Chars.Parser

/-!
# LayeredConfig — digits

Digits of bases up to thirty-six: the decimal digits, then the letters, in
either case. Numbers are read from their digits, the leading one first.

* `Chars.ofDigits`     — the number that digits write.
* `Parser.hexNumber`   — a number of base sixteen with a fixed count of digits.
* `Parser.scalarValue` — the character with a code point.
-/

namespace LayeredConfig

namespace Chars

/-- The number that a digit stands for. -/
def digitValue (c : Char) : Nat :=
  if c.isDigit then c.toNat - '0'.toNat else c.toLower.toNat - 'a'.toNat + 10

/-- A digit of a base. -/
def isDigitOf (base : Nat) (c : Char) : Bool :=
  (c.isDigit || c.isAlpha) && digitValue c < base

/-- The number that digits write in a base. -/
def ofDigits (base : Nat) (digits : List Char) : Nat :=
  digits.foldl (fun n c => base * n + digitValue c) 0

end Chars

namespace Parser

/-- A number written with exactly `n` digits of base sixteen. -/
def hexNumber (n : Nat) : Parser Nat := do
  return Chars.ofDigits 16 (← count n (Chars.isDigitOf 16))

/-- The character with this code point, which must not be a surrogate. -/
def scalarValue (n : Nat) : Parser Char :=
  if h : n.isValidChar then pure (Char.ofNatAux n h) else failure

end Parser

end LayeredConfig
