import LayeredConfig.Chars.CaseTables

/-!
# LayeredConfig — lower case

Lower casing goes character by character, with two exceptions. The capital I
with a dot becomes two characters, and the capital sigma has a form of its own
at the end of a word: where a cased letter stands before it and none behind
it, characters that are ignored for case not counting.

* `Chars.lowercase` — the lower case of a text.
-/

namespace LayeredConfig

namespace Chars

/-- Whether a code point lies in one of the ranges. -/
def inRanges (ranges : List (Nat × Nat)) (c : Char) : Bool :=
  ranges.any (fun (first, last) => first ≤ c.toNat && c.toNat ≤ last)

/-- Whether the character has the property Cased. -/
def isCased (c : Char) : Bool := inRanges casedRanges c

/-- Whether the character has the property Case_Ignorable. -/
def isCaseIgnorable (c : Char) : Bool := inRanges caseIgnorableRanges c

namespace CaseRun

/-- Whether the run holds the code point. -/
def contains (run : CaseRun) (n : Nat) : Bool :=
  run.first ≤ n && n ≤ run.last && (n - run.first) % run.stride == 0

end CaseRun

/-- The lower case of a character by itself. -/
def lowercaseChar (c : Char) : Char :=
  match lowercaseRuns.find? (fun run => run.contains c.toNat) with
  | some run => Char.ofNat (c.toNat + run.shift).toNat
  | none => c

/-- Whether the first character that is not ignored for case is cased. -/
def startsCased (cs : List Char) : Bool :=
  match cs.dropWhile isCaseIgnorable with
  | [] => false
  | c :: _ => isCased c

/-- The lower case of a character between those before it, last one first, and
those behind it. -/
def lowercaseBetween (before : List Char) (c : Char) (behind : List Char) : List Char :=
  if c = 'Σ' then [if startsCased before && !startsCased behind then 'ς' else 'σ']
  else if c = 'İ' then ['i', '\u0307']
  else [lowercaseChar c]

/-- The lower case of characters, those before them given last one first. -/
def lowercaseFrom (before : List Char) : List Char → List Char
  | [] => []
  | c :: behind => lowercaseBetween before c behind ++ lowercaseFrom (c :: before) behind

/-- The lower case of a text. -/
def lowercase (text : String) : String := String.ofList (lowercaseFrom [] text.toList)

end Chars

end LayeredConfig
