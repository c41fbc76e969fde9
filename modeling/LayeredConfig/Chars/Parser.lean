/-!
# LayeredConfig — parsers on characters

A parser takes characters from the front of its input and gives a result, or
it fails and takes none. The input carries its own length, so repetition can
see at each turn whether anything was taken and ends when nothing was.

* `Parser`       — the type; `p <|> q` tries `q` where `p` failed.
* `Parser.many`  — a parser repeated until it fails.
* `Parser.whole` — a parser that has to take the whole of a text.
-/

namespace LayeredConfig

/-- The characters still to be read and how many they are. -/
structure Input where
  chars : List Char
  left : Nat
  left_eq : left = chars.length

namespace Input

/-- The input that holds these characters. -/
def ofList (chars : List Char) : Input := ⟨chars, chars.length, rfl⟩

/-- The first character and the input behind it. -/
def next? : Input → Option (Char × Input)
  | ⟨[], _, _⟩ => none
  | ⟨c :: rest, left, h⟩ => some (c, ⟨rest, left - 1, by simp [h]⟩)

/-- The characters in front that satisfy `p`, and the input behind them. -/
def span (p : Char → Bool) (input : Input) : List Char × Input :=
  let taken := input.chars.takeWhile p
  (taken, ⟨input.chars.dropWhile p, input.left - taken.length, by
    have h : (taken ++ input.chars.dropWhile p).length = input.chars.length := by
      rw [List.takeWhile_append_dropWhile]
    rw [List.length_append] at h
    have hLeft := input.left_eq
    omega⟩)

end Input

/-- Takes characters from the front of the input, or fails. -/
abbrev Parser := StateT Input Option

namespace Parser

/-- The next character, left where it is. -/
def peek : Parser (Option Char) := fun input => some (input.chars.head?, input)

/-- A character that satisfies `p`. -/
def satisfy (p : Char → Bool) : Parser Char := fun input =>
  match input.next? with
  | some (c, rest) => if p c then some (c, rest) else none
  | none => none

/-- This very character. -/
def char (c : Char) : Parser Unit := do
  let _ ← satisfy (· == c)

/-- These very characters. -/
def chars : List Char → Parser Unit
  | [] => pure ()
  | c :: rest => do
    char c
    chars rest

/-- The characters in front that satisfy `p`, perhaps none. -/
def takeWhile (p : Char → Bool) : Parser (List Char) := fun input =>
  some (input.span p)

/-- At least one character in front, all that satisfy `p`. -/
def takeWhile1 (p : Char → Bool) : Parser (List Char) := do
  let taken ← takeWhile p
  if taken.isEmpty then failure else pure taken

/-- Drops the characters in front that satisfy `p`. -/
def skipWhile (p : Char → Bool) : Parser Unit := do
  let _ ← takeWhile p

/-- Exactly `n` characters that satisfy `p`. -/
def count (n : Nat) (p : Char → Bool) : Parser (List Char) :=
  match n with
  | 0 => pure []
  | n + 1 => do
    let c ← satisfy p
    return c :: (← count n p)

/-- What `p` gives, or nothing where it fails. -/
def optional (p : Parser α) : Parser (Option α) := (some <$> p) <|> pure none

/-- The results of `p` repeated until it fails or takes nothing. -/
def manyFrom (p : Parser α) (input : Input) : List α × Input :=
  match p input with
  | none => ([], input)
  | some (a, rest) =>
    if rest.left < input.left then
      let (more, final) := manyFrom p rest
      (a :: more, final)
    else ([], input)
termination_by input.left

/-- The results of `p`, repeated until it fails or takes nothing. -/
def many (p : Parser α) : Parser (List α) := fun input => some (manyFrom p input)

/-- The results of `p`, at least one, with `separator` between them. -/
def sepBy1 (p : Parser α) (separator : Parser Unit) : Parser (List α) := do
  let first ← p
  let more ← many (do separator; p)
  return first :: more

/-- The end of the input. -/
def finish : Parser Unit := fun input =>
  if input.chars.isEmpty then some ((), input) else none

/-- What `p` gives for a text that it takes to its end. -/
def whole (p : Parser α) (text : List Char) : Option α :=
  (StateT.run (do let a ← p; finish; return a) (Input.ofList text)).map (·.1)

end Parser

end LayeredConfig
