import LayeredConfig.Pattern.Basic

/-!
# LayeredConfig — reading patterns

The tokens of a pattern are read from left to right. What has been read of
the innermost expression is a `Run`; around it stand the groups that are still
open. At each token the reader is in one of three places: where an expression
may begin, behind a dot, or behind a term.

Words with dots between them become one part. A group with a single branch is
that branch, and a branch with a single part is that part.

* `Pattern.parse` — the pattern that a text writes, or why it is none.
-/

namespace LayeredConfig

namespace Pattern

/-- The parts of an expression as far as they are read, last one first. -/
structure Run where
  parts : List Element
  /-- The last part is a word that a further word is joined to. -/
  joinable : Bool

namespace Run

/-- Nothing read yet. -/
def empty : Run := ⟨[], false⟩

/-- A word more. -/
def addWord (run : Run) (chars : List Char) : Run :=
  let segment := String.ofList chars
  match run.joinable, run.parts with
  | true, .word segments :: rest => ⟨.word (segments ++ [segment]) :: rest, true⟩
  | _, parts => ⟨.word [segment] :: parts, true⟩

/-- A group more. -/
def addGroup (run : Run) (group : Element) : Run := ⟨group :: run.parts, false⟩

/-- The run as a branch of a group. -/
def toBranch (run : Run) : Element :=
  match run.parts with
  | [part] => part
  | parts => .seq parts.reverse

end Run

/-- A group still open: what stands before it, and its finished branches, last
one first. -/
structure OpenGroup where
  before : Run
  branches : List Element

namespace OpenGroup

/-- The group with its last branch. -/
def close (group : OpenGroup) (last : Run) : Run :=
  match (last.toBranch :: group.branches).reverse with
  | [branch] => group.before.addGroup branch
  | branches => group.before.addGroup (.alt branches)

end OpenGroup

/-- Where the reader is in an expression. -/
inductive Place where
  | start
  | afterDot
  | afterTerm
  deriving DecidableEq, Repr

/-- What has been read: the innermost expression and the open groups around
it. -/
structure Reader where
  place : Place
  run : Run
  groups : List OpenGroup

namespace Reader

/-- Nothing read yet. -/
def initial : Reader := ⟨.start, .empty, []⟩

/-- The end of a branch, where a bar or a parenthesis may stand. -/
def endBranch (r : Reader) (token : PatternToken) : Except PatternError Reader :=
  match r.groups, token with
  | group :: outer, .closing => .ok ⟨.afterTerm, group.close r.run, outer⟩
  | group :: outer, .bar =>
    .ok ⟨.start, .empty, { group with branches := r.run.toBranch :: group.branches } :: outer⟩
  | _ :: _, _ => .error (.expectedClosing (some token))
  | [], _ => .error (.unexpectedToken token)

/-- One token more. -/
def step (r : Reader) (token : PatternToken) : Except PatternError Reader :=
  match r.place, token with
  | .afterTerm, .dot => .ok { r with place := .afterDot }
  | .afterTerm, _ => r.endBranch token
  | _, .word chars => .ok { r with place := .afterTerm, run := r.run.addWord chars }
  | _, .opening => .ok ⟨.start, .empty, ⟨r.run, []⟩ :: r.groups⟩
  | .afterDot, _ => .error (.expectedTerm (some token))
  | .start, _ => r.endBranch token

/-- The parts of the pattern, where it may end. -/
def finish (r : Reader) : Except PatternError (List Element) :=
  match r.place, r.groups with
  | .afterDot, _ => .error (.expectedTerm none)
  | _, _ :: _ => .error (.expectedClosing none)
  | .start, [] => .error .emptyPattern
  | .afterTerm, [] => .ok r.run.parts.reverse

/-- All the tokens, one after the other. -/
def run? : Reader → List PatternToken → Except PatternError Reader
  | r, [] => .ok r
  | r, token :: rest => (r.step token).bind (fun r => r.run? rest)

end Reader

/-- The parts that tokens write. -/
def parseTokens (tokens : List PatternToken) : Except PatternError (List Element) :=
  (Reader.initial.run? tokens).bind Reader.finish

/-- The pattern that a text writes. -/
def parse (spec : String) : Except PatternError Pattern :=
  match PatternToken.scan spec.toList with
  | .error c => .error (.unexpectedCharacter c spec)
  | .ok tokens => (parseTokens tokens).map (Pattern.mk spec)

end Pattern

end LayeredConfig
