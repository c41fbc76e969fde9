import LayeredConfig.Proofs.Asking
import LayeredConfig.Proofs.Reference
import Mathlib

/-!
# LayeredConfig — what resolvers are told

A resolver is told an expression, and sometimes a call. Both are put together from a body of the
text, piece by piece: its text and its colons as they stand there, and the values of the references
nested in it. What a piece is was settled when the text was read. So a value is passed on as it is:
whatever colons, braces and dollar signs it has, they do not make a call and do not open a
reference.

* `Template.signs_of_parse`  — a template is what the text says, with its braces paired.
* `Template.Spells.split`    — what two parts of a body spell.
* `Request.callOfFragments?_append` — the call behind the first colon.
* `Template.Told`            — what a resolver is told for a body.
* `Template.told_of_call`    — what the resolver is told, at each call.
-/

namespace LayeredConfig

open Eval

-- ---------------------------------------------------------------------------
-- Reading a text
-- ---------------------------------------------------------------------------

/-- What a text says: characters, and within references also colons, with the ends of each
reference. -/
inductive Sign where
  | char (c : Char)
  | colon
  | opening
  | closing

namespace Template

/-- What a token says behind `depth` references that are not closed. -/
def tokenSigns (depth : Nat) : TemplateToken → List Sign
  | .opening => [.opening]
  | .leftBrace => if depth = 0 then [.char '{'] else [.opening]
  | .rightBrace => if depth = 0 then [.char '}'] else [.closing]
  | .colon => if depth = 0 then [.char ':'] else [.colon]
  | .dollar => [.char '$']
  | .text chars => chars.map .char

/-- What tokens say. -/
def signsFrom : Nat → List TemplateToken → List Sign
  | _, [] => []
  | depth, token :: rest => tokenSigns depth token ++ signsFrom (token.nest depth) rest

mutual

/-- What a piece of a body says. -/
def pieceSigns : Piece → List Sign
  | .text chars => chars.map .char
  | .colon => [.colon]
  | .lookup body => .opening :: bodySigns body ++ [.closing]

def bodySigns : List Piece → List Sign
  | [] => []
  | piece :: rest => pieceSigns piece ++ bodySigns rest

end

/-- What a part of a template says. -/
def partSigns : Part → List Sign
  | .literal chars => chars.map .char
  | .reference body => .opening :: bodySigns body ++ [.closing]

/-- What a template says. -/
def signs (template : Template) : List Sign := template.flatMap partSigns

theorem bodySigns_append (front back : List Piece) :
    bodySigns (front ++ back) = bodySigns front ++ bodySigns back := by
  induction front with
  | nil => rfl
  | cons piece rest ih => rw [List.cons_append, bodySigns, ih, bodySigns, List.append_assoc]

theorem bodySigns_concat (body : List Piece) (piece : Piece) :
    bodySigns (body ++ [piece]) = bodySigns body ++ pieceSigns piece := by
  rw [bodySigns_append, bodySigns, bodySigns, List.append_nil]

theorem signs_concat (template : Template) (part : Part) :
    signs (template ++ [part]) = signs template ++ partSigns part := by
  rw [signs, List.flatMap_append, List.flatMap_singleton, signs]

namespace Builder

/-- What the open bodies say, outermost first. -/
def openSigns (bodies : List (List Piece)) : List Sign :=
  bodies.reverse.flatMap fun body => .opening :: bodySigns body.reverse

/-- What has been read says. -/
def signs (b : Builder) : List Sign := Template.signs b.parts.reverse ++ openSigns b.bodies

theorem openSigns_cons (body : List Piece) (outer : List (List Piece)) :
    openSigns (body :: outer) = openSigns outer ++ .opening :: bodySigns body.reverse := by
  rw [openSigns, List.reverse_cons, List.flatMap_append, List.flatMap_singleton, openSigns]

theorem signs_addLiteral (chars : List Char) (parts : List Part) :
    Template.signs (addLiteral chars parts).reverse =
      Template.signs parts.reverse ++ chars.map .char := by
  rw [addLiteral.eq_def]
  split
  · rw [List.reverse_cons, List.reverse_cons, signs_concat, signs_concat, partSigns, partSigns,
      List.map_append, List.append_assoc]
  · rw [List.reverse_cons, signs_concat, partSigns]

theorem bodySigns_addText (chars : List Char) (body : List Piece) :
    bodySigns (addText chars body).reverse = bodySigns body.reverse ++ chars.map .char := by
  rw [addText.eq_def]
  split
  · rw [List.reverse_cons, List.reverse_cons, bodySigns_concat, bodySigns_concat, pieceSigns,
      pieceSigns, List.map_append, List.append_assoc]
  · rw [List.reverse_cons, bodySigns_concat, pieceSigns]

/-- One token more says what it says there. To close a body adds a sign behind it, whichever body
that is then in. -/
theorem signs_step (b : Builder) (token : TemplateToken) :
    (b.step token).signs = b.signs ++ tokenSigns b.bodies.length token := by
  obtain ⟨parts, bodies⟩ := b
  cases bodies with
  | nil =>
    have hLiteral : ∀ chars, signs ⟨addLiteral chars parts, []⟩ =
        signs ⟨parts, []⟩ ++ chars.map .char := by
      intro chars
      rw [signs, signs, signs_addLiteral]
      simp only [openSigns, List.reverse_nil, List.flatMap_nil, List.append_nil]
    cases token with
    | opening =>
      show signs ⟨parts, [[]]⟩ = signs ⟨parts, []⟩ ++ [.opening]
      rw [signs, signs, openSigns_cons, List.append_assoc]
      rfl
    | _ => exact hLiteral _
  | cons body outer =>
    have hText : ∀ chars, signs ⟨parts, addText chars body :: outer⟩ =
        signs ⟨parts, body :: outer⟩ ++ chars.map .char := by
      intro chars
      rw [signs, signs, openSigns_cons, openSigns_cons, bodySigns_addText]
      simp only [List.append_assoc, List.cons_append]
    have hOpen : signs ⟨parts, [] :: body :: outer⟩ =
        signs ⟨parts, body :: outer⟩ ++ [.opening] := by
      rw [signs, signs, openSigns_cons [], ← List.append_assoc]
      rfl
    cases token with
    | opening => exact hOpen
    | leftBrace => exact hOpen
    | rightBrace =>
      cases outer with
      | nil =>
        show signs ⟨.reference body.reverse :: parts, []⟩ = signs ⟨parts, [body]⟩ ++ [.closing]
        rw [signs, signs, openSigns_cons, List.reverse_cons, signs_concat, partSigns]
        simp only [openSigns, List.reverse_nil, List.flatMap_nil, List.nil_append, List.append_nil,
          List.append_assoc, List.cons_append]
      | cons around rest =>
        show signs ⟨parts, (.lookup body.reverse :: around) :: rest⟩ =
          signs ⟨parts, body :: around :: rest⟩ ++ [.closing]
        rw [signs, signs, openSigns_cons, openSigns_cons, openSigns_cons, List.reverse_cons,
          bodySigns_concat, pieceSigns]
        simp only [List.append_assoc, List.cons_append]
    | colon =>
      show signs ⟨parts, (.colon :: body) :: outer⟩ = signs ⟨parts, body :: outer⟩ ++ [.colon]
      rw [signs, signs, openSigns_cons, openSigns_cons, List.reverse_cons, bodySigns_concat,
        pieceSigns]
      simp only [List.append_assoc, List.cons_append]
    | text chars => exact hText chars
    | dollar => exact hText ['$']

theorem signs_foldl (tokens : List TemplateToken) (b : Builder) :
    (tokens.foldl step b).signs = b.signs ++ signsFrom b.bodies.length tokens := by
  induction tokens generalizing b with
  | nil => exact (List.append_nil _).symm
  | cons token rest ih =>
    rw [List.foldl_cons, ih, signs_step, length_bodies_step, signsFrom, List.append_assoc]

end Builder

/-- **A template is what the text says.** -/
theorem signs_of_parse {text : String} {template : Template} (h : parse text = .ok template) :
    template.signs = signsFrom 0 (TemplateToken.scan text.toList) := by
  have hRead := Builder.signs_foldl (TemplateToken.scan text.toList) Builder.empty
  rw [parse, ofTokens, Builder.finish] at h
  generalize (TemplateToken.scan text.toList).foldl Builder.step Builder.empty = b at h hRead
  obtain ⟨parts, bodies⟩ := b
  cases bodies with
  | cons body outer => cases h
  | nil =>
    cases h
    exact (List.append_nil _).symm.trans hRead

end Template

-- ---------------------------------------------------------------------------
-- What fragments spell
-- ---------------------------------------------------------------------------

namespace Fragment

theorem renderAll_append (front back : List Fragment) :
    renderAll (front ++ back) = renderAll front ++ renderAll back := by
  rw [renderAll, List.map_append, String.join_append, renderAll, renderAll]

/-- However an argument is made, its text is that of the fragments. -/
theorem render_argument (fragments : List Fragment) :
    Value.render (argument fragments) = renderAll fragments := by
  rw [argument.eq_def]
  split
  · rename_i found
    cases found with
    | none => rfl
    | some v => exact (String.join_cons.trans String.append_empty).symm
  · rfl

end Fragment

namespace Request

/-- Without a colon there is no call, whatever the values are. -/
theorem callOfFragments?_eq_none {fragments : List Fragment}
    (h : ∀ fragment ∈ fragments, (!fragment.isColon) = true) :
    callOfFragments? fragments = none := by
  rw [callOfFragments?, List.span_eq_takeWhile_dropWhile, List.dropWhile_eq_nil_iff.2 h]

/-- The first colon of the fragments makes the call, if there is a name in front of it. -/
theorem callOfFragments?_append {named : List Fragment}
    (h : ∀ fragment ∈ named, (!fragment.isColon) = true) (given : List Fragment) :
    callOfFragments? (named ++ .colon :: given) =
      if isIdentifier (Fragment.renderAll named) then
        some ⟨Fragment.renderAll named, Fragment.argument given⟩
      else none := by
  rw [callOfFragments?, List.span_eq_takeWhile_dropWhile, List.takeWhile_append_of_pos h,
    List.dropWhile_append_of_pos h]
  simp only [List.takeWhile_cons, List.dropWhile_cons]
  simp [Fragment.isColon]

end Request

namespace Template

section

variable {n : Nat} {subject : Option Text}

/-- What two parts of a body spell, one behind the other. -/
theorem Spells.split {front back : List Piece} {calls : List Asked} {fragments : List Fragment}
    (h : Spells n subject (front ++ back) calls fragments) :
    ∃ first second named given, calls = first ++ second ∧ fragments = named ++ given ∧
      Spells n subject front first named ∧ Spells n subject back second given := by
  induction front generalizing calls fragments with
  | nil => exact ⟨[], calls, [], fragments, rfl, rfl, .nil, h⟩
  | cons piece rest ih =>
    cases h with
    | text chars h =>
      obtain ⟨first, second, named, given, rfl, rfl, hFront, hBack⟩ := ih h
      exact ⟨first, second, _, given, rfl, rfl, .text chars hFront, hBack⟩
    | colon h =>
      obtain ⟨first, second, named, given, rfl, rfl, hFront, hBack⟩ := ih h
      exact ⟨first, second, _, given, rfl, rfl, .colon hFront, hBack⟩
    | lookup hBody hAnswered h =>
      obtain ⟨first, second, named, given, rfl, rfl, hFront, hBack⟩ := ih h
      exact ⟨_, second, _, given, (List.append_assoc ..).symm, rfl,
        .lookup hBody hAnswered hFront, hBack⟩

/-- A value is no colon, whatever it has in it. -/
theorem Spells.not_isColon {body : List Piece} {calls : List Asked} {fragments : List Fragment}
    (h : Spells n subject body calls fragments) (hBody : Piece.colon ∉ body) :
    ∀ fragment ∈ fragments, (!fragment.isColon) = true := by
  induction h with
  | nil => exact fun fragment hFragment => absurd hFragment List.not_mem_nil
  | text chars _ ih =>
    exact List.forall_mem_cons.2 ⟨rfl, ih fun hRest => hBody (List.mem_cons_of_mem _ hRest)⟩
  | colon => exact absurd List.mem_cons_self hBody
  | lookup _ _ _ _ ih =>
    exact List.forall_mem_cons.2 ⟨rfl, ih fun hRest => hBody (List.mem_cons_of_mem _ hRest)⟩

/-- A colon spells a colon. -/
theorem Spells.of_colon {rest : List Piece} {calls : List Asked} {fragments : List Fragment}
    (h : Spells n subject (.colon :: rest) calls fragments) :
    ∃ given, fragments = .colon :: given ∧ Spells n subject rest calls given := by
  cases h with
  | colon h => exact ⟨_, rfl, h⟩

/-- An argument that is one reference is its value. -/
theorem Spells.argument_eq {nested : List Piece} {calls : List Asked} {given : List Fragment}
    (h : Spells n subject [.lookup nested] calls given) :
    ∃ inner asking spelled found, calls = inner ++ asking ∧
      Spells n subject nested inner spelled ∧
      Answered (.ofFragments spelled subject) 0 n asking (.ok found) ∧
      Fragment.argument given = found.getD (Value.ofString "") := by
  cases h with
  | lookup hNested hAnswered hRest =>
    cases hRest
    exact ⟨_, _, _, _, List.append_nil _, hNested, hAnswered, rfl⟩

end

-- ---------------------------------------------------------------------------
-- What is told
-- ---------------------------------------------------------------------------

/-- What a resolver is told for a body that came to spell the fragments by the calls `during`, in a
chain of `n` resolvers. -/
structure Told (n : Nat) (subject : Option Text) (body : List Piece) (during : List Asked)
    (fragments : List Fragment) (request : Request) : Prop where
  /-- The text that is interpolated. -/
  subject_eq : request.subject = subject
  /-- The fragments, and the values among them as they are. -/
  expression_eq : request.expression = Fragment.renderAll fragments
  /-- Without a colon of the body's own there is no call. -/
  call_eq_none : .colon ∉ body → request.call = none
  /-- With one there is a call if what stands in front of the first one spells an identifier. The
  argument is what stands behind, and the value itself where this is one reference. -/
  call_eq : ∀ front back, body = front ++ .colon :: back → .colon ∉ front →
    ∃ first second named given, during = first ++ second ∧ fragments = named ++ .colon :: given ∧
      Spells n subject front first named ∧ Spells n subject back second given ∧
      request.call = (if isIdentifier (Fragment.renderAll named) then
        some ⟨Fragment.renderAll named, Fragment.argument given⟩ else none) ∧
      request.expression =
        Fragment.renderAll named ++ ":" ++ Value.render (Fragment.argument given) ∧
      ∀ nested, back = [.lookup nested] → ∃ inner asking spelled found, second = inner ++ asking ∧
        Spells n subject nested inner spelled ∧
        Answered (.ofFragments spelled subject) 0 n asking (.ok found) ∧
        Fragment.argument given = found.getD (Value.ofString "")

theorem told_ofFragments {n : Nat} {subject : Option Text} {body : List Piece}
    {during : List Asked} {fragments : List Fragment} (h : Spells n subject body during fragments) :
    Told n subject body during fragments (.ofFragments fragments subject) where
  subject_eq := rfl
  expression_eq := rfl
  call_eq_none hBody := Request.callOfFragments?_eq_none (h.not_isColon hBody)
  call_eq := by
    rintro front back rfl hFront
    obtain ⟨first, second, named, others, rfl, rfl, hNamed, hOthers⟩ := h.split
    obtain ⟨given, rfl, hGiven⟩ := hOthers.of_colon
    refine ⟨first, second, named, given, rfl, rfl, hNamed, hGiven,
      Request.callOfFragments?_append (hNamed.not_isColon hFront) given, ?_, ?_⟩
    · rw [Fragment.render_argument, Request.ofFragments, Fragment.renderAll_append,
        ← List.singleton_append, Fragment.renderAll_append, ← String.append_assoc]
      rfl
    · rintro nested rfl
      exact hGiven.argument_eq

section

variable {resolvers : List (Resolver σ)} {subject : Option Text} {text : String} {s : σ}

/-- **What a resolver is told.** Each call is made for the body of a reference that the text has,
with its braces paired as they stand there. By then, earlier calls have given the body what it
spells, and the resolvers before have declined. -/
theorem told_of_call {front back : List Asked} {call : Asked}
    (h : calls resolvers subject text s = front ++ call :: back) :
    ∃ template body earlier during fragments, parse text = .ok template ∧
      template.signs = signsFrom 0 (TemplateToken.scan text.toList) ∧ body ∈ template.bodies ∧
      front = earlier ++ during ++ declines call.request 0 call.place ∧
      Spells resolvers.length subject body during fragments ∧
      Told resolvers.length subject body during fragments call.request := by
  cases hParse : parse text with
  | error e =>
    rw [calls, interpolate, hParse] at h
    cases front <;> cases h
  | ok template =>
    obtain ⟨body, hBody, earlier, during, fragments, hFront, hSpells, hRequest⟩ :=
      (accounts_interpolate hParse resolvers subject s).made front call back h
    exact ⟨template, body, earlier, during, fragments, rfl, signs_of_parse hParse, hBody, hFront,
      hSpells, hRequest ▸ told_ofFragments hSpells⟩

end

/-- A value with all the characters in it that templates give a meaning to. -/
def markedValue : Value := Value.ofString "x:$\x7bb\x7d$$"

/-- Knows `a`. -/
def marking : Resolver Unit := fun request =>
  pure (if request.expression = "a" then some markedValue else none)

/-- The value of `a` becomes the argument of a call. Nothing is asked about what is in it. -/
theorem told_of_call_of_marked :
    calls [marking] none "$\x7bf:$\x7ba\x7d\x7d" () =
        [⟨0, ⟨"a", none, none⟩, .ok (some markedValue)⟩,
          ⟨0, ⟨"f:x:$\x7bb\x7d$$", some ⟨"f", markedValue⟩, none⟩, .ok none⟩] ∧
      ∃ body during fragments, Spells 1 none body during fragments ∧
        Told 1 none body during fragments ⟨"f:x:$\x7bb\x7d$$", some ⟨"f", markedValue⟩, none⟩ := by
  have hCalls : calls [marking] none "$\x7bf:$\x7ba\x7d\x7d" () =
      [⟨0, ⟨"a", none, none⟩, .ok (some markedValue)⟩,
        ⟨0, ⟨"f:x:$\x7bb\x7d$$", some ⟨"f", markedValue⟩, none⟩, .ok none⟩] := by cbv
  obtain ⟨_, body, _, during, fragments, -, -, -, -, hSpells, hTold⟩ :=
    told_of_call (hCalls.trans (List.singleton_append).symm)
  exact ⟨hCalls, body, during, fragments, hSpells, hTold⟩

end Template

end LayeredConfig
