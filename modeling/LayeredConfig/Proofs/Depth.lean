import LayeredConfig.Proofs.Asking
import LayeredConfig.Proofs.Reference
import Mathlib

/-!
# LayeredConfig — malformed texts and texts that are one reference

Two things about a text can be told by counting braces. From the left, at depth 0 an opening goes
to depth 1 and all else is passed over; above it, openings and left braces go one up, and right
braces one down. Two dollar signs in a row are passed over together.

A text is malformed if it ends above depth 0. That is found out before anybody is asked. It is one
reference if it begins with an opening and depth 0 comes back at its end and not before. Such a
text has the value of the reference; any other one is text.

The parser reads tokens and keeps the bodies that are open. It may as well read characters: a token
of text adds what its characters add one by one (`foldl_step_consTextChar`). Then the depth is the
number of open bodies.

* `Template.depthAfter`              — the depth that characters lead to.
* `Template.IsReference`             — texts that are one reference.
* `Template.parse_eq_error_iff`      — which texts are malformed.
* `Template.exists_parse_reference_iff` — which texts are one reference.
* `Template.interpolate_by_depth`    — what comes of interpolating a text.
-/

namespace LayeredConfig

open Eval

namespace Template

open TemplateToken

-- ---------------------------------------------------------------------------
-- Depth
-- ---------------------------------------------------------------------------

/-- The depth behind the characters, if it is `depth` in front of them. -/
def depthAfter : Nat → List Char → Nat
  | depth, [] => depth
  | depth, '$' :: '{' :: rest => depthAfter (depth + 1) rest
  | depth, '$' :: '$' :: rest => depthAfter depth rest
  | 0, _ :: rest => depthAfter 0 rest
  | depth + 1, '{' :: rest => depthAfter (depth + 2) rest
  | depth + 1, '}' :: rest => depthAfter depth rest
  | depth + 1, _ :: rest => depthAfter (depth + 1) rest

/-- From depth `depth`, the characters lead to depth 0 at their end and not before. -/
def ClosesAtEnd (depth : Nat) (chars : List Char) : Prop :=
  (∀ n < chars.length, 0 < depthAfter depth (chars.take n)) ∧ depthAfter depth chars = 0

/-- The text is one reference, from an opening at its beginning to the brace that closes it, which
is its end. -/
def IsReference (text : String) : Prop :=
  ∃ inside, text.toList = '$' :: '{' :: inside ∧ ClosesAtEnd 1 inside

-- ---------------------------------------------------------------------------
-- Characters and tokens
-- ---------------------------------------------------------------------------

/-- In front of `rest`, the character is no token and does not begin one. -/
structure IsText (c : Char) (rest : List Char) : Prop where
  opening : c = '$' → ∀ more, rest ≠ '{' :: more
  dollar : c = '$' → ∀ more, rest ≠ '$' :: more
  left : c ≠ '{'
  right : c ≠ '}'
  colon : c ≠ ':'

section

variable {c : Char} {rest : List Char}

theorem IsText.take (h : IsText c rest) (n : Nat) : IsText c (rest.take n) where
  opening hc more hTake := h.opening hc (more ++ rest.drop n) <| by
    rw [← List.cons_append, ← hTake, List.take_append_drop]
  dollar hc more hTake := h.dollar hc (more ++ rest.drop n) <| by
    rw [← List.cons_append, ← hTake, List.take_append_drop]
  left := h.left
  right := h.right
  colon := h.colon

theorem IsText.scan_eq (h : IsText c rest) : scan (c :: rest) = consTextChar c (scan rest) := by
  obtain ⟨hOpening, hDollar, hLeft, hRight, hColon⟩ := h
  rw [scan.eq_def]
  split <;> simp_all

theorem IsText.depthAfter_eq (h : IsText c rest) (depth : Nat) :
    depthAfter depth (c :: rest) = depthAfter depth rest := by
  obtain ⟨hOpening, hDollar, hLeft, hRight, -⟩ := h
  rw [depthAfter.eq_def]
  split <;> simp_all

theorem foldl_nest_consTextChar (c : Char) (tokens : List TemplateToken) (depth : Nat) :
    (consTextChar c tokens).foldl nest depth = tokens.foldl nest depth := by
  rw [consTextChar.eq_def]
  split <;> rfl

/-- The depth is what the tokens say. -/
theorem depthAfter_eq (chars : List Char) :
    ∀ depth : Nat, depthAfter depth chars = (scan chars).foldl nest depth := by
  induction chars using scan.induct with
  | case1 => exact fun _ => rfl
  | case2 rest ih => exact fun depth => by cases depth <;> exact ih _
  | case3 rest ih => exact fun depth => by cases depth <;> exact ih _
  | case4 rest ih => exact fun depth => by cases depth <;> exact ih _
  | case5 rest ih => exact fun depth => by cases depth <;> exact ih _
  | case6 rest ih => exact fun depth => by cases depth <;> exact ih _
  | case7 c rest hOpening hDollar hLeft hRight hColon ih =>
    intro depth
    have hText : IsText c rest :=
      ⟨fun hc more => hOpening more hc, fun hc more => hDollar more hc, hLeft, hRight, hColon⟩
    rw [hText.depthAfter_eq, hText.scan_eq, foldl_nest_consTextChar, ih]

/-- A token of text adds what its first character adds, and then what the others do. -/
theorem foldl_step_consTextChar (c : Char) (tokens : List TemplateToken) (b : Builder) :
    (consTextChar c tokens).foldl Builder.step b =
      tokens.foldl Builder.step (b.step (.text [c])) := by
  have hLiteral : ∀ cs parts, Builder.addLiteral cs (Builder.addLiteral [c] parts) =
      Builder.addLiteral (c :: cs) parts := by
    intro cs parts
    rw [Builder.addLiteral.eq_def [c], Builder.addLiteral.eq_def (c :: cs)]
    split
    · rw [Builder.addLiteral, List.append_assoc, List.singleton_append]
    · rfl
  have hText : ∀ cs body, Builder.addText cs (Builder.addText [c] body) =
      Builder.addText (c :: cs) body := by
    intro cs body
    rw [Builder.addText.eq_def [c], Builder.addText.eq_def (c :: cs)]
    split
    · rw [Builder.addText, List.append_assoc, List.singleton_append]
    · rfl
  rw [consTextChar.eq_def]
  split
  · rename_i cs rest
    have hStep : (b.step (.text [c])).step (.text cs) = b.step (.text (c :: cs)) := by
      obtain ⟨parts, bodies⟩ := b
      cases bodies with
      | nil => exact congrArg (Builder.mk · []) (hLiteral cs parts)
      | cons body outer =>
        exact congrArg (fun body => Builder.mk parts (body :: outer)) (hText cs body)
    rw [List.foldl_cons, List.foldl_cons, hStep]
  · rfl

end

-- ---------------------------------------------------------------------------
-- Malformed texts
-- ---------------------------------------------------------------------------

theorem length_bodies (text : String) :
    ((scan text.toList).foldl Builder.step Builder.empty).bodies.length =
      depthAfter 0 text.toList := by
  rw [Builder.length_bodies_foldl, depthAfter_eq]
  rfl

/-- A text is malformed if it ends within a reference. -/
theorem parse_eq_error_iff {text : String} :
    parse text = .error .unclosedReference ↔ 0 < depthAfter 0 text.toList := by
  rw [← length_bodies, parse, ofTokens, Builder.finish]
  cases ((scan text.toList).foldl Builder.step Builder.empty).bodies with
  | nil => exact ⟨fun h => (by cases h), fun h => absurd h (Nat.lt_irrefl 0)⟩
  | cons body outer => exact ⟨fun _ => Nat.succ_pos _, fun _ => rfl⟩

theorem exists_parse_of_depth {text : String} (h : depthAfter 0 text.toList = 0) :
    ∃ template, parse text = .ok template := by
  cases hParse : parse text with
  | ok template => exact ⟨template, rfl⟩
  | error e =>
    rw [eq_unclosedReference_of_parse hParse] at hParse
    exact absurd (parse_eq_error_iff.1 hParse) (by omega)

/-- Nobody is asked about a malformed text. -/
theorem interpolate_of_depth {text : String} (h : 0 < depthAfter 0 text.toList)
    (resolvers : List (Resolver σ)) (subject : Option Text) :
    interpolate resolvers subject text = Eval.fail .unclosedReference := by
  rw [interpolate, parse_eq_error_iff.2 h]
  rfl

-- ---------------------------------------------------------------------------
-- Texts that are one reference
-- ---------------------------------------------------------------------------

namespace Builder

/-- More has been read than one reference, or something before it. -/
def Beyond (b : Builder) : Prop :=
  (∃ front chars, b.parts = front ++ [.literal chars]) ∨
    b.parts ≠ [] ∧ (b.bodies = [] → 2 ≤ b.parts.length)

theorem Beyond.step {b : Builder} (h : b.Beyond) (token : TemplateToken) :
    (b.step token).Beyond := by
  obtain ⟨parts, bodies⟩ := b
  cases bodies with
  | nil =>
    have hLiteral : ∀ chars, Beyond ⟨addLiteral chars parts, []⟩ := by
      intro chars
      rw [addLiteral.eq_def]
      split
      · rename_i before rest
        rcases h with ⟨front, last, hLast⟩ | ⟨-, hTwo⟩
        · left
          cases front with
          | nil =>
            cases hLast
            exact ⟨[], _, rfl⟩
          | cons part front =>
            cases hLast
            exact ⟨_ :: front, last, rfl⟩
        · exact .inr ⟨List.cons_ne_nil _ _, fun _ => hTwo rfl⟩
      · rcases h with ⟨front, last, rfl⟩ | ⟨-, hTwo⟩
        · exact .inl ⟨_ :: front, last, rfl⟩
        · exact .inr ⟨List.cons_ne_nil _ _, fun _ => Nat.le_succ_of_le (hTwo rfl)⟩
    cases token with
    | opening => exact h.imp_right fun hNonempty => ⟨hNonempty.1, fun hNil => by cases hNil⟩
    | _ => exact hLiteral _
  | cons body outer =>
    -- a body is still open, unless this was the outermost one
    have hOpen : ∀ body outer, Beyond ⟨parts, body :: outer⟩ := fun _ _ =>
      h.imp_right fun hNonempty => ⟨hNonempty.1, fun hNil => by cases hNil⟩
    cases token with
    | rightBrace =>
      cases outer with
      | nil =>
        rcases h with ⟨front, last, rfl⟩ | ⟨hNonempty, -⟩
        · exact .inl ⟨_ :: front, last, rfl⟩
        · refine .inr ⟨List.cons_ne_nil _ _, fun _ => ?_⟩
          exact Nat.succ_le_succ (List.length_pos_of_ne_nil hNonempty)
      | cons outer rest => exact hOpen _ _
    | _ => exact hOpen _ _

theorem Beyond.foldl {b : Builder} (h : b.Beyond) (tokens : List TemplateToken) :
    (tokens.foldl Builder.step b).Beyond := by
  induction tokens generalizing b with
  | nil => exact h
  | cons token rest ih => exact ih (h.step token)

theorem not_beyond_reference (body : List Piece) : ¬ Beyond ⟨[.reference body], []⟩ := by
  rintro (⟨front, last, hLast⟩ | ⟨-, hTwo⟩)
  · cases front with
    | nil => cases hLast
    | cons part front => cases front <;> cases hLast
  · exact absurd (hTwo rfl) (Nat.not_succ_le_self 1)

/-- Whatever comes behind a reference, that is not all of the text. -/
theorem beyond_step_reference (body : List Piece) (token : TemplateToken) :
    (Builder.step ⟨[.reference body], []⟩ token).Beyond := by
  cases token with
  | opening => exact .inr ⟨List.cons_ne_nil _ _, fun hNil => by cases hNil⟩
  | _ => exact .inr ⟨List.cons_ne_nil _ _, fun _ => Nat.le_refl 2⟩

theorem finish_eq_reference_iff (b : Builder) :
    (∃ body, b.finish = .ok [.reference body]) ↔ ∃ body, b = ⟨[.reference body], []⟩ := by
  obtain ⟨parts, bodies⟩ := b
  cases bodies with
  | cons body outer =>
    constructor
    · rintro ⟨_, h⟩
      cases h
    · rintro ⟨_, h⟩
      cases h
  | nil =>
    show (∃ body, Except.ok parts.reverse = .ok [.reference body]) ↔ _
    constructor
    · rintro ⟨body, h⟩
      refine ⟨body, ?_⟩
      rw [← List.reverse_reverse parts, Except.ok.inj h]
      rfl
    · rintro ⟨body, h⟩
      cases h
      exact ⟨body, rfl⟩

end Builder

/-- Whatever is in front of a reference, that is not all of the text. -/
theorem beyond_step_empty {token : TemplateToken} (h : token ≠ .opening) :
    (Builder.empty.step token).Beyond := by
  cases token with
  | opening => exact absurd rfl h
  | _ => exact .inl ⟨[], _, rfl⟩

theorem closesAtEnd_zero {chars : List Char} : ClosesAtEnd 0 chars ↔ chars = [] := by
  constructor
  · rintro ⟨hInside, -⟩
    by_contra hNonempty
    exact absurd (hInside 0 (List.length_pos_of_ne_nil hNonempty)) (Nat.lt_irrefl 0)
  · rintro rfl
    exact ⟨fun n hn => absurd hn (Nat.not_lt_zero n), rfl⟩

theorem closesAtEnd_cons {depth next : Nat} {c : Char} {rest : List Char} (hDepth : 0 < depth)
    (h : ∀ n, depthAfter depth (c :: rest.take n) = depthAfter next (rest.take n)) :
    ClosesAtEnd depth (c :: rest) ↔ ClosesAtEnd next rest := by
  have hAll : depthAfter depth (c :: rest) = depthAfter next rest := by
    have hLast := h rest.length
    rwa [List.take_length] at hLast
  rw [ClosesAtEnd, ClosesAtEnd, hAll]
  refine and_congr_left fun _ => ⟨fun hInside n hn => ?_, fun hInside n hn => ?_⟩
  · rw [← h]
    exact hInside (n + 1) (Nat.succ_lt_succ hn)
  · cases n with
    | zero => exact hDepth
    | succ n =>
      rw [List.take_succ_cons, h]
      exact hInside n (Nat.lt_of_succ_lt_succ hn)

theorem closesAtEnd_pair {depth next : Nat} {c c' : Char} {rest : List Char} (hDepth : 0 < depth)
    (hFirst : depthAfter depth [c] = depth)
    (h : ∀ tail, depthAfter depth (c :: c' :: tail) = depthAfter next tail) :
    ClosesAtEnd depth (c :: c' :: rest) ↔ ClosesAtEnd next rest := by
  rw [ClosesAtEnd, ClosesAtEnd, h]
  refine and_congr_left fun _ => ⟨fun hInside n hn => ?_, fun hInside n hn => ?_⟩
  · rw [← h]
    exact hInside (n + 2) (Nat.succ_lt_succ (Nat.succ_lt_succ hn))
  · match n with
    | 0 => exact hDepth
    | 1 =>
      rw [List.take_succ_cons, List.take_zero, hFirst]
      exact hDepth
    | n + 2 =>
      rw [List.take_succ_cons, List.take_succ_cons, h]
      exact hInside n (Nat.lt_of_succ_lt_succ (Nat.lt_of_succ_lt_succ hn))

theorem scan_ne_nil {chars : List Char} (h : chars ≠ []) : scan chars ≠ [] := by
  rw [scan.eq_def]
  split
  · exact absurd rfl h
  iterate 5 exact List.cons_ne_nil _ _
  rw [consTextChar.eq_def]
  split <;> exact List.cons_ne_nil _ _

theorem exists_of_scan_opening {chars : List Char} {tokens : List TemplateToken}
    (h : scan chars = .opening :: tokens) : ∃ inside, chars = '$' :: '{' :: inside := by
  rw [scan.eq_def] at h
  split at h
  · cases h
  · exact ⟨_, rfl⟩
  iterate 4 cases h
  rw [consTextChar.eq_def] at h
  split at h <;> cases h

/-- Within a reference, the text goes on to be nothing but it if the depth comes back to 0 at the
end and not before. -/
theorem exists_foldl_step_iff (chars : List Char) : ∀ (body : List Piece)
    (outer : List (List Piece)),
    (∃ whole, (scan chars).foldl Builder.step ⟨[], body :: outer⟩ = ⟨[.reference whole], []⟩) ↔
      ClosesAtEnd (outer.length + 1) chars := by
  induction chars using scan.induct with
  | case1 =>
    refine fun body outer => iff_of_false ?_ fun hCloses => absurd hCloses.2 (Nat.succ_ne_zero _)
    rintro ⟨whole, hWhole⟩
    cases hWhole
  | case2 rest ih =>
    intro body outer
    rw [closesAtEnd_pair (Nat.succ_pos _) rfl fun _ => rfl]
    exact ih [] (body :: outer)
  | case3 rest ih =>
    intro body outer
    rw [closesAtEnd_pair (Nat.succ_pos _) rfl fun _ => rfl]
    exact ih (Builder.addText ['$'] body) outer
  | case4 rest ih =>
    intro body outer
    rw [closesAtEnd_cons (Nat.succ_pos _) fun _ => rfl]
    exact ih [] (body :: outer)
  | case5 rest ih =>
    intro body outer
    rw [closesAtEnd_cons (Nat.succ_pos _) fun _ => rfl]
    cases outer with
    | cons around more => exact ih (.lookup body.reverse :: around) more
    | nil =>
      rw [List.length_nil, closesAtEnd_zero]
      show (∃ whole, (scan rest).foldl Builder.step ⟨[.reference body.reverse], []⟩ = _) ↔ _
      constructor
      · rintro ⟨whole, hWhole⟩
        by_contra hNonempty
        obtain ⟨token, more, hScan⟩ := List.exists_cons_of_ne_nil (scan_ne_nil hNonempty)
        have hBeyond := (Builder.beyond_step_reference body.reverse token).foldl more
        rw [← List.foldl_cons, ← hScan, hWhole] at hBeyond
        exact Builder.not_beyond_reference whole hBeyond
      · rintro rfl
        exact ⟨body.reverse, rfl⟩
  | case6 rest ih =>
    intro body outer
    rw [closesAtEnd_cons (Nat.succ_pos _) fun _ => rfl]
    exact ih (.colon :: body) outer
  | case7 c rest hOpening hDollar hLeft hRight hColon ih =>
    intro body outer
    have hText : IsText c rest :=
      ⟨fun hc more => hOpening more hc, fun hc more => hDollar more hc, hLeft, hRight, hColon⟩
    rw [closesAtEnd_cons (Nat.succ_pos _) fun n => (hText.take n).depthAfter_eq _, hText.scan_eq,
      foldl_step_consTextChar]
    exact ih (Builder.addText [c] body) outer

/-- A text is one reference if the depth comes back to 0 at its end and not before. -/
theorem exists_parse_reference_iff {text : String} :
    (∃ body, parse text = .ok [.reference body]) ↔ IsReference text := by
  rw [parse, ofTokens, Builder.finish_eq_reference_iff, IsReference]
  by_cases hOpening : ∃ inside, text.toList = '$' :: '{' :: inside
  · obtain ⟨inside, hText⟩ := hOpening
    rw [hText]
    refine (exists_foldl_step_iff inside [] []).trans ⟨fun h => ⟨inside, rfl, h⟩, ?_⟩
    rintro ⟨_, hSame, h⟩
    cases hSame
    exact h
  · have hOther : ∀ body, (scan text.toList).foldl Builder.step Builder.empty ≠
        ⟨[.reference body], []⟩ := by
      intro body hBody
      cases hScan : scan text.toList with
      | nil =>
        rw [hScan] at hBody
        cases hBody
      | cons token more =>
        have hToken : token ≠ .opening := by
          rintro rfl
          exact hOpening (exists_of_scan_opening hScan)
        have hBeyond := (beyond_step_empty hToken).foldl more
        rw [← List.foldl_cons, ← hScan, hBody] at hBeyond
        exact Builder.not_beyond_reference body hBeyond
    constructor
    · rintro ⟨body, hBody⟩
      exact absurd hBody (hOther body)
    · rintro ⟨inside, hText, -⟩
      exact absurd ⟨inside, hText⟩ hOpening

-- ---------------------------------------------------------------------------
-- What comes of a text
-- ---------------------------------------------------------------------------

/-- The result is an error with the message for references that are not closed. -/
def MissesBrace (r : Except ConfigError α) : Prop :=
  ∃ e, r = .error e ∧ e.message = ConfigError.unclosedReference.message

section

variable {resolvers : List (Resolver σ)} {subject : Option Text} {text : String} {s : σ}

theorem calls_of_depth (h : 0 < depthAfter 0 text.toList) :
    calls resolvers subject text s = [] := by
  rw [calls, interpolate_of_depth h]
  rfl

/-- Such an error is found in the text, or passed on from a resolver. -/
theorem missesBrace_iff :
    MissesBrace ((interpolate resolvers subject text).run s).1 ↔
      0 < depthAfter 0 text.toList ∨
        ∃ call ∈ calls resolvers subject text s, MissesBrace call.result := by
  rcases Nat.eq_zero_or_pos (depthAfter 0 text.toList) with hDepth | hDepth
  · obtain ⟨template, hParse⟩ := exists_parse_of_depth hDepth
    have hAccounts := accounts_interpolate hParse resolvers subject s
    constructor
    · rintro ⟨e, hError, hMessage⟩
      obtain ⟨call, hCall, hFailed⟩ := (hAccounts.fails e).1 hError
      exact .inr ⟨call, hCall, e, hFailed, hMessage⟩
    · rintro (hPositive | ⟨call, hCall, e, hFailed, hMessage⟩)
      · exact absurd hDepth (Nat.ne_of_gt hPositive)
      · exact ⟨e, (hAccounts.fails e).2 ⟨call, hCall, hFailed⟩, hMessage⟩
  · rw [interpolate_of_depth hDepth]
    exact ⟨fun _ => .inl hDepth, fun _ => ⟨_, rfl, rfl⟩⟩

/-- Where no call of a resolver fails, a text that is closed has a value. -/
theorem exists_value_of_depth (hDepth : depthAfter 0 text.toList = 0)
    (h : ∀ call ∈ calls resolvers subject text s, ∃ found, call.result = .ok found) :
    ∃ v, ((interpolate resolvers subject text).run s).1 = .ok v := by
  obtain ⟨template, hParse⟩ := exists_parse_of_depth hDepth
  have hAccounts := accounts_interpolate hParse resolvers subject s
  cases hRun : ((interpolate resolvers subject text).run s).1 with
  | ok v => exact ⟨v, rfl⟩
  | error e =>
    obtain ⟨call, hCall, hFailed⟩ := (hAccounts.fails e).1 hRun
    obtain ⟨found, hFound⟩ := h call hCall
    cases hFailed.symm.trans hFound

/-- A text that is not one reference has a text for a value, without an origin. -/
theorem exists_ofString_of_value (hText : ¬ IsReference text) {v : Value}
    (hValue : ((interpolate resolvers subject text).run s).1 = .ok v) :
    ∃ written, v = Value.ofString written := by
  cases hParse : parse text with
  | error e =>
    rw [interpolate, hParse] at hValue
    cases hValue
  | ok template =>
    rw [interpolate_of_parse hParse, eval.eq_def] at hValue
    split at hValue
    · exact absurd (exists_parse_reference_iff.1 ⟨_, hParse⟩) hText
    · obtain ⟨texts, -, rfl⟩ := run_map_eq_ok.1 ((congrArg (fun x => x.run s)
        (map_eq_pure_bind (fun texts => Value.ofString (String.join texts))
          (evalParts (Resolver.first resolvers) subject template))).trans (run_eq_of_fst hValue))
      exact ⟨_, rfl⟩

end

/-- **What is malformed, and what is one reference.** With any resolvers, an error about a missing
brace comes of a text exactly if the text ends above depth 0, or a resolver that was called failed
with such an error. Where the text ends above depth 0, no resolver has been called, and the client's
state is as it was. Where it does not, and no call of a resolver fails, there is a value. If the text is one reference, this is the first
answer to what the body of the reference spells, unchanged, or the empty text if there is none; the
calls before are those for the references nested in the body. Otherwise it is a text without an
origin. -/
theorem interpolate_by_depth (resolvers : List (Resolver σ)) (subject : Option Text)
    (text : String) (s : σ) :
    (MissesBrace ((interpolate resolvers subject text).run s).1 ↔ 0 < depthAfter 0 text.toList ∨
        ∃ call ∈ calls resolvers subject text s, MissesBrace call.result) ∧
      (0 < depthAfter 0 text.toList →
        (interpolate resolvers subject text).run s = (.error .unclosedReference, s) ∧
          calls resolvers subject text s = []) ∧
      (depthAfter 0 text.toList = 0 →
        (∀ call ∈ calls resolvers subject text s, ∃ found, call.result = .ok found) →
          ∃ v, ((interpolate resolvers subject text).run s).1 = .ok v ∧
            (IsReference text → ∃ body earlier asking fragments found,
              parse text = .ok [.reference body] ∧
              calls resolvers subject text s = earlier ++ asking ∧
              Spells resolvers.length subject body earlier fragments ∧
              Answered (.ofFragments fragments subject) 0 resolvers.length asking (.ok found) ∧
              v = found.getD (Value.ofString "")) ∧
            (¬ IsReference text → ∃ written, v = Value.ofString written)) := by
  refine ⟨missesBrace_iff, fun hDepth => ⟨?_, calls_of_depth hDepth⟩, fun hDepth hCalls => ?_⟩
  · rw [interpolate_of_depth hDepth]
    rfl
  · obtain ⟨v, hValue⟩ := exists_value_of_depth hDepth hCalls
    refine ⟨v, hValue, fun hText => ?_, fun hText => exists_ofString_of_value hText hValue⟩
    obtain ⟨body, hBody⟩ := exists_parse_reference_iff.2 hText
    obtain ⟨earlier, asking, fragments, found, h⟩ := calls_of_reference hBody hValue
    exact ⟨body, earlier, asking, fragments, found, hBody, h⟩

/-- A list with an origin within it. -/
def listedValue : Value := .seq [.leaf (.text ⟨"v", some "/d"⟩), .leaf .null]

/-- Answers `ax` with a list, and all else with a text. -/
def listing : Resolver Unit := fun request =>
  pure (some (if request.expression = "ax" then listedValue else Value.ofString "x"))

/-- A reference keeps the list as it is. A text that is not closed fails, and the reference before
that is not asked for. -/
theorem interpolate_by_depth_of_listing :
    (((interpolate [listing] none "$\x7ba$\x7bb\x7d\x7d").run ()).1 = .ok listedValue ∧
      IsReference "$\x7ba$\x7bb\x7d\x7d" ∧
      ∃ fragments asking,
        Answered (.ofFragments fragments none) 0 1 asking (.ok (some listedValue))) ∧
    (interpolate [listing] none "$\x7bb\x7d$\x7b").run () = (.error .unclosedReference, ()) ∧
      calls [listing] none "$\x7bb\x7d$\x7b" () = [] := by
  have hDepth : depthAfter 0 "$\x7ba$\x7bb\x7d\x7d".toList = 0 := by decide
  have hReference : IsReference "$\x7ba$\x7bb\x7d\x7d" := by
    refine ⟨_, rfl, ?_, by decide⟩
    decide
  have hRun : ((interpolate [listing] none "$\x7ba$\x7bb\x7d\x7d").run ()).1 = .ok listedValue := by
    cbv
  have hCalls : calls [listing] none "$\x7ba$\x7bb\x7d\x7d" () =
      [⟨0, ⟨"b", none, none⟩, .ok (some (Value.ofString "x"))⟩,
        ⟨0, ⟨"ax", none, none⟩, .ok (some listedValue)⟩] := by cbv
  obtain ⟨-, -, hClosed⟩ := interpolate_by_depth [listing] none "$\x7ba$\x7bb\x7d\x7d" ()
  obtain ⟨v, hValue, hText, -⟩ := hClosed hDepth (by rw [hCalls]; simp)
  obtain ⟨-, -, asking, fragments, found, -, -, -, hAnswered, rfl⟩ := hText hReference
  have hFound : found = some listedValue := by
    cases found with
    | none => cases hRun.symm.trans hValue
    | some v => rw [Except.ok.inj (hRun.symm.trans hValue), Option.getD_some]
  obtain ⟨-, hOpen, -⟩ := interpolate_by_depth [listing] none "$\x7bb\x7d$\x7b" ()
  exact ⟨⟨hRun, hReference, fragments, asking, hFound ▸ hAnswered⟩, hOpen (by decide)⟩

/-- Has looked into a text that is not closed, and passes the error on. -/
def unclosed : Resolver Unit := fun _ => Eval.fail .unclosedReference

/-- The depth alone does not tell whether a brace is missed: the error of a resolver is passed on
as it is, so a text that ends at depth 0 can fail with that error, too. -/
theorem not_missesBrace_iff_depth :
    ¬ ∀ (resolvers : List (Resolver Unit)) (subject : Option Text) (text : String) (s : Unit),
      MissesBrace ((interpolate resolvers subject text).run s).1 ↔
        0 < depthAfter 0 text.toList := by
  intro h
  have hDepth : depthAfter 0 "$\x7bb\x7d".toList = 0 := by decide
  have hRun : ((interpolate [unclosed] none "$\x7bb\x7d").run ()).1 =
      .error .unclosedReference := by
    cbv
  have hMisses : MissesBrace ((interpolate [unclosed] none "$\x7bb\x7d").run ()).1 :=
    ⟨.unclosedReference, hRun, rfl⟩
  have hOpen := (h [unclosed] none "$\x7bb\x7d" ()).1 hMisses
  rw [hDepth] at hOpen
  exact Nat.lt_irrefl 0 hOpen

end Template

end LayeredConfig
