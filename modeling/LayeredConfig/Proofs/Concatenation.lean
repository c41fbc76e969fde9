import LayeredConfig.Proofs.Depth

/-!
# LayeredConfig — texts one behind the other

Two texts that are closed can be put one behind the other, unless a dollar sign left over at the
end of the first goes together with what the second begins with. Then the whole is interpolated as
its parts are: first the first one, then the second one, with the text of the one behind that of
the other. It does not matter that a part may be a single reference, which has a value of its own
and not only a text, or that literal text of both grows together.

* The tokens of the whole build what those of the first text and then those of the second one
  build (`Template.foldl_step_append`).
* What a closed text builds behind another one has its text behind that of the other
  (`Template.Builder.Behind`, kept by each token).

Main results:

* `Template.leavesDollar`     — a dollar sign is left over at the end.
* `Template.render_interpolate_append` — the text of the whole, as one evaluation.
* `Template.run_asking_from`  — calls are kept behind those that are there.
* `Template.interpolate_append` — what comes of the whole, and the calls that it makes.
-/

namespace LayeredConfig

open Eval

theorem Eval.run_map_eq_error {f : α → β} {x : Eval σ α} {s s' : σ} {e : ConfigError} :
    (f <$> x).run s = (.error e, s') ↔ x.run s = (.error e, s') := by
  rw [run_map]
  rcases x.run s with ⟨r, s₁⟩
  cases r <;> simp [Except.map]

namespace Template

open TemplateToken

-- ---------------------------------------------------------------------------
-- Where two texts meet
-- ---------------------------------------------------------------------------

/-- Dollar signs are paired from the left, and one is left over at the end. -/
def leavesDollar : List Char → Bool
  | [] => false
  | ['$'] => true
  | '$' :: '$' :: rest => leavesDollar rest
  | _ :: rest => leavesDollar rest

/-- A dollar sign in front goes together with what the characters begin with. -/
def takesDollar : List Char → Bool
  | '$' :: _ => true
  | '{' :: _ => true
  | _ => false

/-- Nothing at the end of the first characters goes together with something at the beginning of
the second ones. -/
def Apart (front back : List Char) : Prop :=
  leavesDollar front = false ∨ takesDollar back = false

section

variable {c : Char} {rest back : List Char}

theorem Apart.isText (h : Apart (c :: rest) back) (hText : IsText c rest) :
    IsText c (rest ++ back) := by
  cases rest with
  | cons d rest =>
    refine ⟨fun hc more hMore => ?_, fun hc more hMore => ?_, hText.left, hText.right, hText.colon⟩
    · cases hMore
      exact hText.opening hc _ rfl
    · cases hMore
      exact hText.dollar hc _ rfl
  | nil =>
    -- a dollar sign at the end is left over
    have hBack : c = '$' → takesDollar back = false := by
      rintro rfl
      exact h.resolve_left (by decide)
    refine ⟨fun hc more hMore => ?_, fun hc more hMore => ?_, hText.left, hText.right, hText.colon⟩
    · rw [show back = _ from hMore] at hBack
      cases hBack hc
    · rw [show back = _ from hMore] at hBack
      cases hBack hc

theorem Apart.tail (h : Apart (c :: rest) back) (hText : IsText c rest) : Apart rest back := by
  refine h.imp_left fun hFront => ?_
  rw [leavesDollar.eq_def] at hFront
  split at hFront
  · rename_i hSame
    cases hSame
  · cases hFront
  · rename_i hSame
    cases hSame
    exact absurd rfl (hText.dollar rfl _)
  · rename_i hSame
    cases hSame
    exact hFront

end

/-- The tokens of the whole build what those of the first text and then those of the second one
build. -/
theorem foldl_step_append {front back : List Char} (h : Apart front back) (b : Builder) :
    (scan (front ++ back)).foldl Builder.step b =
      (scan back).foldl Builder.step ((scan front).foldl Builder.step b) := by
  induction front using scan.induct generalizing b with
  | case1 => rfl
  | case2 rest ih => exact ih h _
  | case3 rest ih => exact ih h _
  | case4 rest ih => exact ih h _
  | case5 rest ih => exact ih h _
  | case6 rest ih => exact ih h _
  | case7 c rest hOpening hDollar hLeft hRight hColon ih =>
    have hText : IsText c rest :=
      ⟨fun hc more => hOpening more hc, fun hc more => hDollar more hc, hLeft, hRight, hColon⟩
    rw [List.cons_append, (h.isText hText).scan_eq, hText.scan_eq, foldl_step_consTextChar,
      foldl_step_consTextChar, ih (h.tail hText)]

-- ---------------------------------------------------------------------------
-- The text of a template
-- ---------------------------------------------------------------------------

section

variable {ask : Resolver σ} {subject : Option Text}

/-- The text of a template. Here a reference that is all of it is like any other. -/
def evalText (ask : Resolver σ) (subject : Option Text) (template : Template) : Eval σ String :=
  String.join <$> evalParts ask subject template

theorem evalText_nil : evalText ask subject [] = pure "" := rfl

theorem evalText_cons (part : Part) (rest : Template) :
    evalText ask subject (part :: rest) = (do
      let a ← evalPart ask subject part
      let c ← evalText ask subject rest
      return a ++ c) := by
  simp only [evalText, evalParts, map_eq_pure_bind, bind_assoc, pure_bind, String.join_cons]

theorem evalText_append (front back : Template) :
    evalText ask subject (front ++ back) = (do
      let a ← evalText ask subject front
      let c ← evalText ask subject back
      return a ++ c) := by
  induction front with
  | nil => simp only [List.nil_append, evalText_nil, pure_bind, String.empty_append, bind_pure]
  | cons part rest ih =>
    rw [List.cons_append, evalText_cons, evalText_cons, ih]
    simp only [bind_assoc, pure_bind, String.append_assoc]

theorem evalText_singleton (part : Part) :
    evalText ask subject [part] = evalPart ask subject part := by
  simp only [evalText_cons, evalText_nil, pure_bind, String.append_empty, bind_pure]

/-- What a template evaluates to has that text. -/
theorem render_eval (template : Template) :
    Value.render <$> eval ask subject template = evalText ask subject template := by
  rw [eval.eq_def]
  split
  · rename_i body
    rw [evalText_singleton, evalPart]
    simp only [map_eq_pure_bind, bind_assoc, pure_bind]
    congr 1
    funext found
    cases found <;> rfl
  · simp only [evalText, map_eq_pure_bind, bind_assoc, pure_bind]
    rfl

-- ---------------------------------------------------------------------------
-- Building behind a template
-- ---------------------------------------------------------------------------

namespace Builder

/-- The parts get `more` behind their text. -/
def Adds (ask : Resolver σ) (subject : Option Text) (more : Eval σ String)
    (parts next : List Part) : Prop :=
  evalText ask subject next.reverse = (do
    let a ← evalText ask subject parts.reverse
    let c ← more
    return a ++ c)

theorem adds_cons (part : Part) (parts : List Part) :
    Adds ask subject (evalPart ask subject part) parts (part :: parts) := by
  rw [Adds, List.reverse_cons, evalText_append, evalText_singleton]

theorem adds_addLiteral (chars : List Char) (parts : List Part) :
    Adds ask subject (pure (String.ofList chars)) parts (addLiteral chars parts) := by
  rw [addLiteral.eq_def]
  split
  · rename_i before rest
    -- it grows together with literal text
    simp only [Adds, List.reverse_cons, evalText_append, evalText_singleton, evalPart, pure_bind,
      bind_assoc, String.ofList_append, String.append_assoc]
  · exact adds_cons (.literal chars) parts

/-- Built behind `front`: the same bodies are open, and the parts have the text of `front` in front
of theirs. -/
structure Behind (ask : Resolver σ) (subject : Option Text) (front : Template) (b next : Builder) :
    Prop where
  bodies_eq : next.bodies = b.bodies
  text_eq : evalText ask subject next.parts.reverse = (do
    let a ← evalText ask subject front
    let c ← evalText ask subject b.parts.reverse
    return a ++ c)

variable {front : Template}

theorem behind_empty (parts : List Part) :
    Behind ask subject parts.reverse empty ⟨parts, []⟩ where
  bodies_eq := rfl
  text_eq := by
    show _ = evalText ask subject parts.reverse >>= fun a => evalText ask subject [] >>= _
    simp only [evalText_nil, pure_bind, String.append_empty, bind_pure]

/-- Both get the same behind. -/
theorem Behind.adds {parts parts' next next' : List Part} {bodies bodies' more : List (List Piece)}
    (h : Behind ask subject front ⟨parts, bodies⟩ ⟨parts', bodies'⟩) {added : Eval σ String}
    (hAdds : Adds ask subject added parts next) (hAdds' : Adds ask subject added parts' next') :
    Behind ask subject front ⟨next, more⟩ ⟨next', more⟩ where
  bodies_eq := rfl
  text_eq := by
    have hText := h.text_eq
    simp only at hText
    rw [hAdds', hAdds, hText]
    simp only [bind_assoc, pure_bind, String.append_assoc]

/-- One token more. -/
theorem Behind.step {b next : Builder} (h : Behind ask subject front b next)
    (token : TemplateToken) : Behind ask subject front (b.step token) (next.step token) := by
  obtain ⟨parts, bodies⟩ := b
  obtain ⟨parts', bodies'⟩ := next
  obtain rfl : bodies' = bodies := h.bodies_eq
  cases bodies' with
  | nil =>
    have hLiteral : ∀ chars, Behind ask subject front ⟨addLiteral chars parts, []⟩
        ⟨addLiteral chars parts', []⟩ :=
      fun chars => h.adds (adds_addLiteral chars parts) (adds_addLiteral chars parts')
    cases token with
    | opening => exact ⟨rfl, h.text_eq⟩
    | _ => exact hLiteral _
  | cons body outer =>
    cases token with
    | rightBrace =>
      cases outer with
      | nil => exact h.adds (adds_cons (.reference body.reverse) _) (adds_cons _ _)
      | cons around outer => exact ⟨rfl, h.text_eq⟩
    | _ => exact ⟨rfl, h.text_eq⟩

/-- Any number of tokens more. -/
theorem Behind.foldl {b next : Builder} (h : Behind ask subject front b next)
    (tokens : List TemplateToken) :
    Behind ask subject front (tokens.foldl Builder.step b) (tokens.foldl Builder.step next) := by
  induction tokens generalizing b next with
  | nil => exact h
  | cons token rest ih => exact ih (h.step token)

end Builder

-- ---------------------------------------------------------------------------
-- The whole
-- ---------------------------------------------------------------------------

theorem parse_eq_ok_iff {text : String} {template : Template} :
    parse text = .ok template ↔
      (scan text.toList).foldl Builder.step Builder.empty = ⟨template.reverse, []⟩ := by
  rw [parse, ofTokens, Builder.finish]
  rcases (scan text.toList).foldl Builder.step Builder.empty with ⟨parts, bodies⟩
  cases bodies with
  | nil =>
    simp only [List.isEmpty_nil, if_true, Except.ok.injEq, Builder.mk.injEq, and_true]
    exact ⟨fun h => by rw [← h, List.reverse_reverse], fun h => by rw [h, List.reverse_reverse]⟩
  | cons body outer => exact ⟨fun h => (by cases h), fun h => (by cases h)⟩

/-- The whole is a template with the text of the second one behind that of the first one. -/
theorem exists_parse_append {front back : String} (h : Apart front.toList back.toList)
    {first second : Template} (hFirst : parse front = .ok first)
    (hSecond : parse back = .ok second) :
    ∃ whole, parse (front ++ back) = .ok whole ∧
      ∀ (σ : Type) (ask : Resolver σ) (subject : Option Text),
        evalText ask subject whole = (do
          let a ← evalText ask subject first
          let c ← evalText ask subject second
          return a ++ c) := by
  rw [parse_eq_ok_iff] at hFirst hSecond
  have hBehind : ∀ (σ : Type) (ask : Resolver σ) (subject : Option Text),
      Builder.Behind ask subject first ⟨second.reverse, []⟩
        ((scan (front ++ back).toList).foldl Builder.step Builder.empty) := by
    intro σ ask subject
    have hStart : Builder.Behind ask subject first Builder.empty ⟨first.reverse, []⟩ := by
      have hStart : Builder.Behind ask subject first.reverse.reverse _ _ := Builder.behind_empty _
      rwa [List.reverse_reverse] at hStart
    have hEnd := hStart.foldl (scan back.toList)
    rwa [hSecond, ← hFirst, ← foldl_step_append h, ← String.toList_append] at hEnd
  rcases hWhole : (scan (front ++ back).toList).foldl Builder.step Builder.empty with
    ⟨parts, bodies⟩
  rw [hWhole] at hBehind
  obtain rfl : bodies = [] := (hBehind Unit Resolver.silent none).bodies_eq
  refine ⟨parts.reverse, ?_, fun σ ask subject => ?_⟩
  · rw [parse_eq_ok_iff, List.reverse_reverse, hWhole]
  · have hText := (hBehind σ ask subject).text_eq
    rwa [List.reverse_reverse] at hText

end

section

variable {front back : String} (hFront : depthAfter 0 front.toList = 0)
  (hBack : depthAfter 0 back.toList = 0) (hApart : Apart front.toList back.toList)

include hFront hBack hApart

/-- The text of the whole is that of the first text, and behind it that of the second one. -/
theorem render_interpolate_append (resolvers : List (Resolver σ)) (subject : Option Text) :
    Value.render <$> interpolate resolvers subject (front ++ back) = (do
      let a ← Value.render <$> interpolate resolvers subject front
      let c ← Value.render <$> interpolate resolvers subject back
      return a ++ c) := by
  obtain ⟨first, hFirst⟩ := exists_parse_of_depth hFront
  obtain ⟨second, hSecond⟩ := exists_parse_of_depth hBack
  obtain ⟨whole, hWhole, hText⟩ := exists_parse_append hApart hFirst hSecond
  rw [interpolate_of_parse hWhole, interpolate_of_parse hFirst, interpolate_of_parse hSecond,
    render_eval, render_eval, render_eval, hText]

end

-- ---------------------------------------------------------------------------
-- Calls
-- ---------------------------------------------------------------------------

/-- Couples states with calls and states that have further calls in front of them. -/
def inFront (σ : Type) (log : List Asked) : Coupling (σ × List Asked) (σ × List Asked) :=
  Coupling.throughout fun s t => t = (s.1, log ++ s.2)

theorem records_inFront (log : List Asked) (place : Nat) :
    (inFront σ log).Records Asked.recorder Asked.recorder place where
  made _ := Coupling.keptBy_id _
  finished request result := by
    refine Coupling.keptBy_throughout ?_
    rintro s t rfl
    exact congrArg (Prod.mk _) (List.append_assoc _ _ _)

theorem chains_inFront (resolvers : List (Resolver σ)) (log : List Asked) (place : Nat) :
    (inFront σ log).Chains (Resolver.askingFrom place resolvers)
      (Resolver.askingFrom place resolvers) := by
  refine Resolver.chains_recordingFrom ?_ place fun k _ => records_inFront log k
  refine List.forall₂_same.2 fun r' hr' request => ?_
  obtain ⟨r, -, rfl⟩ := List.mem_map.1 hr'
  refine coupled_throughout_iff.2 ?_
  rintro s t rfl
  exact ⟨rfl, rfl⟩

/-- Calls are kept behind those that are there. -/
theorem run_asking_from (resolvers : List (Resolver σ)) (subject : Option Text) (text : String)
    (s : σ) (log : List Asked) :
    (interpolate (Resolver.askingFrom 0 resolvers) subject text).run (s, log) =
      (((interpolate resolvers subject text).run s).1,
        (((interpolate resolvers subject text).run s).2,
          log ++ calls resolvers subject text s)) := by
  have hCoupled := coupled_interpolate (chains_inFront resolvers log 0) subject text
  obtain ⟨hResult, hState⟩ := coupled_throughout_iff.1 hCoupled (s, []) (s, log)
    (congrArg (Prod.mk s) (List.append_nil log).symm)
  rw [run_asking] at hResult hState
  exact Prod.ext hResult.symm hState

-- ---------------------------------------------------------------------------
-- What comes of the whole
-- ---------------------------------------------------------------------------

section

variable {front back : String} (hFront : depthAfter 0 front.toList = 0)
  (hBack : depthAfter 0 back.toList = 0) (hApart : Apart front.toList back.toList)

include hFront hBack hApart

/-- What the whole does is what the first text does and, unless that fails, what the second one
does then. -/
theorem run_interpolate_append (resolvers : List (Resolver σ)) (subject : Option Text) (s : σ) :
    (Value.render <$> interpolate resolvers subject (front ++ back)).run s =
      match (interpolate resolvers subject front).run s with
      | (.ok v, s₁) =>
        (((interpolate resolvers subject back).run s₁).1.map fun w => v.render ++ w.render,
          ((interpolate resolvers subject back).run s₁).2)
      | (.error e, s₁) => (.error e, s₁) := by
  rw [render_interpolate_append hFront hBack hApart, run_bind, run_map]
  rcases (interpolate resolvers subject front).run s with ⟨r, s₁⟩
  cases r with
  | error e => rfl
  | ok v =>
    show (Value.render <$> interpolate resolvers subject back >>=
      fun text => pure (v.render ++ text)).run s₁ = (_, _)
    rw [← map_eq_pure_bind, run_map, run_map]
    refine Prod.ext ?_ rfl
    cases ((interpolate resolvers subject back).run s₁).1 <;> rfl

/-- The calls of the whole are those of the first text and, unless that fails, those of the second
one behind them. -/
theorem calls_append (resolvers : List (Resolver σ)) (subject : Option Text) (s : σ) :
    calls resolvers subject (front ++ back) s =
      match (interpolate resolvers subject front).run s with
      | (.ok _, s₁) => calls resolvers subject front s ++ calls resolvers subject back s₁
      | (.error _, _) => calls resolvers subject front s := by
  have hRun := run_interpolate_append hFront hBack hApart (Resolver.askingFrom 0 resolvers) subject
    (s, [])
  rw [run_map, run_asking, run_asking] at hRun
  have hCalls := congrArg (fun run => run.2.2) hRun
  simp only at hCalls
  rw [hCalls]
  rcases (interpolate resolvers subject front).run s with ⟨r, s₁⟩
  cases r with
  | error e => rfl
  | ok v => simp only [run_asking_from]

/-- **A text behind a text.** Both texts are closed, and nothing at the end of the first goes
together with the beginning of the second. Then the text of what comes of the whole is that of the
first and behind it that of the second, which goes on from where the first has led to, and the
calls of resolvers are those of the first and behind them those of the second. If a call fails in
the first text, or else in the second one, the whole fails with the same error, in the same state,
after the same calls. -/
theorem interpolate_append (resolvers : List (Resolver σ)) (subject : Option Text) (s : σ) :
    (∀ v s₁ w s₂, (interpolate resolvers subject front).run s = (.ok v, s₁) →
      (interpolate resolvers subject back).run s₁ = (.ok w, s₂) →
        ∃ u, (interpolate resolvers subject (front ++ back)).run s = (.ok u, s₂) ∧
          u.render = v.render ++ w.render ∧
          calls resolvers subject (front ++ back) s =
            calls resolvers subject front s ++ calls resolvers subject back s₁) ∧
    (∀ e s₁, (interpolate resolvers subject front).run s = (.error e, s₁) →
      (interpolate resolvers subject (front ++ back)).run s = (.error e, s₁) ∧
        calls resolvers subject (front ++ back) s = calls resolvers subject front s) ∧
    ∀ v s₁ e s₂, (interpolate resolvers subject front).run s = (.ok v, s₁) →
      (interpolate resolvers subject back).run s₁ = (.error e, s₂) →
        (interpolate resolvers subject (front ++ back)).run s = (.error e, s₂) ∧
          calls resolvers subject (front ++ back) s =
            calls resolvers subject front s ++ calls resolvers subject back s₁ := by
  have hRun := run_interpolate_append hFront hBack hApart resolvers subject s
  have hCalls := calls_append hFront hBack hApart resolvers subject s
  refine ⟨fun v s₁ w s₂ hFirst hSecond => ?_, fun e s₁ hFirst => ?_,
    fun v s₁ e s₂ hFirst hSecond => ?_⟩
  · simp only [hFirst, hSecond] at hRun hCalls
    obtain ⟨u, hWhole, hText⟩ := run_map_eq_ok.1 hRun
    exact ⟨u, hWhole, hText, hCalls⟩
  · simp only [hFirst] at hRun hCalls
    exact ⟨run_map_eq_error.1 hRun, hCalls⟩
  · simp only [hFirst, hSecond] at hRun hCalls
    exact ⟨run_map_eq_error.1 hRun, hCalls⟩

end

/-- Answers with the number of its calls. It knows no `x`, and `y` makes it fail. -/
def numbering : Resolver Nat := fun request count =>
  (if request.expression = "y" then .error (.refused "y")
    else .ok (if request.expression = "x" then none else some (Value.ofString (toString count))),
    count + 1)

/-- A reference, and three dollar signs, of which one is left over. -/
def leavingText : String := "$\x7ba\x7d$$$"

/-- A colon, and a reference with another one in it. -/
def nestedText : String := ":$\x7bb\x7bx\x7d\x7d"

/-- A reference that makes a resolver fail. -/
def failingText : String := "$\x7by\x7d"

theorem interpolate_append_of_numbering :
    ((interpolate [numbering] none (leavingText ++ nestedText)).run 0).2 = 3 ∧
      (∃ u, ((interpolate [numbering] none (leavingText ++ nestedText)).run 0).1 = .ok u ∧
        u.render = "0$$:2") ∧
      (calls [numbering] none (leavingText ++ nestedText) 0).map
        (fun call => call.request.expression) = ["a", "x", "b"] ∧
      (interpolate [numbering] none (failingText ++ leavingText)).run 0 =
        (.error (.refused "y"), 1) := by
  have hLeaving : depthAfter 0 leavingText.toList = 0 := by decide
  have hNested : depthAfter 0 nestedText.toList = 0 := by decide
  have hFailing : depthAfter 0 failingText.toList = 0 := by decide
  obtain ⟨hOk, -, -⟩ := interpolate_append hLeaving hNested (.inr (by decide)) [numbering] none 0
  obtain ⟨-, hError, -⟩ :=
    interpolate_append hFailing hLeaving (.inl (by decide)) [numbering] none 0
  obtain ⟨u, hWhole, hText, hCalls⟩ := hOk (Value.ofString "0$$") 1 (Value.ofString ":2") 3
    (by cbv) (by cbv)
  refine ⟨congrArg Prod.snd hWhole, ⟨u, congrArg Prod.fst hWhole, hText⟩, ?_,
    (hError (.refused "y") 1 (by cbv)).1⟩
  rw [hCalls]
  cbv

end Template

end LayeredConfig
