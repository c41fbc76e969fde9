import Mathlib.Data.List.Basic
import LayeredConfig.Proofs.Parsing
import LayeredConfig.Proofs.PathTexts

/-!
# LayeredConfig — visits in order

The paths of a pattern are also those of a plain product of texts, in which an empty text
adds neither a segment nor a dot. That is so because a pattern that was read has words in
all its parts, and no empty segments.

A visitor is called with those texts in their order, one after the other, and is called no
more once it has had enough. This holds of visitors that keep a state too, whose answers
depend on the calls before.

* `Element.texts`             — the texts of the paths of a part, as a product.
* `Element.map_toString_seqPaths` — they are the texts of its paths.
* `Pattern.plain_of_parse`    — a pattern that was read has words in all its parts.
* `Visit.noted`               — a visitor that also notes its calls.

Main result: `Pattern.each_in_order_of_product`.
-/

namespace LayeredConfig

-- ---------------------------------------------------------------------------
-- Texts of paths
-- ---------------------------------------------------------------------------

namespace KeyPath

open PatternToken

theorem plain_append {path : KeyPath} (h : ∀ segment ∈ path, IsWord segment.toList)
    {last : String} (hLast : IsWord last.toList) : Plain (path ++ [last]) :=
  ⟨List.append_ne_nil_of_right_ne_nil path (List.cons_ne_nil last []),
    List.forall_mem_append.2 ⟨h, List.forall_mem_singleton.2 hLast⟩⟩

end KeyPath

namespace Element

open KeyPath (joinTexts)
open PatternToken (IsWord)

mutual

/-- The texts of the paths of a part. -/
def texts : Element → List String
  | word segments => [segments.toString]
  | seq parts => seqTexts parts
  | alt branches => altTexts branches

/-- The texts of parts that follow each other: all combinations, the first part varying
slowest. -/
def seqTexts : List Element → List String
  | [] => [""]
  | part :: rest => (texts part).flatMap fun front => (seqTexts rest).map (joinTexts front)

/-- The texts of alternatives, one alternative after the other. -/
def altTexts : List Element → List String
  | [] => []
  | branch :: rest => texts branch ++ altTexts rest

end

-- ---------------------------------------------------------------------------
-- Parts of words
-- ---------------------------------------------------------------------------

mutual

/-- All words of a part are plain paths. -/
def Plain : Element → Prop
  | word segments => segments.Plain
  | seq parts => AllPlain parts
  | alt branches => AllPlain branches

/-- All words of some parts are plain paths. -/
def AllPlain : List Element → Prop
  | [] => True
  | part :: rest => Plain part ∧ AllPlain rest

end

theorem allPlain_iff (parts : List Element) : AllPlain parts ↔ ∀ part ∈ parts, part.Plain := by
  induction parts with
  | nil => simp [AllPlain]
  | cons part rest ih => rw [AllPlain, ih, List.forall_mem_cons]

mutual

theorem isWord_of_mem_paths :
    ∀ e : Element, e.Plain → ∀ path ∈ paths e, ∀ segment ∈ path, IsWord segment.toList
  | word segments, h => by
    intro path hPath
    rw [paths, List.mem_singleton] at hPath
    subst hPath
    exact h.2
  | seq parts, h => by
    rw [paths]
    exact isWord_of_mem_seqPaths parts h
  | alt branches, h => by
    rw [paths]
    exact isWord_of_mem_altPaths branches h

theorem isWord_of_mem_seqPaths :
    ∀ parts : List Element, AllPlain parts →
      ∀ path ∈ seqPaths parts, ∀ segment ∈ path, IsWord segment.toList
  | [], _ => by
    intro path hPath segment hSegment
    rw [seqPaths, List.mem_singleton] at hPath
    subst hPath
    cases hSegment
  | part :: rest, h => by
    intro path hPath segment hSegment
    rw [seqPaths, List.mem_flatMap] at hPath
    obtain ⟨front, hFront, hPath⟩ := hPath
    obtain ⟨back, hBack, rfl⟩ := List.mem_map.1 hPath
    rcases List.mem_append.1 hSegment with hSegment | hSegment
    · exact isWord_of_mem_paths part h.1 front hFront segment hSegment
    · exact isWord_of_mem_seqPaths rest h.2 back hBack segment hSegment

theorem isWord_of_mem_altPaths :
    ∀ branches : List Element, AllPlain branches →
      ∀ path ∈ altPaths branches, ∀ segment ∈ path, IsWord segment.toList
  | [], _ => nofun
  | branch :: rest, h => by
    intro path hPath
    rw [altPaths] at hPath
    rcases List.mem_append.1 hPath with hPath | hPath
    · exact isWord_of_mem_paths branch h.1 path hPath
    · exact isWord_of_mem_altPaths rest h.2 path hPath

end

mutual

theorem map_toString_paths : ∀ e : Element, e.Plain → (paths e).map KeyPath.toString = texts e
  | word _, _ => rfl
  | seq parts, h => by
    rw [paths, texts]
    exact map_toString_seqPaths parts h
  | alt branches, h => by
    rw [paths, texts]
    exact map_toString_altPaths branches h

theorem map_toString_seqPaths :
    ∀ parts : List Element, AllPlain parts → (seqPaths parts).map KeyPath.toString = seqTexts parts
  | [], _ => rfl
  | part :: rest, h => by
    rw [seqPaths, seqTexts, ← map_toString_paths part h.1, ← map_toString_seqPaths rest h.2,
      List.map_flatMap, List.flatMap_map]
    apply List.flatMap_congr
    intro front hFront
    rw [List.map_map, List.map_map]
    apply List.map_congr_left
    intro back hBack
    exact KeyPath.toString_append
      (fun segment hSegment =>
        (isWord_of_mem_paths part h.1 front hFront segment hSegment).ne_empty)
      (fun segment hSegment =>
        (isWord_of_mem_seqPaths rest h.2 back hBack segment hSegment).ne_empty)

theorem map_toString_altPaths :
    ∀ branches : List Element, AllPlain branches →
      (altPaths branches).map KeyPath.toString = altTexts branches
  | [], _ => rfl
  | branch :: rest, h => by
    rw [altPaths, altTexts, List.map_append, map_toString_paths branch h.1,
      map_toString_altPaths rest h.2]

end

end Element

-- ---------------------------------------------------------------------------
-- What is read has words in all its parts
-- ---------------------------------------------------------------------------

namespace Pattern

open PatternToken

/-- All words read so far are plain paths. -/
def Run.Plain (run : Run) : Prop := ∀ part ∈ run.parts, part.Plain

theorem Run.plain_addWord {run : Run} (h : run.Plain) {chars : List Char} (hWord : IsWord chars) :
    (run.addWord chars).Plain := by
  have hSegment : IsWord (String.ofList chars).toList := by rwa [String.toList_ofList]
  rw [addWord]
  split
  · rename_i segments rest hJoinable hParts
    rw [Run.Plain, hParts, List.forall_mem_cons] at h
    obtain ⟨⟨-, hSegments⟩, hRest⟩ := h
    exact List.forall_mem_cons.2 ⟨KeyPath.plain_append hSegments hSegment, hRest⟩
  · exact List.forall_mem_cons.2
      ⟨⟨List.cons_ne_nil _ [], List.forall_mem_singleton.2 hSegment⟩, h⟩

theorem Run.plain_addGroup {run : Run} (h : run.Plain) {group : Element} (hGroup : group.Plain) :
    (run.addGroup group).Plain := List.forall_mem_cons.2 ⟨hGroup, h⟩

theorem Run.plain_toBranch {run : Run} (h : run.Plain) : run.toBranch.Plain := by
  rw [toBranch]
  split
  · rename_i part hParts
    exact h part (hParts ▸ List.mem_singleton_self part)
  · rw [Element.Plain, Element.allPlain_iff]
    exact fun part hPart => h part (List.mem_reverse.1 hPart)

/-- All words in front of an open group and in its branches are plain paths. -/
def OpenGroup.Plain (group : OpenGroup) : Prop :=
  group.before.Plain ∧ ∀ branch ∈ group.branches, branch.Plain

theorem OpenGroup.plain_close {group : OpenGroup} (h : group.Plain) {last : Run}
    (hLast : last.Plain) : (group.close last).Plain := by
  have hAll : ∀ branch ∈ (last.toBranch :: group.branches).reverse, branch.Plain := by
    intro branch hBranch
    rcases List.mem_cons.1 (List.mem_reverse.1 hBranch) with rfl | hBranch
    · exact Run.plain_toBranch hLast
    · exact h.2 branch hBranch
  rw [close]
  split
  · rename_i branch hBranches
    exact Run.plain_addGroup h.1 (hAll branch (hBranches ▸ List.mem_singleton_self branch))
  · exact Run.plain_addGroup h.1 ((Element.allPlain_iff _).2 hAll)

namespace Reader

/-- All words read so far are plain paths. -/
def Plain (r : Reader) : Prop := r.run.Plain ∧ ∀ group ∈ r.groups, group.Plain

theorem plain_step {r next : Reader} {token : PatternToken} (h : r.Plain)
    (hWord : ∀ cs, token = .word cs → IsWord cs) (hStep : r.step token = .ok next) :
    next.Plain := by
  obtain ⟨hRun, hGroups⟩ := h
  rcases step_eq_ok hStep with
    ⟨-, ⟨cs, rfl, rfl⟩ | ⟨rfl, rfl⟩⟩ | ⟨-, rfl, rfl⟩ | ⟨-, group, outer, hOpen, hEnd⟩
  · exact ⟨Run.plain_addWord hRun (hWord cs rfl), hGroups⟩
  · exact ⟨nofun, List.forall_mem_cons.2 ⟨⟨hRun, nofun⟩, hGroups⟩⟩
  · exact ⟨hRun, hGroups⟩
  · rw [hOpen, List.forall_mem_cons] at hGroups
    obtain ⟨hGroup, hOuter⟩ := hGroups
    rcases hEnd with ⟨rfl, rfl⟩ | ⟨rfl, rfl⟩
    · exact ⟨OpenGroup.plain_close hGroup hRun, hOuter⟩
    · have hBranches := List.forall_mem_cons.2 ⟨Run.plain_toBranch hRun, hGroup.2⟩
      exact ⟨nofun, List.forall_mem_cons.2 ⟨⟨hGroup.1, hBranches⟩, hOuter⟩⟩

end Reader

theorem plain_of_parse {spec : String} {p : Pattern} (h : parse spec = .ok p) :
    Element.AllPlain p.elements := by
  obtain ⟨tokens, run, hScan, hRun, hElements⟩ := parse_eq_ok h
  have hStart : Reader.initial.Plain := ⟨nofun, nofun⟩
  obtain ⟨hPlain, -⟩ := Reader.invariant_run? (I := fun r _ => r.Plain) Reader.plain_step
    (isWord_of_scan hScan) [] hStart hRun
  rw [Element.allPlain_iff, hElements]
  exact fun part hPart => hPlain part (List.mem_reverse.1 hPart)

/-- The segments of the paths of a pattern that was read are words. -/
theorem isWord_of_mem_paths {spec : String} {p : Pattern} (h : parse spec = .ok p)
    {path : KeyPath} (hPath : path ∈ p.paths) : ∀ segment ∈ path, IsWord segment.toList :=
  Element.isWord_of_mem_seqPaths p.elements (plain_of_parse h) path hPath

/-- They are plain, unless they have no segments. -/
theorem plain_of_mem_paths {spec : String} {p : Pattern} (h : parse spec = .ok p) {path : KeyPath}
    (hPath : path ∈ p.paths) (hNonempty : path ≠ []) : path.Plain :=
  ⟨hNonempty, isWord_of_mem_paths h hPath⟩

end Pattern

-- ---------------------------------------------------------------------------
-- Calls of a visitor
-- ---------------------------------------------------------------------------

namespace Visit

/-- A visitor that also notes what it is called with. -/
def noted (visitor : String → StateM τ Visit) (text : String) : StateM (τ × List String) Visit :=
  fun (s, calls) =>
    let (answer, next) := (visitor text).run s
    (answer, (next, calls ++ [text]))

/-- How a visit to `texts` ends after the calls that have been made: with more, behind all
the texts and with no other answers; or with enough, at the first such answer. -/
def Ends (texts calls : List String) (answers : List Visit) : Visit → Prop
  | more => calls = texts ∧ ∀ answer ∈ answers, answer = more
  | enough => ∃ front, answers = front ++ [enough] ∧ ∀ answer ∈ front, answer = more

theorem Ends.cons {texts calls : List String} {answers : List Visit} {result : Visit}
    (h : result.Ends texts calls answers) (text : String) :
    result.Ends (text :: texts) (text :: calls) (more :: answers) := by
  cases result with
  | more => exact ⟨congrArg _ h.1, List.forall_mem_cons.2 ⟨rfl, h.2⟩⟩
  | enough =>
    obtain ⟨front, rfl, hFront⟩ := h
    exact ⟨more :: front, rfl, List.forall_mem_cons.2 ⟨rfl, hFront⟩⟩

section

variable {visitor : String → StateM τ Visit} {text : String} {s next : τ} {answer : Visit}

theorem run_noted (h : (visitor text).run s = (answer, next)) (calls : List String) :
    (noted visitor text).run (s, calls) = (answer, (next, calls ++ [text])) := by
  show (((visitor text).run s).1, (((visitor text).run s).2, calls ++ [text])) = _
  rw [h]

theorem run_mapM_cons (h : (visitor text).run s = (answer, next)) {calls : List String}
    {answers : List Visit} {last : τ} (hCalls : (calls.mapM visitor).run next = (answers, last)) :
    ((text :: calls).mapM visitor).run s = (answer :: answers, last) := by
  rw [List.mapM_cons, StateT.run_bind, h]
  show StateT.run (calls.mapM visitor >>= fun more => pure (answer :: more)) next = _
  rw [StateT.run_bind, hCalls]
  rfl

end

end Visit

section

variable {visitor : KeyPath → StateM τ Visit} {path : KeyPath} {s next : τ}

theorem run_visitPaths_of_enough (h : (visitor path).run s = (.enough, next))
    (rest : List KeyPath) : (visitPaths visitor (path :: rest)).run s = (.enough, next) := by
  rw [visitPaths, StateT.run_bind, h]
  rfl

theorem run_visitPaths_of_more (h : (visitor path).run s = (.more, next)) (rest : List KeyPath) :
    (visitPaths visitor (path :: rest)).run s = (visitPaths visitor rest).run next := by
  rw [visitPaths, StateT.run_bind, h]
  rfl

end

/-- What a visitor that notes its calls has noted behind the calls `before`, and how its
visit ends. -/
theorem run_visitPaths (visitor : String → StateM τ Visit) (paths : List KeyPath) (s : τ)
    (before : List String) : ∃ result s' calls answers,
      (visitPaths (fun path => Visit.noted visitor path.toString) paths).run (s, before) =
        (result, (s', before ++ calls)) ∧
      (visitPaths (fun path => visitor path.toString) paths).run s = (result, s') ∧
      calls <+: paths.map KeyPath.toString ∧
      (calls.mapM visitor).run s = (answers, s') ∧
      result.Ends (paths.map KeyPath.toString) calls answers := by
  induction paths generalizing s before with
  | nil =>
    refine ⟨.more, s, [], [], ?_, rfl, List.prefix_refl _, rfl, rfl, nofun⟩
    rw [List.append_nil]
    rfl
  | cons path rest ih =>
    rcases hAnswer : (visitor path.toString).run s with ⟨answer, next⟩
    have hNoted := Visit.run_noted hAnswer before
    cases answer with
    | enough =>
      exact ⟨.enough, next, [path.toString], [.enough], run_visitPaths_of_enough hNoted rest,
        run_visitPaths_of_enough hAnswer rest, List.prefix_append _ _,
        Visit.run_mapM_cons hAnswer rfl, [], rfl, nofun⟩
    | more =>
      obtain ⟨result, last, calls, answers, hLogged, hRun, hPrefix, hAnswers, hEnds⟩ :=
        ih next (before ++ [path.toString])
      rw [List.append_assoc] at hLogged
      exact ⟨result, last, path.toString :: calls, .more :: answers,
        (run_visitPaths_of_more hNoted rest).trans hLogged,
        (run_visitPaths_of_more hAnswer rest).trans hRun, (List.prefix_cons_inj _).2 hPrefix,
        Visit.run_mapM_cons hAnswer hAnswers, hEnds.cons _⟩

namespace Pattern

/-- The texts of the paths of a pattern: a product in order. -/
def texts (p : Pattern) : List String := Element.seqTexts p.elements

theorem map_toString_paths_of_parse {spec : String} {p : Pattern} (h : parse spec = .ok p) :
    p.paths.map KeyPath.toString = p.texts :=
  Element.map_toString_seqPaths p.elements (plain_of_parse h)

/-- **The paths of a pattern are visited in the order of the product, up to the first at
which the visitor has enough.** The calls begin the product; run on them in turn, the
visitor gives the answers and the state that the visit comes to; and the visit ends with
more behind all the texts, and with enough at the first such answer. A visitor that always
wants more finds all the texts. -/
theorem each_in_order_of_product {spec : String} {p : Pattern} (h : parse spec = .ok p) :
    p.mapPaths (fun path => (pure path.toString : Id String)) = p.texts ∧
    ∀ {τ : Type} (visitor : String → StateM τ Visit) (s : τ), ∃ result s' calls answers,
      (p.each fun path => Visit.noted visitor path.toString).run (s, []) =
        (result, (s', calls)) ∧
      (p.each fun path => visitor path.toString).run s = (result, s') ∧
      calls <+: p.texts ∧
      (calls.mapM visitor).run s = (answers, s') ∧
      result.Ends p.texts calls answers := by
  refine ⟨?_, ?_⟩
  · rw [mapPaths_eq_mapM, ← map_toString_paths_of_parse h]
    exact List.mapM_pure
  · intro τ visitor s
    rw [each_eq_visitPaths, each_eq_visitPaths, ← map_toString_paths_of_parse h]
    exact run_visitPaths visitor p.paths s []

/-- A visitor that counts its calls and has enough at the second. -/
def untilSecond : String → StateM Nat Visit :=
  fun _ count => (if count = 1 then .enough else .more, count + 1)

theorem each_in_order_of_product_until_second :
    let p : Pattern := ⟨"(a|b).(|c)",
      [.alt [.word ["a"], .word ["b"]], .alt [.seq [], .word ["c"]]]⟩
    parse "(a|b).(|c)" = .ok p ∧ p.texts = ["a", "a.c", "b", "b.c"] ∧
      p.mapPaths (fun path => (pure path.toString : Id String)) = p.texts ∧
      (p.each fun path => Visit.noted untilSecond path.toString).run (0, []) =
        (.enough, (2, ["a", "a.c"])) ∧
      ["a", "a.c"] <+: p.texts ∧
      ∃ answers, (["a", "a.c"].mapM untilSecond).run 0 = (answers, 2) ∧
        Visit.Ends p.texts ["a", "a.c"] answers .enough := by
  intro p
  have hParse : parse "(a|b).(|c)" = .ok p := by rfl
  have hRun : (p.each fun path => Visit.noted untilSecond path.toString).run (0, []) =
      (.enough, (2, ["a", "a.c"])) := by rfl
  obtain ⟨hTexts, hVisits⟩ := each_in_order_of_product hParse
  obtain ⟨result, s', calls, answers, hNoted, -, hPrefix, hAnswers, hEnds⟩ :=
    hVisits untilSecond 0
  cases hRun.symm.trans hNoted
  exact ⟨hParse, by rfl, hTexts, hRun, hPrefix, answers, hAnswers, hEnds⟩

end Pattern

end LayeredConfig
