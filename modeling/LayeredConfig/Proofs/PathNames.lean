import LayeredConfig.Setup
import LayeredConfig.Proofs.Chain
import LayeredConfig.Proofs.ConcretePaths
import LayeredConfig.Proofs.Joining
import LayeredConfig.Proofs.LastCalls
import LayeredConfig.Proofs.Locations
import LayeredConfig.Proofs.Merge
import LayeredConfig.Proofs.PlainPath
import Mathlib

/-!
# LayeredConfig — computed path names

What the path function computes is a path name already. It becomes the text of its leaf,
though, and that has a directory like any other text: whoever takes it as a path name
joins it onto the directory once more. This leaves it as it is only if it is absolute, or
if there is nothing to join it onto.

A file that is named by a relative path gives its texts a relative directory; the files
that discovery finds have absolute ones.

* `Resolver.baseOf`            — what the path function joins its argument onto.
* `Expansion.value_of_path_of_reference` — a path name made of what is at a path.
* `Setup.pathnames_of_computed` — the path names of a computed path.
-/

namespace LayeredConfig

open Eval History

namespace Resolver

/-- The directory that the path function joins an argument onto, in a text from `dir`: an
annotated argument has its own. -/
def baseOf (arg : Value) (dir : String) : String := ((Value.text? arg).bind Text.origin).getD dir

theorem pathOf_eq_join {raw : Text} {dir : String} (h : raw.origin = some dir) (arg : Value) :
    pathOf arg (some raw) = Path.join (baseOf arg dir) (Value.render arg) := by
  unfold pathOf baseOf
  cases arg with
  | leaf a =>
    cases a with
    | text t =>
      obtain ⟨text, origin⟩ := t
      cases origin with
      | none => simp [Value.text?, h]
      | some own => rfl
    | _ => simp [Value.text?, h]
  | seq items => simp [Value.text?, h]
  | table entries => simp [Value.text?, h]

end Resolver

namespace Template

/-- The text of a call with a reference as its argument. -/
theorem parse_pathCall {spec : String} {pattern : Pattern} (h : Pattern.parse spec = .ok pattern) :
    parse ("$\x7bpath:\x7b" ++ spec ++ "\x7d\x7d") =
      .ok [.reference [.text "path".toList, .colon, .lookup [.text spec.toList]]] := by
  obtain ⟨c, chars, hChars, hPlain⟩ := Pattern.chars_of_parse h
  have hScan : TemplateToken.scan ("$\x7bpath:\x7b" ++ spec ++ "\x7d\x7d").toList =
      [.opening, .text "path".toList, .colon, .leftBrace, .text spec.toList, .rightBrace,
        .rightBrace] := by
    rw [String.toList_append, String.toList_append, hChars]
    show .opening :: .text ['p', 'a', 't', 'h'] :: .colon :: .leftBrace ::
      TemplateToken.scan (c :: chars ++ ['}', '}']) = _
    rw [TemplateToken.scan_text hPlain fun cs tokens hEq => by cases hEq]
    rfl
  rw [parse, hScan]
  rfl

/-- The reference in the argument is looked up first, and the call is asked for with what
that has given. -/
theorem lookup_pathCall (ask : Resolver σ) (subject : Option Text) (spec : String) :
    lookup ask subject [.text "path".toList, .colon, .lookup [.text spec.toList]] = (do
      let found ← ask ⟨spec, none, subject⟩
      ask (.ofFragments [.text "path".toList, .colon, .value found] subject)) := by
  rw [← lookup_text ask subject spec]
  simp only [lookup, evalPieces, evalPiece, pure_bind, bind_assoc]

theorem interpolate_pathCall (resolvers : List (Resolver σ)) (subject : Option Text)
    {spec : String} {pattern : Pattern} (h : Pattern.parse spec = .ok pattern) :
    interpolate resolvers subject ("$\x7bpath:\x7b" ++ spec ++ "\x7d\x7d") =
      (fun found => found.getD (Value.ofString "")) <$> (do
        let found ← Resolver.first resolvers ⟨spec, none, subject⟩
        Resolver.first resolvers
          (.ofFragments [.text "path".toList, .colon, .value found] subject)) := by
  rw [interpolate_of_parse (parse_pathCall h), eval_reference, lookup_pathCall]

theorem callOf?_pathCall (found : Option Value) (subject : Option Text) :
    (Request.ofFragments [.text "path".toList, .colon, .value found] subject).callOf? "path" =
      some (found.getD (Value.ofString "")) := by
  rfl

end Template

namespace Tree

/-- What a plain path leads to in a tree. -/
theorem get_of_at? {t node : Value} {location : Location} {path : KeyPath} (hPath : path.Plain)
    (hSpelled : location.SpelledBy path) (h : t.at? location = some node) :
    Value.get t path.toString = .ok (some node) := by
  have hLeads : t.Leads path location := ⟨hPath.1, hSpelled, node, h⟩
  rw [Value.get_toString t hPath, hLeads.get?_eq, h]

end Tree

namespace Expansion

/-- Resolvers that decline leave a call to the path function, which answers it. -/
theorem answer_of_path {rules : ExpansionRules σ} {scope : Resolver (Session σ)} {leaf : Leaf}
    {request : Request} {arg : Value} (hCall : request.callOf? "path" = some arg)
    (hClient : ∀ r ∈ rules.resolvers, ∀ c a, ((r request).run c).1 ≠ .ok (some a))
    {s s' : Session σ} {answer : Option Value}
    (hRun : (Resolver.first (chain rules scope leaf) request).run s = (.ok answer, s')) :
    answer = some (Value.ofString (Resolver.pathOf arg request.subject)) ∧
      s'.history = s.history := by
  rw [chain_eq_append] at hRun
  obtain ⟨s₁, hSame, hBack⟩ := run_first_append (declines_ofClient hClient) hRun
  have hPath : (Resolver.path request : Eval (Session σ) (Option Value)) =
      pure (some (Value.ofString (Resolver.pathOf arg request.subject))) := by
    rw [Resolver.path, hCall]
    rfl
  rw [Resolver.first, hPath, pure_bind] at hBack
  cases hBack
  exact ⟨rfl, hSame⟩

/-- What the scope finds at a plain path is what is there in the end. -/
theorem found_of_scope {rules : ExpansionRules σ} {root : Draft} {leaf : Leaf} {depth : Nat}
    (hVars : rules.expandVars = true) {path : KeyPath} (hPath : path.Plain) {subject : Option Text}
    (hClient : ∀ r ∈ rules.resolvers, ∀ c a,
      ((r ⟨path.toString, none, subject⟩).run c).1 ≠ .ok (some a))
    {s s' : Session σ} {found : Option Value}
    (hRun : (Resolver.first
      (chain rules (scope (resolve rules root depth (some leaf.location)) root) leaf)
      ⟨path.toString, none, subject⟩).run s = (.ok found, s'))
    {final : History} (hFinal : s'.history.Precedes final) {v x : Value}
    (hSettled : Draft.settle final.leafValue? root = Draft.known v)
    (hGet : Value.get v path.toString = .ok (some x)) : found = some x := by
  have hSpec := Pattern.parse_toString hPath
  obtain ⟨s₁, o, s₂, -, hScope, hAfter, hAnswer⟩ := run_chain_of_scope hVars hClient hRun
  rw [scope_of_pattern hSpec] at hScope
  have hEnd : s₂.history.Precedes final :=
    (hAfter s₂.history.Precedes (Precedes.refl _)).trans hFinal
  have hOne : (Pattern.paths ⟨path.toString, [.word path]⟩).length = 1 := by
    rw [Pattern.paths_word]
    rfl
  have hMerge := valueAt_eq_merge_of_one_path hOne (faithful_resolve depth _) hScope hEnd hSettled
  refine hAnswer x ?_
  unfold Value.get at hGet
  rw [hSpec] at hGet
  rw [hMerge]
  exact Except.ok.inj hGet

/-- In the expanded tree a call of the path function with a reference to a plain path is what
the function makes of what is there at that path. -/
theorem value_of_path_of_reference {t v : Value} (ht : t.WellFormed) {rules : ExpansionRules σ}
    (hVars : rules.expandVars = true) {c : σ} {s : Session σ}
    (hRun : (ofValue t rules).all.run (Session.start c) = (.ok v, s)) {location : Location}
    {raw : Text} (hLeaf : t.at? location = some (.leaf (.text raw))) {path : KeyPath}
    (hPath : path.Plain) (hText : raw.text = "$\x7bpath:\x7b" ++ path.toString ++ "\x7d\x7d")
    (hClient : ∀ r ∈ rules.resolvers, ∀ request, request.subject = some raw →
      ∀ c a, ((r request).run c).1 ≠ .ok (some a))
    {x : Value} (hGet : Value.get v path.toString = .ok (some x)) :
    v.at? location =
      some (.leaf (.text (raw.withText (Resolver.pathOf x (some raw))))) := by
  obtain ⟨hSettled, hExplained⟩ := explained_of_all ht hRun
  obtain ⟨w', hValue, hAt⟩ := Draft.value_at_of_settle_eq hSettled (Draft.at?_ofValue hLeaf)
  obtain ⟨_, hEarlier, depth, trigger, s₀, w, s₁, hEval, rfl, rfl⟩ :=
    hExplained.exists_explains (Draft.mem_deferredLeaves_ofValue hLeaf) hValue
  have hSpec := Pattern.parse_toString hPath
  unfold evaluation interpolateLeaf at hEval
  rw [hText, Template.interpolate_pathCall _ _ hSpec] at hEval
  obtain ⟨answer, hAsked, rfl⟩ := run_map_eq_ok.1 hEval
  obtain ⟨found, s₂, hInner, hOuter⟩ := run_bind_eq_ok.1 hAsked
  obtain ⟨rfl, hSame⟩ := answer_of_path (Template.callOf?_pathCall found (some raw))
    (fun r hr => hClient r hr _ rfl) hOuter
  have hFinal : s₂.history.Precedes s.history := by
    rw [← hSame]
    exact hEarlier
  have hFound : found = some x :=
    found_of_scope hVars hPath (fun r hr => hClient r hr _ rfl) hInner hFinal hSettled hGet
  rw [hFound] at hAt
  exact hAt

end Expansion

-- ---------------------------------------------------------------------------
-- Setups
-- ---------------------------------------------------------------------------

namespace Configuration

theorem pathnames_of_text {tree : Configuration} {spec : String} {t : Text}
    (h : tree.get spec = .ok (some (.leaf (.text t)))) :
    tree.pathnames spec = .ok [t.pathname] := by
  unfold pathnames
  rw [h]
  rfl

end Configuration

namespace Layer

theorem wellFormed_annotated {layer : Layer} (h : layer.value.WellFormed) :
    layer.annotated.WellFormed := by
  unfold annotated
  split
  · exact Tree.wellFormed_map _ h
  · exact h

theorem origin_of_mem_annotated {layer : Layer} (h : layer.origin ≠ none) {raw : Text}
    (hText : Scalar.text raw ∈ layer.annotated.leaves) : ∃ dir, raw.origin = some dir := by
  obtain ⟨dir, hDir⟩ := Option.ne_none_iff_exists'.1 h
  unfold annotated at hText
  rw [hDir] at hText
  simp only [Value.annotate, Tree.leaves_map, List.mem_map] at hText
  obtain ⟨s, -, hs⟩ := hText
  cases s with
  | text t =>
    have hRaw : t.annotate dir = raw := Scalar.text.inj hs
    rw [← hRaw]
    cases hOrigin : t.origin with
    | none => exact ⟨dir, by simp [Text.annotate, hOrigin]⟩
    | some other => exact ⟨other, by simp [Text.annotate, hOrigin]⟩
  | _ => cases hs

end Layer

namespace Setup

variable {options : Options} {layers : List Layer}

theorem wellFormed_merged (h : ∀ layer ∈ layers, layer.value.WellFormed) :
    (merged options layers).WellFormed := by
  unfold merged
  cases hMerge : Tree.merge (layers.map fun layer => some (layerValue options layer)) with
  | none => exact ⟨Fields.ordered_nil, trivial⟩
  | some v =>
    have hWf : ∀ t, some t ∈ layers.map (fun layer => some (layerValue options layer)) →
        t.WellFormed := by
      intro t ht
      obtain ⟨layer, hLayer, hValue⟩ := List.mem_map.1 ht
      rw [← Option.some.inj hValue, layerValue]
      split
      · exact Layer.wellFormed_annotated (h layer hLayer)
      · exact h layer hLayer
    exact (Tree.merges_of_merge_eq hWf hMerge).wellFormed hWf

/-- Where all layers come from directories, so do the texts of the merged tree. -/
theorem origin_of_merged (hSmart : options.smartStrings = true)
    (h : ∀ layer ∈ layers, layer.origin ≠ none) {location : Location} {raw : Text}
    (hLeaf : (merged options layers).at? location = some (.leaf (.text raw))) :
    ∃ dir, raw.origin = some dir := by
  have hIn : Scalar.text raw ∈ (merged options layers).leaves :=
    Tree.mem_leaves_of_at? hLeaf (Tree.mem_leaves_leaf.2 rfl)
  unfold merged at hIn
  cases hMerge : Tree.merge (layers.map fun layer => some (layerValue options layer)) with
  | none =>
    rw [hMerge] at hIn
    exact absurd hIn List.not_mem_nil
  | some v =>
    rw [hMerge] at hIn
    obtain ⟨t, ht, hText⟩ := Tree.mem_leaves_of_merge hMerge hIn
    obtain ⟨layer, hLayer, hValue⟩ := List.mem_map.1 ht
    rw [← Option.some.inj hValue, layerValue, if_pos hSmart] at hText
    exact Layer.origin_of_mem_annotated (h layer hLayer) hText

section

variable {setup : Setup σ} {world : World}

/-- The expansion of the merged layers. -/
def expansion (setup : Setup σ) (world : World) (layers : List Layer) : Expansion σ :=
  .ofValue (merged setup.options layers) (setup.rules world.environment)

theorem all_of_build (hLayers : Source.allLayers world setup.options setup.sources = .ok layers)
    {c c' : σ} {tree : Configuration} (hBuild : (setup.build world).run c = (.ok tree, c')) :
    ∃ s, (setup.expansion world layers).all.run (Session.start c) = (.ok tree.value, s) := by
  unfold build at hBuild
  rw [hLayers] at hBuild
  obtain ⟨value, hExpand, hTree⟩ := run_map_eq_ok.1 hBuild
  rw [← hTree]
  exact Expansion.run_all_of_expand hExpand

/-- **A computed path is joined onto the directory of its leaf again.** Let the layers of a
setup, their tables in order, come from directories. Let a text at a plain path be one call of
the path function and have its value from that function: the last resolver called for it is
the one behind those of the client. Then the text in the expanded tree is what the function
computed, the argument joined onto its own directory or that of the text. As a path name it
is joined onto the directory of the text once more, and so it is where a further call of the
function refers to it. That text is the one computed just if this is absolute or the directory
is empty; as a path it is the same also if the directory is `.` and what was computed begins
with that. What was computed is absolute just if the argument is or what it was joined onto. -/
theorem pathnames_of_computed {layers : List Layer} (hSmart : setup.options.smartStrings = true)
    (hLayers : Source.allLayers world setup.options setup.sources = .ok layers)
    (hOrigins : ∀ layer ∈ layers, layer.origin ≠ none)
    (hOrdered : ∀ layer ∈ layers, layer.value.WellFormed)
    {c c' : σ} {tree : Configuration} (hBuild : (setup.build world).run c = (.ok tree, c'))
    {path : KeyPath} (hPath : path.Plain) {location : Location} (hSpelled : location.SpelledBy path)
    {raw : Text} (hLeaf : (merged setup.options layers).at? location = some (.leaf (.text raw)))
    (hText : raw.IsPathCall) {call : PlacedCall}
    (hLast : (setup.expansion world layers).lastCall? .all (Session.start c) location = some call)
    (hPlace : call.place = setup.resolvers.length) :
    ∃ dir arg computed, raw.origin = some dir ∧ call.request.callOf? "path" = some arg ∧
      computed = Resolver.pathOf arg (some raw) ∧
      computed = Path.join (Resolver.baseOf arg dir) (Value.render arg) ∧
      tree.get path.toString = .ok (some (.leaf (.text ⟨computed, some dir⟩))) ∧
      tree.pathnames path.toString = .ok [Path.join dir computed] ∧
      (∀ (other : Location) (further : Text),
        (merged setup.options layers).at? other = some (.leaf (.text further)) →
        further.text = "$\x7bpath:\x7b" ++ path.toString ++ "\x7d\x7d" →
        setup.options.expandVars = true →
        (∀ r ∈ setup.resolvers, ∀ request, request.subject = some further →
          ∀ c a, ((r request).run c).1 ≠ .ok (some a)) →
        tree.value.at? other = some (.leaf (.text ⟨Path.join dir computed, further.origin⟩))) ∧
      (Path.join dir computed = computed ↔ Path.isAbsolute computed = true ∨ dir = "") ∧
      (Path.same (Path.join dir computed) computed = true ↔
        Path.isAbsolute computed = true ∨ dir = "" ∨
          (Path.components dir = [.current] ∧ (Path.components computed).head? = some .current)) ∧
      Path.isAbsolute computed =
        (Path.isAbsolute (Value.render arg) || Path.isAbsolute (Resolver.baseOf arg dir)) := by
  have hMerged : (merged setup.options layers).WellFormed := wellFormed_merged hOrdered
  obtain ⟨dir, hDir⟩ := origin_of_merged hSmart hOrigins hLeaf
  obtain ⟨s, hAll⟩ := all_of_build hLayers hBuild
  obtain ⟨arg, hCall, hValue⟩ := Expansion.value_of_path hMerged hAll hLeaf hText hLast hPlace
  have hJoin := Resolver.pathOf_eq_join hDir arg
  have hGet : tree.get path.toString =
      .ok (some (.leaf (.text ⟨Resolver.pathOf arg (some raw), some dir⟩))) := by
    rw [Text.withText, hDir] at hValue
    exact Tree.get_of_at? hPath hSpelled hValue
  refine ⟨dir, arg, Resolver.pathOf arg (some raw), hDir, hCall, rfl, hJoin, hGet,
    Configuration.pathnames_of_text hGet, ?_, Path.join_eq_self_iff, Path.same_join_iff, ?_⟩
  · intro other further hFurther hReference hVars hClient
    exact Expansion.value_of_path_of_reference hMerged hVars hAll hFurther hPath hReference hClient
      hGet
  · rw [hJoin]
    exact Path.isAbsolute_join (Resolver.baseOf arg dir) (Value.render arg)

end

/-- A layer from a relative directory, with a computed path and a further call for it. -/
def relativeLayer : Layer :=
  ⟨.table [("again", Value.ofString "$\x7bpath:\x7bdata\x7d\x7d"),
    ("data", Value.ofString "$\x7bpath:x\x7d")], some "conf"⟩

/-- No files and no variables. -/
def bareWorld : World := ⟨⟨fun _ => none, []⟩, []⟩

def relativeSetup : Setup Unit :=
  { sources := [.given relativeLayer]
    options := Options.default
    resolvers := []
    defaultResolvers := []
    env := none }

def relativeResult : Value :=
  .table [("again", .leaf (.text ⟨"conf/conf/x", some "conf"⟩)),
    ("data", .leaf (.text ⟨"conf/x", some "conf"⟩))]

/-- The text of the computed path. -/
def relativeText : Text := ⟨"$\x7bpath:x\x7d", some "conf"⟩

theorem build_relative :
    (relativeSetup.build bareWorld).run () = (.ok ⟨relativeResult⟩, ()) := by
  cbv

theorem isPathCall_relativeText : relativeText.IsPathCall := ⟨[.text "x".toList], by rfl⟩

theorem exists_lastCall?_relative : ∃ call,
    (relativeSetup.expansion bareWorld [relativeLayer]).lastCall? .all
      (Session.start ()) [.key "data"] = some call ∧ call.place = 0 := by
  have hPlace : ((relativeSetup.expansion bareWorld [relativeLayer]).lastCall? .all
      (Session.start ()) [.key "data"]).map (·.place) = some 0 := by decide +kernel
  exact Option.map_eq_some_iff.1 hPlace

theorem ordered_relativeLayer : ∀ layer ∈ [relativeLayer], layer.value.WellFormed := by
  intro layer hLayer
  cases List.mem_singleton.1 hLayer
  exact ⟨by decide, trivial, trivial, trivial⟩

theorem origins_relativeLayer : ∀ layer ∈ [relativeLayer], layer.origin ≠ none := by
  intro layer hLayer
  cases List.mem_singleton.1 hLayer
  decide

/-- The directory is joined on a second time. -/
theorem pathnames_of_computed_relative :
    (relativeSetup.build bareWorld).run () = (.ok ⟨relativeResult⟩, ()) ∧
    ∃ arg computed, computed = Path.join (Resolver.baseOf arg "conf") (Value.render arg) ∧
      Configuration.get ⟨relativeResult⟩ "data" =
        .ok (some (.leaf (.text ⟨computed, some "conf"⟩))) ∧
      Configuration.pathnames ⟨relativeResult⟩ "data" = .ok [Path.join "conf" computed] ∧
      relativeResult.at? [.key "again"] =
        some (.leaf (.text ⟨Path.join "conf" computed, some "conf"⟩)) := by
  obtain ⟨call, hLast, hPlace⟩ := exists_lastCall?_relative
  have hPath : KeyPath.Plain ["data"] := by decide
  have hSpelled : Location.SpelledBy [.key "data"] ["data"] := .cons rfl .nil
  obtain ⟨dir, arg, computed, hDir, -, -, hJoin, hGet, hPathnames, hFurther, -, -, -⟩ :=
    pathnames_of_computed rfl rfl origins_relativeLayer ordered_relativeLayer build_relative hPath
      hSpelled rfl isPathCall_relativeText hLast hPlace
  cases hDir
  exact ⟨build_relative, arg, computed, hJoin, hGet, hPathnames,
    hFurther [.key "again"] ⟨"$\x7bpath:\x7bdata\x7d\x7d", some "conf"⟩ rfl rfl rfl
      fun r hr => absurd hr List.not_mem_nil⟩

/-- A computed path is not final: its path name need not be the text that was computed, nor
another spelling of it. -/
theorem not_pathnames_eq_computed :
    ¬ ∀ (setup : Setup Unit) (world : World) (layers : List Layer) (tree : Configuration)
      (path : KeyPath) (location : Location) (raw : Text) (call : PlacedCall),
      setup.options.smartStrings = true →
      Source.allLayers world setup.options setup.sources = .ok layers →
      (∀ layer ∈ layers, layer.origin ≠ none) → (∀ layer ∈ layers, layer.value.WellFormed) →
      (setup.build world).run () = (.ok tree, ()) → path.Plain → location.SpelledBy path →
      (merged setup.options layers).at? location = some (.leaf (.text raw)) → raw.IsPathCall →
      (setup.expansion world layers).lastCall? .all (Session.start ()) location = some call →
      call.place = setup.resolvers.length →
      ∃ t name, tree.get path.toString = .ok (some (.leaf (.text t))) ∧
        tree.pathnames path.toString = .ok [name] ∧ Path.same name t.text = true := by
  intro h
  obtain ⟨call, hLast, hPlace⟩ := exists_lastCall?_relative
  obtain ⟨t, name, hGet, hPathnames, hSame⟩ := h relativeSetup bareWorld [relativeLayer]
    ⟨relativeResult⟩ ["data"] [.key "data"] relativeText call rfl rfl origins_relativeLayer
    ordered_relativeLayer build_relative (by decide) (.cons rfl .nil) rfl isPathCall_relativeText
    hLast hPlace
  have hText : t = ⟨"conf/x", some "conf"⟩ := by
    have hData : Configuration.get ⟨relativeResult⟩ "data" =
        .ok (some (.leaf (.text ⟨"conf/x", some "conf"⟩))) := by rfl
    cases hData.symm.trans hGet
    rfl
  rw [Configuration.pathnames_of_text hGet, hText] at hPathnames
  have hName : "conf/conf/x" = name := List.head_eq_of_cons_eq (Except.ok.inj hPathnames)
  rw [← hName, hText] at hSame
  exact absurd hSame (by decide)

end Setup

end LayeredConfig
