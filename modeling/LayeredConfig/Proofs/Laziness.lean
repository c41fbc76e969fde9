import LayeredConfig.Proofs.AtMostOnce
import LayeredConfig.Proofs.SameCalls

/-!
# LayeredConfig — leaves that were not needed

A call evaluates the leaves it needs and leaves the others pending. Those are handled all
the same: they are walked up to, and taken into merges and dropped from them. None of this
reads their texts. So a call that succeeds gives the same with any other texts in their
places, malformed ones and those on cycles included.

Looking into a tree with other texts is looking into the tree itself, where each leaf, once
it is requested, has its other text. And a leaf whose evaluation was begun is not pending
after a call that succeeds; it cannot have been one with another text.

* `Value.retext`                — a tree with other texts.
* `Expansion.valueAt_retext`, `Expansion.answerBy_retext` — lookups and calls in it.
* `Expansion.coupled_retext`    — as long as no leaf with another text is evaluated.
* `Expansion.noneBack_of_answer` — after a success, what was begun is not pending.
* `Expansion.get_of_untouched`  — leaves that were not needed do not matter.
-/

namespace LayeredConfig

open Eval History

-- ---------------------------------------------------------------------------
-- Other texts
-- ---------------------------------------------------------------------------

namespace Leaf

/-- The leaf with another text, in the same place. -/
def retext (f : Leaf → Text) (leaf : Leaf) : Leaf := ⟨leaf.location, f leaf⟩

theorem retext_of_eq {f : Leaf → Text} {leaf : Leaf} (h : f leaf = leaf.raw) :
    leaf.retext f = leaf := by
  rw [retext, h]

end Leaf

namespace Cell

/-- The cell with another text, if it defers one. -/
def retext (f : Leaf → Text) : Cell → Cell
  | .known s => .known s
  | .deferred leaf => .deferred (leaf.retext f)

/-- The scalar that a cell comes from, with another text. -/
def scalarWith (f : Leaf → Text) : Cell → Scalar
  | .known s => s
  | .deferred leaf => .text (f leaf)

end Cell

/-- The tree with other texts: `f` says which ones, by where texts stand and what they
are. -/
def Value.retext (f : Leaf → Text) (t : Value) : Value :=
  (Draft.ofValue t).map (Cell.scalarWith f)

namespace Draft

open LayeredConfig.Tree (map mapItems mapEntries)

/-- The draft with other texts. -/
def retext (f : Leaf → Text) (d : Draft) : Draft := d.map (Cell.retext f)

section

variable (f : Leaf → Text)

mutual

theorem ofValueAt_map_scalarWith (location : Location) : ∀ v : Value,
    ofValueAt location ((ofValueAt location v).map (Cell.scalarWith f)) =
      (ofValueAt location v).map (Cell.retext f)
  | .leaf s => by cases s <;> rfl
  | .seq items => congrArg Tree.seq (ofItemsAt_mapItems_scalarWith location items 0)
  | .table entries => congrArg Tree.table (ofEntriesAt_mapEntries_scalarWith location entries)

theorem ofItemsAt_mapItems_scalarWith (location : Location) : ∀ (items : List Value) (i : Nat),
    ofItemsAt location i (mapItems (Cell.scalarWith f) (ofItemsAt location i items)) =
      mapItems (Cell.retext f) (ofItemsAt location i items)
  | [], _ => rfl
  | v :: rest, i => by
    rw [ofItemsAt, mapItems, ofItemsAt, ofValueAt_map_scalarWith _ v,
      ofItemsAt_mapItems_scalarWith location rest (i + 1)]
    rfl

theorem ofEntriesAt_mapEntries_scalarWith (location : Location) :
    ∀ entries : List (String × Value),
      ofEntriesAt location (mapEntries (Cell.scalarWith f) (ofEntriesAt location entries)) =
        mapEntries (Cell.retext f) (ofEntriesAt location entries)
  | [] => rfl
  | (key, v) :: rest => by
    rw [ofEntriesAt, mapEntries, ofEntriesAt, ofValueAt_map_scalarWith _ v,
      ofEntriesAt_mapEntries_scalarWith location rest]
    rfl

end

theorem ofValue_retext (t : Value) : ofValue (t.retext f) = (ofValue t).retext f :=
  ofValueAt_map_scalarWith f [] t

theorem deferredLeaves_retext (d : Draft) :
    (d.retext f).deferredLeaves = d.deferredLeaves.map (Leaf.retext f) :=
  deferredLeaves_map (fun cell => by cases cell <;> rfl) d

theorem retext_known (v : Value) : (known v).retext f = known v := by
  rw [retext, known, Tree.map_map]
  rfl

/-- Leaves are settled by where they stand, so their texts do not matter. -/
theorem settle_retext (h : History) (d : Draft) :
    settle h.leafValue? (d.retext f) = (settle h.leafValue? d).retext f := by
  have hValue : ∀ leaf : Leaf,
      h.leafValue? (leaf.retext f) = (h.leafValue? leaf).map (Tree.map fun s => s) := by
    intro leaf
    rw [show (Tree.map fun s : Scalar => s) = id from funext Tree.map_id, Option.map_id]
    rfl
  exact (map_settle (g := Cell.retext f) (fun _ => rfl) (fun _ => rfl) hValue d).symm

end

end Draft

namespace Expansion

open Draft

-- ---------------------------------------------------------------------------
-- Looking into a tree with other texts
-- ---------------------------------------------------------------------------

section

variable {f : Leaf → Text} {resolveLeaf : LeafResolver σ}

theorem ne_deferred_retext {d : Draft} (h : ∀ leaf, d ≠ .leaf (.deferred leaf)) :
    ∀ leaf, d.retext f ≠ .leaf (.deferred leaf) := by
  cases d with
  | leaf cell =>
    cases cell with
    | known s => exact fun leaf hEq => by cases hEq
    | deferred leaf => exact absurd rfl (h leaf)
  | seq items => exact fun leaf hEq => by cases hEq
  | table entries => exact fun leaf hEq => by cases hEq

theorem follow_retext (path : KeyPath) (d : Draft) :
    follow resolveLeaf path (d.retext f) = Option.map (Draft.retext f) <$>
      follow (fun leaf => resolveLeaf (leaf.retext f)) path d := by
  induction path, d using follow.induct with
  | case1 d => rfl
  | case2 segment rest leaf =>
    have hKnown : ∀ o : Option Value, (o.map known).map (Draft.retext f) = o.map known := by
      intro o
      cases o with
      | none => rfl
      | some v => exact congrArg some (retext_known f v)
    rw [follow_deferred, ← comp_map]
    show follow resolveLeaf (segment :: rest) (.leaf (.deferred (leaf.retext f))) = _
    rw [follow_deferred]
    refine congrFun (congrArg Functor.map (funext fun v => ?_)) _
    exact (hKnown _).symm
  | case3 segment rest d hNot hChild =>
    rw [follow_of_child? (ne_deferred_retext hNot), follow_of_child? hNot, retext, Tree.child?_map,
      hChild]
    rfl
  | case4 segment rest d hNot below hChild ih =>
    rw [follow_of_child? (ne_deferred_retext hNot), follow_of_child? hNot, retext, Tree.child?_map,
      hChild]
    exact ih

theorem mapM_retext {find find' : KeyPath → Eval (Session σ) (Option Draft)}
    (h : ∀ path, find path = Option.map (Draft.retext f) <$> find' path) (paths : List KeyPath) :
    paths.mapM find = List.map (Option.map (Draft.retext f)) <$> paths.mapM find' := by
  induction paths with
  | nil => rfl
  | cons path rest ih =>
    rw [List.mapM_cons, List.mapM_cons, h, ih]
    simp only [map_eq_pure_bind, bind_assoc, pure_bind, List.map_cons]

theorem walk_retext (root : Draft) (pattern : Pattern) :
    walk resolveLeaf (root.retext f) pattern = List.map (Option.map (Draft.retext f)) <$>
      walk (fun leaf => resolveLeaf (leaf.retext f)) root pattern := by
  rw [walk, walk, Pattern.mapPaths_eq_mapM, Pattern.mapPaths_eq_mapM]
  refine mapM_retext (fun path => ?_) _
  rw [find, find]
  split
  · rfl
  · exact follow_retext path root

theorem complete_retext (d : Draft) : complete resolveLeaf (d.retext f) =
    complete (fun leaf => resolveLeaf (leaf.retext f)) d := by
  have hCell : (fun cell => Tree.graftM (completeCell resolveLeaf) (.leaf (Cell.retext f cell))) =
      completeCell fun leaf => resolveLeaf (leaf.retext f) := by
    funext cell
    cases cell <;> rfl
  rw [complete, retext, ← Tree.graft_leaf, Tree.graftM_graft, hCell, complete]

theorem mergeFound_retext (found : List (Option Draft)) :
    mergeFound resolveLeaf (found.map (Option.map (Draft.retext f))) =
      mergeFound (fun leaf => resolveLeaf (leaf.retext f)) found := by
  rw [mergeFound, mergeFound]
  refine congrArg (Session.currentHistory >>= ·) (funext fun history => ?_)
  have hSettle : (found.map (Option.map (Draft.retext f))).map
      (Option.map (settle history.leafValue?)) =
      (found.map (Option.map (settle history.leafValue?))).map (Option.map (Draft.retext f)) := by
    rw [List.map_map, List.map_map]
    refine List.map_congr_left fun o _ => ?_
    cases o with
    | none => rfl
    | some d => exact congrArg some (settle_retext f history d)
  have hMerge : Tree.merge ((found.map (Option.map (settle history.leafValue?))).map
      (Option.map (Draft.retext f))) =
      (Tree.merge (found.map (Option.map (settle history.leafValue?)))).map (Draft.retext f) :=
    Tree.merge_map _ _
  rw [hSettle, hMerge]
  cases Tree.merge (found.map (Option.map (settle history.leafValue?))) with
  | none => rfl
  | some d => exact congrArg (some <$> ·) (complete_retext d)

/-- A pattern has in a tree with other texts what it has in the tree, where leaves are
resolved by their other texts. -/
theorem valueAt_retext (root : Draft) (pattern : Pattern) :
    valueAt resolveLeaf (root.retext f) pattern =
      valueAt (fun leaf => resolveLeaf (leaf.retext f)) root pattern := by
  rw [valueAt_eq, valueAt_eq, walk_retext, map_eq_pure_bind, bind_assoc]
  refine congrArg (walk _ root pattern >>= ·) (funext fun found => ?_)
  rw [pure_bind, mergeFound_retext]

theorem scope_retext (root : Draft) (request : Request) :
    scope resolveLeaf (root.retext f) request =
      scope (fun leaf => resolveLeaf (leaf.retext f)) root request := by
  rw [scope, scope]
  simp only [valueAt_retext]

theorem answerBy_retext (root : Draft) (query : Query) :
    answerBy resolveLeaf (root.retext f) query =
      answerBy (fun leaf => resolveLeaf (leaf.retext f)) root query := by
  cases query with
  | get spec =>
    rw [answerBy, answerBy]
    simp only [valueAt_retext]
  | all => exact congrArg (some <$> ·) (complete_retext root)

end

-- ---------------------------------------------------------------------------
-- What a request leaves in the history
-- ---------------------------------------------------------------------------

/-- There are events for one of the locations. -/
def Noticed (locations : Location → Prop) (h : History) : Prop :=
  ∃ event ∈ h, locations event.1

theorem steady_noticed (locations : Location → Prop) (n : Nat) :
    Steady n fun s : Session (Placed σ) => Noticed locations s.history where
  recorded := by
    rintro s location p ⟨event, hEvent, hAt⟩
    exact ⟨event, List.mem_cons_of_mem _ hEvent, hAt⟩
  client _ _ h := h
  called _ _ _ _ _ h := h

theorem exists_event_of_progress {h : History} {location : Location}
    (hProgress : h.progress location ≠ .pending) : ∃ event ∈ h, event.1 = location := by
  induction h with
  | nil => exact absurd rfl hProgress
  | cons event earlier ih =>
    obtain ⟨other, p⟩ := event
    by_cases hSame : other = location
    · exact ⟨(other, p), List.mem_cons_self, hSame⟩
    · rw [progress_cons_of_ne hSame] at hProgress
      obtain ⟨event, hEvent, hAt⟩ := ih hProgress
      exact ⟨event, List.mem_cons_of_mem _ hEvent, hAt⟩

/-- A leaf that was requested has events. -/
theorem noticed_after_request (x : Eval (Session σ) Value) (trigger : Option Location)
    (leaf : Leaf) (s : Session σ) {locations : Location → Prop} (h : locations leaf.location) :
    Noticed locations ((request x trigger leaf).run s).2.history := by
  have hHere : ∀ {history : History}, (∃ event ∈ history, event.1 = leaf.location) →
      Noticed locations history := by
    rintro history ⟨event, hEvent, hAt⟩
    exact ⟨event, hEvent, hAt ▸ h⟩
  rcases run_request_cases x trigger leaf s with
    ⟨v, hResolved, hRun⟩ | ⟨other, hEvaluating, hRun⟩ | ⟨-, ⟨e, s', -, hRun⟩ | ⟨w, s', -, hRun⟩⟩
  · rw [hRun]
    refine hHere (exists_event_of_progress ?_)
    rw [hResolved]
    exact fun hNot => by cases hNot
  · rw [hRun]
    refine hHere (exists_event_of_progress ?_)
    rw [hEvaluating]
    exact fun hNot => by cases hNot
  · rw [hRun]
    exact hHere ⟨_, List.mem_cons_self, rfl⟩
  · rw [hRun]
    exact hHere ⟨_, List.mem_cons_self, rfl⟩

/-- No leaf with events is pending. -/
def NoneBack (h : History) : Prop := ∀ event ∈ h, h.progress event.1 ≠ .pending

theorem NoneBack.cons {h : History} (hNone : NoneBack h) {location : Location} {p : Progress}
    (hp : p ≠ .pending) : NoneBack ((location, p) :: h) := by
  intro event hEvent
  by_cases hSame : location = event.1
  · rw [hSame, progress_cons_self]
    exact hp
  · rw [progress_cons_of_ne hSame]
    rcases List.mem_cons.1 hEvent with rfl | hEvent
    · exact absurd rfl hSame
    · exact hNone event hEvent

theorem noneBack_kept : KeptUntilFailure NoneBack fun _ => True where
  weakens _ _ := trivial
  begins _ _ _ h _ := h.cons fun hNot => by cases hNot
  succeeds _ _ _ h := h.cons fun hNot => by cases hNot
  fails _ _ _ := trivial

/-- After a success on a new expansion, what was begun is not pending. -/
theorem noneBack_of_answer {x : Expansion σ} {query : Query} {c : σ} {a : Option Value}
    {s : Session σ} (h : (x.answer query).run (Session.start c) = (.ok a, s)) :
    NoneBack s.history := by
  have hEnd := leads_answer noneBack_kept x query (Session.start c)
    fun event hEvent => absurd hEvent List.not_mem_nil
  rw [h] at hEnd
  exact hEnd

-- ---------------------------------------------------------------------------
-- Side by side
-- ---------------------------------------------------------------------------

/-- A leaf of the draft stands at the location, and has another text. -/
def Changed (f : Leaf → Text) (root : Draft) (location : Location) : Prop :=
  ∃ leaf ∈ root.deferredLeaves, leaf.location = location ∧ f leaf ≠ leaf.raw

/-- Couples the expansion of a tree with that of the tree with other texts. Nothing is
claimed once a leaf with another text was evaluated. -/
abbrev untouched (σ : Type) (f : Leaf → Text) (root : Draft) :
    Coupling (Session (Placed σ)) (Session (Placed σ)) :=
  together (fun _ => True) (fun s => Noticed (Changed f root) s.history) False

section

variable {f : Leaf → Text} {root : Draft} {rules : ExpansionRules σ}

theorem sameHistory_untouched : (untouched σ f root).SameHistory :=
  sameHistory_together (steady_true 0) (steady_noticed _ 0)

/-- A leaf with another text: there is an event for it. -/
theorem coupled_of_changed {x y : Eval (Session (Placed σ)) Value} {trigger : Option Location}
    {leaf other : Leaf} (hChanged : Changed f root leaf.location)
    (hKeeps : (request x trigger leaf).Keeps fun s => Noticed (Changed f root) s.history) :
    Coupled (untouched σ f root) (request x trigger leaf) (request y trigger other) :=
  ⟨hKeeps, fun _ h => h, fun s _ _ => .inl (noticed_after_request x trigger leaf s hChanged)⟩

theorem coupled_retext (rules : ExpansionRules σ) (depth : Nat) :
    ∀ (trigger : Option Location), ∀ leaf ∈ root.deferredLeaves, Coupled (untouched σ f root)
      (resolveBy (placedChain rules) root depth trigger leaf)
      (resolveBy (placedChain rules) (root.retext f) depth trigger (leaf.retext f)) := by
  have hC : (untouched σ f root).SameHistory := sameHistory_untouched
  induction depth with
  | zero =>
    intro trigger leaf hLeaf
    by_cases hText : f leaf = leaf.raw
    · rw [Leaf.retext_of_eq hText]
      exact coupled_request hC (coupled_circular hC trigger leaf) trigger leaf
    · exact coupled_of_changed ⟨leaf, hLeaf, rfl, hText⟩
        (keeps_resolveBy (steady_noticed _) rules root 0 trigger leaf)
  | succ depth ih =>
    intro trigger leaf hLeaf
    by_cases hText : f leaf = leaf.raw
    · rw [Leaf.retext_of_eq hText]
      refine coupled_request hC ?_ trigger leaf
      refine (Coupled.ofExcept _).bind fun template => Template.coupled_eval ?_ template
      refine coupled_first_placedChain steady_true (steady_noticed _) rules (fun request => ?_) leaf
      -- the scope of the other tree, seen from this one
      rw [scope_retext]
      exact coupled_scope (coupled_valueAt_of_history hC.history (ih _)) request
    · exact coupled_of_changed ⟨leaf, hLeaf, rfl, hText⟩
        (keeps_resolveBy (steady_noticed _) rules root (depth + 1) trigger leaf)

theorem coupled_placedAnswer_retext (t : Value) (rules : ExpansionRules σ) (query : Query) :
    Coupled (untouched σ f (Draft.ofValue t)) ((ofValue t rules).placedAnswer query)
      ((ofValue (t.retext f) rules).placedAnswer query) := by
  have hRoot : (ofValue (t.retext f) rules).root = (Draft.ofValue t).retext f :=
    ofValue_retext f t
  rw [placedAnswer, placedAnswer, hRoot, deferredLeaves_retext, List.length_map, answerBy_retext]
  exact coupled_answerBy sameHistory_untouched.history (coupled_retext rules _ none) query

end

/-- **Leaves that were not needed do not matter.** If a call on a new expansion succeeds,
any other texts may stand, with any origins, in the place of those leaves that are still
pending after it: the same call on a new expansion of that tree gives the same value and
ends in the same session, and it has called the same resolvers, with the same requests, in
the same order. -/
theorem get_of_untouched {t : Value} {rules : ExpansionRules σ} {spec : String} {c : σ}
    {r : Option Value} {s : Session σ}
    (h : ((ofValue t rules).get spec).run (Session.start c) = (.ok r, s)) (f : Leaf → Text)
    (hUntouched : ∀ leaf ∈ (Draft.ofValue t).deferredLeaves,
      s.history.progress leaf.location ≠ .pending → f leaf = leaf.raw) :
    ((ofValue (t.retext f) rules).get spec).run (Session.start c) = (.ok r, s) ∧
      (ofValue (t.retext f) rules).placedCalls (.get spec) (Session.start c) =
        (ofValue t rules).placedCalls (.get spec) (Session.start c) := by
  have hAnswer : ((ofValue t rules).answer (.get spec)).run (Session.start c) = (.ok r, s) := h
  have hPlaced := run_placedAnswer (ofValue t rules) (.get spec) (Session.start c)
  rw [hAnswer] at hPlaced
  have hReached : ¬ Noticed (Changed f (Draft.ofValue t))
      (((ofValue t rules).placedAnswer (.get spec)).run ⟨[], (c, [])⟩).2.history := by
    rw [show ((ofValue t rules).placedAnswer (.get spec)).run ⟨[], (c, [])⟩ = _ from hPlaced]
    rintro ⟨event, hEvent, leaf, hLeaf, hAt, hText⟩
    refine hText (hUntouched leaf hLeaf ?_)
    rw [hAt]
    exact noneBack_of_answer hAnswer event hEvent
  obtain ⟨hSame, -⟩ := run_eq_of_together
    (coupled_placedAnswer_retext (f := f) t rules (.get spec)) trivial hReached False.elim
  obtain ⟨hAnswers, hCalls⟩ := answer_eq_of_placed (s := Session.start c) hSame
  exact ⟨hAnswers.symm.trans hAnswer, hCalls.symm⟩

/-- A text that loses to an earlier one, one that nobody refers to, and one that is needed. -/
def unneededTexts : Value :=
  .table [("a", .table [("x", Value.ofString "$\x7bd\x7d")]),
    ("b", .table [("x", Value.ofString "2"), ("y", .leaf (.bool true))]),
    ("c", Value.ofString "3"), ("d", Value.ofString "1")]

/-- The first one malformed, and the second one on a cycle. -/
def spoiled (leaf : Leaf) : Text :=
  if leaf.location = [.key "b", .key "x"] then ⟨"$\x7b", some "/etc"⟩
  else if leaf.location = [.key "c"] then ⟨"$\x7bc\x7d", none⟩
  else leaf.raw

/-- The text that loses takes part in the merge, and is dropped from it unread. -/
theorem get_of_untouched_in_merge :
    let run := ((ofValue unneededTexts .treeOnly).get "(a|b)").run (Session.start ())
    run.1 = .ok (some (.table [("x", Value.ofString "1"), ("y", .leaf (.bool true))])) ∧
      ((ofValue (unneededTexts.retext spoiled) .treeOnly).get "(a|b)").run (Session.start ()) =
        run := by
  intro run
  have hRun : run = (.ok (some (.table [("x", Value.ofString "1"), ("y", .leaf (.bool true))])),
    run.2) := Prod.ext (by rfl) rfl
  have hLeaves : (Draft.ofValue unneededTexts).deferredLeaves =
      [⟨[.key "a", .key "x"], Text.plain "$\x7bd\x7d"⟩, ⟨[.key "b", .key "x"], Text.plain "2"⟩,
        ⟨[.key "c"], Text.plain "3"⟩, ⟨[.key "d"], Text.plain "1"⟩] := by rfl
  have hPending : run.2.history.progress [.key "b", .key "x"] = .pending ∧
      run.2.history.progress [.key "c"] = .pending := ⟨by rfl, by rfl⟩
  obtain ⟨hSame, -⟩ := get_of_untouched hRun spoiled fun leaf hLeaf hNeeded => by
    rw [hLeaves] at hLeaf
    simp only [List.mem_cons, List.not_mem_nil, or_false] at hLeaf
    rcases hLeaf with rfl | rfl | rfl | rfl
    · rfl
    · exact absurd hPending.1 hNeeded
    · exact absurd hPending.2 hNeeded
    · rfl
  exact ⟨congrArg Prod.fst hRun, hSame.trans hRun.symm⟩

end Expansion

end LayeredConfig
