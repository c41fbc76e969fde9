import LayeredConfig.Proofs.Looks
import LayeredConfig.Proofs.Views

/-!
# LayeredConfig — expansions that do not look at origins

Two expansions run side by side, on trees that differ in origins only. As long as what they
ask gives answers that differ in origins only, so do their histories, the drafts that they
merge, the requests that they make and the values that they give.

Results of the first expansion are looked at without their origins, those of the second by
any view.

* `View.valueLook`, `View.draftLook` — how results are looked at.
* `Resolver.Alike`            — resolvers whose answers look the same.
* `Template.alike_interpolate` — interpolation with such resolvers.
* `Expansion.alike_valueAt`   — lookups in drafts that look the same.
* `Expansion.alike_request`   — requests for leaves that look the same.
* `Expansion.alike_resolveBy` — resolving with chains of such resolvers.
-/

namespace LayeredConfig

open Eval

namespace View

variable (W : View)

def scalarLook : Look Scalar Scalar :=
  ⟨blind.scalar, W.scalar, fun s => ⟨blind.scalar s, (scalar_bare s).symm⟩⟩

def cellLook : Look Cell Cell :=
  ⟨blind.cell, W.cell, fun c => ⟨blind.cell c, (cell_bare c).symm⟩⟩

def fragmentLook : Look Fragment Fragment :=
  ⟨blind.fragment, W.fragment, fun f => ⟨blind.fragment f, (fragment_bare f).symm⟩⟩

def historyLook : Look History History :=
  ⟨blind.history, W.history, fun h => ⟨blind.history h, (history_bare h).symm⟩⟩

/-- Values, the first ones without their origins. -/
def valueLook : Look Value Value := W.scalarLook.tree

/-- Drafts, the first ones without their origins. -/
def draftLook : Look Draft Draft := W.cellLook.tree

end View

open View (blind)

variable {W : View}

/-- Asked for what looks the same, the resolvers give answers that look the same. -/
def Resolver.Alike (C : Coupling σ τ) (W : View) (r : Resolver σ) (other : Resolver τ) : Prop :=
  ∀ request request', blind.request request = W.request request' →
    CoupledBy C W.valueLook.option (r request) (other request')

-- ---------------------------------------------------------------------------
-- Templates
-- ---------------------------------------------------------------------------

section

variable {C : Coupling σ τ} (hC : C.OneSided)

include hC

theorem Resolver.alike_first {chain : List (Resolver σ)} {other : List (Resolver τ)}
    (h : List.Forall₂ (Alike C W) chain other) : Alike C W (first chain) (first other) := by
  intro request request' hRequest
  induction h with
  | nil => exact CoupledBy.pure rfl
  | cons hHead _ ih =>
    refine (hHead request request' hRequest).bind hC fun found found' hFound => ?_
    cases found with
    | none =>
      cases found' with
      | none => exact ih
      | some v => cases hFound
    | some v =>
      cases found' with
      | none => cases hFound
      | some w => exact CoupledBy.pure hFound

namespace Template

variable {ask : Resolver σ} {otherAsk : Resolver τ} {subject otherSubject : Option Text}

omit hC in
/-- Fragments that look the same make requests that do. -/
theorem request_same (hSubject : subject.map blind.text = otherSubject.map W.text)
    {fragments others : List Fragment} (h : W.fragmentLook.list.Same fragments others) :
    blind.request (.ofFragments fragments subject) =
      W.request (.ofFragments others otherSubject) := by
  have hFragments : fragments.map blind.fragment = others.map W.fragment := h
  rw [View.request_ofFragments, View.request_ofFragments, hFragments, hSubject]

mutual

theorem alike_evalPiece (h : Resolver.Alike C W ask otherAsk)
    (hSubject : subject.map blind.text = otherSubject.map W.text) :
    ∀ piece : Piece, CoupledBy C W.fragmentLook (evalPiece ask subject piece)
      (evalPiece otherAsk otherSubject piece)
  | .text _ => CoupledBy.pure rfl
  | .colon => CoupledBy.pure rfl
  | .lookup body =>
    (alike_evalPieces h hSubject body).bind hC fun _ _ hFragments =>
      (h _ _ (request_same hSubject hFragments)).bind hC fun _ _ hFound =>
        CoupledBy.pure (congrArg Fragment.value hFound)

theorem alike_evalPieces (h : Resolver.Alike C W ask otherAsk)
    (hSubject : subject.map blind.text = otherSubject.map W.text) :
    ∀ body : List Piece, CoupledBy C W.fragmentLook.list (evalPieces ask subject body)
      (evalPieces otherAsk otherSubject body)
  | [] => CoupledBy.pure rfl
  | piece :: rest =>
    (alike_evalPiece h hSubject piece).bind hC fun _ _ hFirst =>
      (alike_evalPieces h hSubject rest).bind hC fun _ _ hRest =>
        CoupledBy.pure (congrArg₂ List.cons hFirst hRest)

end

theorem alike_lookup (h : Resolver.Alike C W ask otherAsk)
    (hSubject : subject.map blind.text = otherSubject.map W.text) (body : List Piece) :
    CoupledBy C W.valueLook.option (lookup ask subject body) (lookup otherAsk otherSubject body) :=
  (alike_evalPieces hC h hSubject body).bind hC fun _ _ hFragments =>
    h _ _ (request_same hSubject hFragments)

/-- Texts do not show origins, so these are the same. -/
theorem coupled_evalPart_of_alike (h : Resolver.Alike C W ask otherAsk)
    (hSubject : subject.map blind.text = otherSubject.map W.text) (part : Part) :
    Coupled C (evalPart ask subject part) (evalPart otherAsk otherSubject part) := by
  cases part with
  | literal chars => exact Coupled.pure _
  | reference body =>
    refine CoupledBy.of_exact ?_
    refine (alike_lookup hC h hSubject body).bind hC fun found other hFound => ?_
    have hText : (found.map blind.value).map Value.render = (other.map W.value).map Value.render :=
      congrArg (Option.map Value.render) hFound
    simp only [Option.map_map, Function.comp_def, View.render_value] at hText
    rw [hText]
    exact (Coupled.pure _).by_exact

theorem coupled_evalParts_of_alike (h : Resolver.Alike C W ask otherAsk)
    (hSubject : subject.map blind.text = otherSubject.map W.text) (parts : Template) :
    Coupled C (evalParts ask subject parts) (evalParts otherAsk otherSubject parts) := by
  induction parts with
  | nil => exact Coupled.pure []
  | cons part rest ih =>
    exact (coupled_evalPart_of_alike hC h hSubject part).bind fun text =>
      ih.bind fun texts => Coupled.pure (text :: texts)

omit hC in
theorem value_ofString_same (s : String) :
    W.valueLook.Same (Value.ofString s) (Value.ofString s) :=
  (View.value_ofString s).trans (View.value_ofString s).symm

theorem alike_eval (h : Resolver.Alike C W ask otherAsk)
    (hSubject : subject.map blind.text = otherSubject.map W.text) (parts : Template) :
    CoupledBy C W.valueLook (eval ask subject parts) (eval otherAsk otherSubject parts) := by
  rw [eval.eq_def, eval.eq_def]
  split
  · rename_i body
    refine (alike_lookup hC h hSubject body).bind hC fun found other hFound => ?_
    refine CoupledBy.pure ?_
    cases found with
    | none =>
      cases other with
      | none => exact value_ofString_same ""
      | some w => cases hFound
    | some v =>
      cases other with
      | none => cases hFound
      | some w => exact Option.some.inj hFound
  · refine (coupled_evalParts_of_alike hC h hSubject parts).by_exact.bind hC ?_
    rintro texts _ rfl
    exact CoupledBy.pure (value_ofString_same _)

theorem alike_interpolate {resolvers : List (Resolver σ)} {others : List (Resolver τ)}
    (h : Resolver.Alike C W (Resolver.first resolvers) (Resolver.first others))
    (hSubject : subject.map blind.text = otherSubject.map W.text) (text : String) :
    CoupledBy C W.valueLook (interpolate resolvers subject text)
      (interpolate others otherSubject text) := by
  refine (Coupled.ofExcept (parse text)).by_exact.bind hC ?_
  rintro template _ rfl
  exact alike_eval hC h hSubject template

end Template

end

-- ---------------------------------------------------------------------------
-- Lookups
-- ---------------------------------------------------------------------------

/-- Related sessions have histories that look the same, and events that look the same
change nothing about what the coupling claims. -/
structure Coupling.SeenHistory (C : Coupling (Session σ) (Session τ)) (W : View) : Prop where
  oneSided : C.OneSided
  history : ∀ s t, C.related s t → blind.history s.history = W.history t.history
  record : ∀ s t location p q, C.related s t → blind.progress p = W.progress q →
    C.related (s.recorded location p) (t.recorded location q)
  leftVoid : ∀ s location p, C.leftVoid s → C.leftVoid (s.recorded location p)

namespace Expansion

open Draft

/-- Leaves that look the same are resolved to values that do. -/
def LeavesAlike (C : Coupling (Session σ) (Session τ)) (W : View) (resolveLeaf : LeafResolver σ)
    (otherLeaf : LeafResolver τ) : Prop :=
  ∀ leaf other, blind.leaf leaf = W.leaf other →
    CoupledBy C W.valueLook (resolveLeaf leaf) (otherLeaf other)

section

variable {C : Coupling (Session σ) (Session τ)} {resolveLeaf : LeafResolver σ}
  {otherLeaf : LeafResolver τ} {root otherRoot : Draft}

theorem alike_follow (hC : C.OneSided) (h : LeavesAlike C W resolveLeaf otherLeaf)
    (path : KeyPath) : ∀ d e : Draft, W.draftLook.Same d e →
      CoupledBy C W.draftLook.option (follow resolveLeaf path d) (follow otherLeaf path e) := by
  induction path with
  | nil => exact fun d e hSame => CoupledBy.pure (congrArg some hSame)
  | cons segment rest ih =>
    intro d e hSame
    by_cases hDeferred : ∃ leaf, d = .leaf (.deferred leaf)
    · obtain ⟨leaf, rfl⟩ := hDeferred
      obtain ⟨other, rfl, hLeaf⟩ := View.exists_of_draft_deferred hSame
      rw [follow_deferred, follow_deferred]
      refine (h leaf other hLeaf).map hC fun v w hv => ?_
      refine (View.draft_follow?_known v _).trans (.trans ?_ (View.draft_follow?_known w _).symm)
      exact congrArg (fun u => (Tree.follow? u (segment :: rest)).map known) hv
    · have hLeft : ∀ leaf, d ≠ .leaf (.deferred leaf) := fun leaf hd => hDeferred ⟨leaf, hd⟩
      have hRight : ∀ leaf, e ≠ .leaf (.deferred leaf) := by
        rintro other rfl
        obtain ⟨leaf, hd, -⟩ := View.exists_of_draft_deferred hSame.symm
        exact hLeft leaf hd
      have hChild : (d.child? segment).map blind.draft = (e.child? segment).map W.draft := by
        rw [← View.child?_draft, ← View.child?_draft]
        exact congrArg (fun t => Tree.child? t segment) hSame
      rw [follow_of_child? hLeft, follow_of_child? hRight]
      cases hd : d.child? segment with
      | none =>
        cases he : e.child? segment with
        | none => exact CoupledBy.pure rfl
        | some other =>
          rw [hd, he] at hChild
          cases hChild
      | some below =>
        cases he : e.child? segment with
        | none =>
          rw [hd, he] at hChild
          cases hChild
        | some other =>
          rw [hd, he] at hChild
          exact ih below other (Option.some.inj hChild)

theorem alike_find (hC : C.OneSided) (h : LeavesAlike C W resolveLeaf otherLeaf)
    (hRoot : W.draftLook.Same root otherRoot) (path : KeyPath) :
    CoupledBy C W.draftLook.option (find resolveLeaf root path)
      (find otherLeaf otherRoot path) := by
  rw [find, find]
  split
  · exact CoupledBy.pure rfl
  · exact alike_follow hC h path root otherRoot hRoot

theorem alike_complete (hC : C.OneSided) (h : LeavesAlike C W resolveLeaf otherLeaf) {d e : Draft}
    (hSame : W.draftLook.Same d e) :
    CoupledBy C W.valueLook (complete resolveLeaf d) (complete otherLeaf e) := by
  refine Tree.coupledBy_graftM hC (fun c other hCell => ?_) d e hSame
  cases c with
  | known s =>
    cases other with
    | known s' => exact CoupledBy.pure (congrArg Tree.leaf (Cell.known.inj hCell))
    | deferred leaf => cases hCell
  | deferred leaf =>
    cases other with
    | known s' => cases hCell
    | deferred leaf' => exact h leaf leaf' (Cell.deferred.inj hCell)

theorem alike_currentHistory (hC : C.SeenHistory W) :
    CoupledBy C W.historyLook (Session.currentHistory (σ := σ))
      (Session.currentHistory (σ := τ)) := by
  refine CoupledBy.of_run hC.oneSided (Keeps.of_unchanged fun _ => rfl) fun s t hst => .inr ?_
  rw [Session.run_currentHistory, Session.run_currentHistory]
  exact ⟨congrArg Except.ok (hC.history s t hst), hst⟩

theorem alike_mergeFound (hC : C.SeenHistory W) (h : LeavesAlike C W resolveLeaf otherLeaf)
    {found others : List (Option Draft)} (hFound : W.draftLook.option.list.Same found others) :
    CoupledBy C W.valueLook.option (mergeFound resolveLeaf found)
      (mergeFound otherLeaf others) := by
  refine (alike_currentHistory hC).bind hC.oneSided fun history other hHistory => ?_
  -- what is merged looks the same, so the drafts merged do
  have hSettle : ∀ (V : View) (history : History) (drafts : List (Option Draft)),
      (Tree.merge (drafts.map (Option.map (settle history.leafValue?)))).map V.draft =
        Tree.merge ((drafts.map (Option.map V.draft)).map
          (Option.map (settle (V.history history).leafValue?))) := by
    intro V history drafts
    refine (Tree.merge_map V.cell _).symm.trans (congrArg Tree.merge ?_)
    rw [List.map_map, List.map_map]
    refine List.map_congr_left fun d _ => ?_
    cases d with
    | none => rfl
    | some d => exact congrArg some (View.draft_settle history d)
  have hMerge : (Tree.merge (found.map (Option.map (settle history.leafValue?)))).map blind.draft =
      (Tree.merge (others.map (Option.map (settle other.leafValue?)))).map W.draft := by
    rw [hSettle blind, hSettle W, show blind.history history = W.history other from hHistory,
      show found.map (Option.map blind.draft) = others.map (Option.map W.draft) from hFound]
  cases hLeft : Tree.merge (found.map (Option.map (settle history.leafValue?))) with
  | none =>
    cases hRight : Tree.merge (others.map (Option.map (settle other.leafValue?))) with
    | none => exact CoupledBy.pure rfl
    | some e =>
      rw [hLeft, hRight] at hMerge
      cases hMerge
  | some d =>
    cases hRight : Tree.merge (others.map (Option.map (settle other.leafValue?))) with
    | none =>
      rw [hLeft, hRight] at hMerge
      cases hMerge
    | some e =>
      rw [hLeft, hRight] at hMerge
      exact (alike_complete hC.oneSided h (Option.some.inj hMerge)).map hC.oneSided
        fun v w hv => congrArg some hv

theorem alike_valueAt (hC : C.SeenHistory W) (h : LeavesAlike C W resolveLeaf otherLeaf)
    (hRoot : W.draftLook.Same root otherRoot) (pattern : Pattern) :
    CoupledBy C W.valueLook.option (valueAt resolveLeaf root pattern)
      (valueAt otherLeaf otherRoot pattern) := by
  have hWalk : CoupledBy C W.draftLook.option.list (walk resolveLeaf root pattern)
      (walk otherLeaf otherRoot pattern) := by
    rw [walk, walk, Pattern.mapPaths_eq_mapM, Pattern.mapPaths_eq_mapM]
    exact CoupledBy.mapM hC.oneSided fun path _ => alike_find hC.oneSided h hRoot path
  rw [valueAt_eq, valueAt_eq]
  exact hWalk.bind hC.oneSided fun found others hFound => alike_mergeFound hC h hFound

theorem alike_scope (hC : C.SeenHistory W) (h : LeavesAlike C W resolveLeaf otherLeaf)
    (hRoot : W.draftLook.Same root otherRoot) :
    Resolver.Alike C W (scope resolveLeaf root) (scope otherLeaf otherRoot) := by
  intro request request' hRequest
  have hExpression : request.expression = request'.expression := (Request.mk.inj hRequest).1
  have hCall : request.call.isSome = request'.call.isSome := by
    have hSeen := congrArg (fun r => r.call.isSome) hRequest
    simpa only [View.request, Option.isSome_map] using hSeen
  rw [scope, scope, hCall, hExpression]
  split
  · exact CoupledBy.pure rfl
  · cases Pattern.parse request'.expression with
    | error reason => exact CoupledBy.pure rfl
    | ok pattern => exact alike_valueAt hC h hRoot pattern

-- ---------------------------------------------------------------------------
-- Requests for leaves
-- ---------------------------------------------------------------------------

/-- Where nothing shows but texts, the traces of cycles are the same. -/
theorem cycleTrace_same (hC : C.SeenHistory W) {s : Session σ} {t : Session τ}
    (hst : C.related s t) (trigger : Option Location) (location : Location) :
    s.history.cycleTrace trigger location = t.history.cycleTrace trigger location := by
  rw [← blind.cycleTrace_history, hC.history s t hst, W.cycleTrace_history]

theorem alike_circular (hC : C.SeenHistory W) (trigger : Option Location) {leaf other : Leaf}
    (hLocation : leaf.location = other.location) :
    CoupledBy C W.valueLook (circular trigger leaf) (circular trigger other) := by
  refine CoupledBy.of_run hC.oneSided (keeps_circular _ trigger leaf) fun s t hst => .inr ?_
  rw [run_circular, run_circular, cycleTrace_same hC hst, hLocation]
  exact ⟨rfl, hst⟩

theorem alike_request (hC : C.SeenHistory W) {x : Eval (Session σ) Value}
    {y : Eval (Session τ) Value} (h : CoupledBy C W.valueLook x y) (trigger : Option Location)
    {leaf other : Leaf} (hLeaf : blind.leaf leaf = W.leaf other) :
    CoupledBy C W.valueLook (request x trigger leaf) (request y trigger other) := by
  have hLocation : leaf.location = other.location := (Leaf.mk.inj hLeaf).1
  refine CoupledBy.of_run hC.oneSided (keeps_request_of_recorded hC.leftVoid fun s hs =>
    h.keeps _ (hC.leftVoid s _ _ hs)) fun s t hst => ?_
  have hProgress : blind.progress (s.history.progress leaf.location) =
      W.progress (t.history.progress other.location) := by
    rw [← View.progress_history, ← View.progress_history, hC.history s t hst, hLocation]
  cases hLeft : s.history.progress leaf.location with
  | resolved v =>
    cases hRight : t.history.progress other.location with
    | resolved w =>
      rw [hLeft, hRight] at hProgress
      rw [run_request_of_resolved hLeft, run_request_of_resolved hRight]
      exact .inr ⟨congrArg Except.ok (Progress.resolved.inj hProgress), hst⟩
    | evaluating _ => rw [hLeft, hRight] at hProgress; cases hProgress
    | pending => rw [hLeft, hRight] at hProgress; cases hProgress
  | evaluating requester =>
    cases hRight : t.history.progress other.location with
    | resolved _ => rw [hLeft, hRight] at hProgress; cases hProgress
    | evaluating _ =>
      rw [run_request_of_evaluating hLeft, run_request_of_evaluating hRight]
      rw [run_circular, run_circular, cycleTrace_same hC hst, hLocation]
      exact .inr ⟨rfl, hst⟩
    | pending => rw [hLeft, hRight] at hProgress; cases hProgress
  | pending =>
    cases hRight : t.history.progress other.location with
    | resolved _ => rw [hLeft, hRight] at hProgress; cases hProgress
    | evaluating _ => rw [hLeft, hRight] at hProgress; cases hProgress
    | pending =>
      rw [run_request_of_pending hLeft, run_request_of_pending hRight]
      have hStart : C.related (begun s trigger leaf) (begun t trigger other) := by
        rw [begun, begun, hLocation]
        exact hC.record s t _ _ _ hst rfl
      have hBody := h.run_cases hC.oneSided hStart
      rcases hx : x.run (begun s trigger leaf) with ⟨r, s'⟩
      rcases hy : y.run (begun t trigger other) with ⟨r', t'⟩
      rw [hx, hy] at hBody
      rcases hBody with hVoid | ⟨hSame, hRel⟩
      · left
        cases r with
        | error e => rw [run_evaluate_of_error hx]; exact hC.leftVoid s' _ _ hVoid
        | ok v => rw [run_evaluate_of_ok hx]; exact hC.leftVoid s' _ _ hVoid
      · right
        cases r with
        | error e =>
          cases r' with
          | ok w => cases hSame
          | error e' =>
            cases hSame
            rw [run_evaluate_of_error hx, run_evaluate_of_error hy, hLocation]
            exact ⟨rfl, hC.record s' t' _ _ _ hRel rfl⟩
        | ok v =>
          cases r' with
          | error e => cases hSame
          | ok w =>
            have hValue : blind.value (withOriginOf leaf v) = W.value (withOriginOf other w) := by
              rw [View.value_withOriginOf, View.value_withOriginOf, hLeaf]
              exact congrArg _ (Except.ok.inj hSame)
            rw [run_evaluate_of_ok hx, run_evaluate_of_ok hy, hLocation]
            exact ⟨congrArg Except.ok hValue,
              hC.record s' t' _ _ _ hRel (congrArg Progress.resolved hValue)⟩

-- ---------------------------------------------------------------------------
-- Resolving
-- ---------------------------------------------------------------------------

/-- With chains of such resolvers, leaves that look the same are resolved to values that do. -/
theorem alike_resolveBy (hC : C.SeenHistory W) {chains : Chains σ} {others : Chains τ}
    (hRoot : W.draftLook.Same root otherRoot)
    (h : ∀ {scope : Resolver (Session σ)} {otherScope : Resolver (Session τ)},
      Resolver.Alike C W scope otherScope → ∀ leaf other, blind.leaf leaf = W.leaf other →
        Resolver.Alike C W (Resolver.first (chains scope leaf))
          (Resolver.first (others otherScope other))) (depth : Nat) :
    ∀ trigger : Option Location, LeavesAlike C W (resolveBy chains root depth trigger)
      (resolveBy others otherRoot depth trigger) := by
  induction depth with
  | zero =>
    exact fun trigger leaf other hLeaf =>
      alike_request hC (alike_circular hC trigger (Leaf.mk.inj hLeaf).1) trigger hLeaf
  | succ depth ih =>
    intro trigger leaf other hLeaf
    obtain ⟨hLocation, hRaw⟩ := Leaf.mk.inj hLeaf
    have hText : leaf.raw.text = other.raw.text := (Text.mk.inj hRaw).1
    have hSubject : (some leaf.raw).map blind.text = (some other.raw).map W.text :=
      congrArg some hRaw
    simp only [resolveBy, hText, hLocation]
    refine alike_request hC ?_ trigger hLeaf
    refine Template.alike_interpolate hC.oneSided ?_ hSubject _
    exact h (alike_scope hC (ih _) hRoot) leaf other hLeaf

end

end Expansion

end LayeredConfig
