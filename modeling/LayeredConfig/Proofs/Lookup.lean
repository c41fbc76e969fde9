import LayeredConfig.Expansion.Resolution
import LayeredConfig.Proofs.Draft
import LayeredConfig.Proofs.Session

/-!
# LayeredConfig — laws of looking into a draft

What a lookup finds is tied to the tree as it is in the end. If a leaf resolver
keeps what is recorded and records what it gives (`Expansion.Faithful`), then

* a value completed from a draft is the draft settled (`complete_settled`);
* what a path leads to, settled, is what the path leads to in the settled draft
  (`find_settled`), also where the way went through leaves;
* a pattern gives the merge of what its paths lead to, where the leaves resolved
  by the time of merging take part by their values and the others as
  indivisible leaves (`valueAt_settled`).

The settling may be by any later history, so in the end by the one that has the
values of all leaves.
-/

namespace LayeredConfig

open Eval History

-- ---------------------------------------------------------------------------
-- Traversal
-- ---------------------------------------------------------------------------

namespace Tree

theorem coupled_graftM {C : Coupling σ τ} {f : α → Eval σ (Tree β)} {g : α → Eval τ (Tree β)}
    {t : Tree α} (h : ∀ c ∈ t.leaves, Coupled C (f c) (g c)) :
    Coupled C (t.graftM f) (t.graftM g) := by
  induction t using Tree.induction with
  | leaf a => exact h a (mem_leaves_leaf.2 rfl)
  | seq items ih =>
    rw [graftM_seq, graftM_seq]
    refine (Coupled.mapM fun t ht => ?_).map _
    exact ih t ht fun c hc => h c (mem_leaves_seq.2 ⟨t, ht, hc⟩)
  | table entries ih =>
    rw [graftM_table, graftM_table]
    refine (Coupled.mapM fun entry he => Coupled.map ?_ _).map _
    exact ih entry he fun c hc => h c (mem_leaves_table.2 ⟨entry, he, hc⟩)

theorem keeps_graftM {I : σ → Prop} {f : α → Eval σ (Tree β)} {t : Tree α}
    (h : ∀ c ∈ t.leaves, (f c).Keeps I) : (t.graftM f).Keeps I :=
  keeps_iff_coupled.2 (coupled_graftM fun c hc => keeps_iff_coupled.1 (h c hc))

end Tree

namespace Draft

theorem mem_deferredLeaves_leaf (leaf : Leaf) :
    leaf ∈ deferredLeaves (.leaf (.deferred leaf)) :=
  mem_deferredLeaves.2 (Tree.mem_leaves_leaf.2 rfl)

theorem child?_settle {value? : Leaf → Option Value} {d : Draft}
    (h : ∀ leaf, d ≠ .leaf (.deferred leaf)) (segment : String) :
    (settle value? d).child? segment = (d.child? segment).map (settle value?) := by
  cases d with
  | leaf cell =>
    cases cell with
    | known s => rfl
    | deferred leaf => exact absurd rfl (h leaf)
  | seq items =>
    rw [settle, Tree.graft_seq, Tree.child?, Tree.child?]
    cases index? segment with
    | none => rfl
    | some i => exact List.getElem?_map
  | table entries =>
    rw [settle, Tree.graft_table]
    exact Fields.get?_map (settle value?) entries segment

end Draft

namespace Expansion

open Draft

-- ---------------------------------------------------------------------------
-- Leaf resolvers
-- ---------------------------------------------------------------------------

/-- For the leaves of a draft: keeps what is recorded, and records what it
gives. -/
structure Faithful (resolveLeaf : LeafResolver σ) (d : Draft) : Prop where
  grows : ∀ leaf ∈ d.deferredLeaves, ∀ earlier : History,
    (resolveLeaf leaf).Keeps (fun s => earlier.Precedes s.history)
  records : ∀ leaf ∈ d.deferredLeaves, ∀ s v s', (resolveLeaf leaf).run s = (.ok v, s') →
    s'.history.leafValue? leaf = some v

/-- Gives the value that is recorded, where one is, and does nothing else. -/
def Recalls (resolveLeaf : LeafResolver σ) : Prop :=
  ∀ leaf s v, s.history.leafValue? leaf = some v → (resolveLeaf leaf).run s = (.ok v, s)

section

variable {resolveLeaf : LeafResolver σ} {d root : Draft}

theorem Faithful.mono (h : Faithful resolveLeaf root)
    (hIn : ∀ leaf ∈ d.deferredLeaves, leaf ∈ root.deferredLeaves) : Faithful resolveLeaf d :=
  ⟨fun leaf hLeaf => h.grows leaf (hIn leaf hLeaf),
    fun leaf hLeaf => h.records leaf (hIn leaf hLeaf)⟩

-- ---------------------------------------------------------------------------
-- Completing
-- ---------------------------------------------------------------------------

theorem keeps_completeCell {I : Session σ → Prop}
    (h : ∀ leaf ∈ d.deferredLeaves, (resolveLeaf leaf).Keeps I) :
    ∀ cell ∈ d.leaves, (completeCell resolveLeaf cell).Keeps I := by
  intro cell hCell
  cases cell with
  | known s => exact Keeps.pure (Tree.leaf s)
  | deferred leaf => exact h leaf (mem_deferredLeaves.2 hCell)

theorem keeps_complete {I : Session σ → Prop}
    (h : ∀ leaf ∈ d.deferredLeaves, (resolveLeaf leaf).Keeps I) :
    (complete resolveLeaf d).Keeps I :=
  Tree.keeps_graftM (keeps_completeCell h)

theorem complete_known (v : Value) : complete resolveLeaf (known v) = pure v := by
  have hMap : known v = Tree.graft (fun s => Tree.leaf (Cell.known s)) v :=
    (Tree.graft_leaf _ v).symm
  rw [complete, hMap, Tree.graftM_graft]
  exact Tree.graftM_pure v

/-- A completed value is the draft with all leaves settled. -/
theorem complete_settled (h : Faithful resolveLeaf d) {s s' : Session σ} {v : Value}
    (hRun : (complete resolveLeaf d).run s = (.ok v, s')) :
    ∀ later : History, s'.history.Precedes later → settle later.leafValue? d = known v := by
  have hGrows : ∀ {e : Draft}, Faithful resolveLeaf e → ∀ earlier : History,
      (complete resolveLeaf e).Keeps (fun s => earlier.Precedes s.history) :=
    fun he earlier => keeps_complete fun leaf hLeaf => he.grows leaf hLeaf earlier
  induction d using Tree.induction generalizing s s' v with
  | leaf cell =>
    intro later hLater
    cases cell with
    | known scalar =>
      cases hRun
      rfl
    | deferred leaf =>
      have hRecorded := h.records leaf (mem_deferredLeaves_leaf leaf) s v s' hRun
      exact settleCell_of_some (hLater.leafValue leaf v hRecorded)
  | seq items ih =>
    have hItem : ∀ t ∈ items, Faithful resolveLeaf t := fun t ht => h.mono fun leaf hLeaf =>
      mem_deferredLeaves.2 (Tree.mem_leaves_seq.2 ⟨t, ht, mem_deferredLeaves.1 hLeaf⟩)
    rw [complete, Tree.graftM_seq, run_map_eq_ok] at hRun
    obtain ⟨vs, hItems, rfl⟩ := hRun
    -- each item is completed for good: what the later ones do keeps its values
    have hSettled : List.Forall₂ (fun t w => ∀ later : History, s'.history.Precedes later →
        settle later.leafValue? t = known w) items vs := by
      refine forall₂_of_mapM (P := fun t w s => ∀ later : History, s.history.Precedes later →
        settle later.leafValue? t = known w) ?_ ?_ hItems
      · exact fun t ht s w s' hRun => ih t ht (hItem t ht) hRun
      · exact fun t w u hu s hw later hLater =>
          hw later ((Session.precedes_of_keeps (hGrows (hItem u hu)) rfl).trans hLater)
    intro later hLater
    rw [settle, Tree.graft_seq, known, Tree.map_seq]
    exact congrArg Tree.seq (map_eq_map_of_forall₂ (hSettled.imp fun t w hw => hw later hLater))
  | table entries ih =>
    have hEntry : ∀ entry ∈ entries, Faithful resolveLeaf entry.2 := fun entry he =>
      h.mono fun leaf hLeaf => mem_deferredLeaves.2
        (Tree.mem_leaves_table.2 ⟨entry, he, mem_deferredLeaves.1 hLeaf⟩)
    rw [complete, Tree.graftM_table, run_map_eq_ok] at hRun
    obtain ⟨pairs, hEntries, rfl⟩ := hRun
    have hSettled : List.Forall₂ (fun entry pair => ∀ later : History, s'.history.Precedes later →
        (entry.1, settle later.leafValue? entry.2) = (pair.1, known pair.2)) entries pairs := by
      refine forall₂_of_mapM (P := fun entry pair s => ∀ later : History,
        s.history.Precedes later →
          (entry.1, settle later.leafValue? entry.2) = (pair.1, known pair.2)) ?_ ?_ hEntries
      · intro entry he s pair s' hRun later hLater
        obtain ⟨w, hw, rfl⟩ := run_map_eq_ok.1 hRun
        rw [ih entry he (hEntry entry he) hw later hLater]
      · exact fun entry pair other ho s hPair later hLater => hPair later
          ((Session.precedes_of_keeps (fun earlier => (hGrows (hEntry other ho) earlier).map _)
            rfl).trans hLater)
    intro later hLater
    rw [settle, Tree.graft_table, known, Tree.map_table]
    exact congrArg Tree.table
      (map_eq_map_of_forall₂ (hSettled.imp fun entry pair hPair => hPair later hLater))

-- ---------------------------------------------------------------------------
-- Following a path
-- ---------------------------------------------------------------------------

theorem follow_deferred (segment : String) (rest : KeyPath) (leaf : Leaf) :
    follow resolveLeaf (segment :: rest) (.leaf (.deferred leaf)) =
      (fun v => (Tree.follow? v (segment :: rest)).map known) <$> resolveLeaf leaf := by
  rw [map_eq_pure_bind]
  rfl

theorem follow_of_child? (h : ∀ leaf, d ≠ .leaf (.deferred leaf)) (segment : String)
    (rest : KeyPath) :
    follow resolveLeaf (segment :: rest) d =
      match d.child? segment with
      | none => pure none
      | some below => follow resolveLeaf rest below := by
  cases d with
  | leaf cell =>
    cases cell with
    | known s => rfl
    | deferred leaf => exact absurd rfl (h leaf)
  | seq items => rfl
  | table entries => rfl

theorem mem_deferredLeaves_of_child? {below : Draft} {segment : String}
    (h : d.child? segment = some below) :
    ∀ leaf ∈ below.deferredLeaves, leaf ∈ d.deferredLeaves := fun _ hLeaf =>
  mem_deferredLeaves.2 (Tree.mem_leaves_of_child? h (mem_deferredLeaves.1 hLeaf))

theorem coupled_follow {C : Coupling (Session σ) (Session τ)} {otherLeaf : LeafResolver τ}
    {path : KeyPath}
    (h : ∀ leaf ∈ d.deferredLeaves, Coupled C (resolveLeaf leaf) (otherLeaf leaf)) :
    Coupled C (follow resolveLeaf path d) (follow otherLeaf path d) := by
  induction path, d using follow.induct with
  | case1 d => exact Coupled.pure (some d)
  | case2 segment rest leaf =>
    rw [follow_deferred, follow_deferred]
    exact (h leaf (mem_deferredLeaves_leaf leaf)).map _
  | case3 segment rest d hNot hChild =>
    rw [follow_of_child? hNot, follow_of_child? hNot, hChild]
    exact Coupled.pure none
  | case4 segment rest d hNot below hChild ih =>
    rw [follow_of_child? hNot, follow_of_child? hNot, hChild]
    exact ih fun leaf hLeaf => h leaf (mem_deferredLeaves_of_child? hChild leaf hLeaf)

/-- What a path leads to, settled, is what it leads to in the settled draft. -/
theorem follow_settled {path : KeyPath} (h : Faithful resolveLeaf d) {s s' : Session σ}
    {found : Option Draft} (hRun : (follow resolveLeaf path d).run s = (.ok found, s')) :
    ∀ later : History, s'.history.Precedes later →
      found.map (settle later.leafValue?) = (settle later.leafValue? d).follow? path := by
  intro later hLater
  induction path, d using follow.induct with
  | case1 d =>
    cases hRun
    rfl
  | case2 segment rest leaf =>
    rw [follow_deferred] at hRun
    obtain ⟨v, hLeaf, rfl⟩ := run_map_eq_ok.1 hRun
    have hRecorded := h.records leaf (mem_deferredLeaves_leaf leaf) s v s' hLeaf
    -- the way goes on in the value, which stands there once the leaf is settled
    have hSettled : settle later.leafValue? (.leaf (.deferred leaf)) = known v :=
      settleCell_of_some (hLater.leafValue leaf v hRecorded)
    rw [hSettled, known, Tree.follow?_map]
    cases Tree.follow? v (segment :: rest) with
    | none => rfl
    | some w => exact congrArg some (settle_known w)
  | case3 segment rest d hNot hChild =>
    rw [follow_of_child? hNot, hChild] at hRun
    cases hRun
    rw [Tree.follow?, child?_settle hNot, hChild]
    rfl
  | case4 segment rest d hNot below hChild ih =>
    rw [follow_of_child? hNot, hChild] at hRun
    rw [Tree.follow?, child?_settle hNot, hChild]
    exact ih (h.mono (mem_deferredLeaves_of_child? hChild)) hRun

theorem mem_deferredLeaves_of_follow {path : KeyPath} {s s' : Session σ} {e : Draft}
    (hRun : (follow resolveLeaf path d).run s = (.ok (some e), s')) :
    ∀ leaf ∈ e.deferredLeaves, leaf ∈ d.deferredLeaves := by
  intro leaf hLeaf
  induction path, d using follow.induct with
  | case1 d =>
    cases hRun
    exact hLeaf
  | case2 segment rest other =>
    rw [follow_deferred] at hRun
    obtain ⟨v, -, hFound⟩ := run_map_eq_ok.1 hRun
    obtain ⟨w, -, rfl⟩ := Option.map_eq_some_iff.1 hFound
    exact absurd hLeaf not_mem_deferredLeaves_known
  | case3 segment rest d hNot hChild =>
    rw [follow_of_child? hNot, hChild] at hRun
    cases hRun
  | case4 segment rest d hNot below hChild ih =>
    rw [follow_of_child? hNot, hChild] at hRun
    exact mem_deferredLeaves_of_child? hChild leaf (ih hRun)

/-- Once the leaves on a way have values, the way is the same for whoever looks
these up. -/
theorem follow_replayed {otherLeaf : LeafResolver σ} (hOther : Recalls otherLeaf)
    {path : KeyPath} (h : Faithful resolveLeaf d) {s s' : Session σ} {found : Option Draft}
    (hRun : (follow resolveLeaf path d).run s = (.ok found, s')) :
    ∀ t : Session σ, s'.history.Precedes t.history →
      (follow otherLeaf path d).run t = (.ok found, t) := by
  intro t ht
  induction path, d using follow.induct with
  | case1 d =>
    cases hRun
    rfl
  | case2 segment rest leaf =>
    rw [follow_deferred] at hRun ⊢
    obtain ⟨v, hLeaf, rfl⟩ := run_map_eq_ok.1 hRun
    have hRecorded := h.records leaf (mem_deferredLeaves_leaf leaf) s v s' hLeaf
    exact run_map_eq_ok.2 ⟨v, hOther leaf t v (ht.leafValue leaf v hRecorded), rfl⟩
  | case3 segment rest d hNot hChild =>
    rw [follow_of_child? hNot, hChild] at hRun ⊢
    cases hRun
    rfl
  | case4 segment rest d hNot below hChild ih =>
    rw [follow_of_child? hNot, hChild] at hRun ⊢
    exact ih (h.mono (mem_deferredLeaves_of_child? hChild)) hRun

-- ---------------------------------------------------------------------------
-- Finding
-- ---------------------------------------------------------------------------

theorem coupled_find {C : Coupling (Session σ) (Session τ)} {otherLeaf : LeafResolver τ}
    {path : KeyPath}
    (h : ∀ leaf ∈ root.deferredLeaves, Coupled C (resolveLeaf leaf) (otherLeaf leaf)) :
    Coupled C (find resolveLeaf root path) (find otherLeaf root path) := by
  rw [find, find]
  split
  · exact Coupled.pure none
  · exact coupled_follow h

theorem keeps_find {I : Session σ → Prop} {path : KeyPath}
    (h : ∀ leaf ∈ root.deferredLeaves, (resolveLeaf leaf).Keeps I) :
    (find resolveLeaf root path).Keeps I :=
  keeps_iff_coupled.2 (coupled_find fun leaf hLeaf => keeps_iff_coupled.1 (h leaf hLeaf))

theorem find_settled {path : KeyPath} (h : Faithful resolveLeaf root) {s s' : Session σ}
    {found : Option Draft} (hRun : (find resolveLeaf root path).run s = (.ok found, s')) :
    ∀ later : History, s'.history.Precedes later →
      found.map (settle later.leafValue?) = (settle later.leafValue? root).get? path := by
  intro later hLater
  rw [find] at hRun
  rw [Tree.get?]
  split at hRun
  · rename_i hEmpty
    cases hRun
    rw [if_pos hEmpty]
    rfl
  · rename_i hEmpty
    rw [if_neg hEmpty]
    exact follow_settled h hRun later hLater

theorem mem_deferredLeaves_of_find {path : KeyPath} {s s' : Session σ} {e : Draft}
    (hRun : (find resolveLeaf root path).run s = (.ok (some e), s')) :
    ∀ leaf ∈ e.deferredLeaves, leaf ∈ root.deferredLeaves := by
  rw [find] at hRun
  split at hRun
  · cases hRun
  · exact mem_deferredLeaves_of_follow hRun

theorem find_replayed {otherLeaf : LeafResolver σ} (hOther : Recalls otherLeaf)
    {path : KeyPath} (h : Faithful resolveLeaf root) {s s' : Session σ} {found : Option Draft}
    (hRun : (find resolveLeaf root path).run s = (.ok found, s')) :
    ∀ t : Session σ, s'.history.Precedes t.history →
      (find otherLeaf root path).run t = (.ok found, t) := by
  intro t ht
  rw [find] at hRun ⊢
  split at hRun
  · rename_i hEmpty
    cases hRun
    rw [if_pos hEmpty]
    rfl
  · rename_i hEmpty
    rw [if_neg hEmpty]
    exact follow_replayed hOther h hRun t ht

-- ---------------------------------------------------------------------------
-- Walking along the paths of a pattern
-- ---------------------------------------------------------------------------

/-- What the paths of a pattern lead to, one after the other. -/
def walk (resolveLeaf : LeafResolver σ) (root : Draft) (pattern : Pattern) :
    Eval (Session σ) (List (Option Draft)) :=
  pattern.mapPaths (find resolveLeaf root)

/-- What the paths of a pattern lead to where the leaves are replaced that have a
value in the history. -/
def places (root : Draft) (pattern : Pattern) (h : History) : List (Option Draft) :=
  pattern.paths.map (settle h.leafValue? root).get?

variable {pattern : Pattern}

theorem coupled_walk {C : Coupling (Session σ) (Session τ)} {otherLeaf : LeafResolver τ}
    (h : ∀ leaf ∈ root.deferredLeaves, Coupled C (resolveLeaf leaf) (otherLeaf leaf)) :
    Coupled C (walk resolveLeaf root pattern) (walk otherLeaf root pattern) := by
  rw [walk, walk, Pattern.mapPaths_eq_mapM, Pattern.mapPaths_eq_mapM]
  exact Coupled.mapM fun path _ => coupled_find h

theorem keeps_walk {I : Session σ → Prop}
    (h : ∀ leaf ∈ root.deferredLeaves, (resolveLeaf leaf).Keeps I) :
    (walk resolveLeaf root pattern).Keeps I :=
  keeps_iff_coupled.2 (coupled_walk fun leaf hLeaf => keeps_iff_coupled.1 (h leaf hLeaf))

theorem mem_deferredLeaves_of_walk {s s' : Session σ} {found : List (Option Draft)}
    (hRun : (walk resolveLeaf root pattern).run s = (.ok found, s')) {d : Draft}
    (hd : some d ∈ found) : ∀ leaf ∈ d.deferredLeaves, leaf ∈ root.deferredLeaves := by
  rw [walk, Pattern.mapPaths_eq_mapM] at hRun
  have hEach : List.Forall₂ (fun (_ : KeyPath) (o : Option Draft) =>
      ∀ e : Draft, o = some e → ∀ leaf ∈ e.deferredLeaves, leaf ∈ root.deferredLeaves)
      pattern.paths found := by
    refine forall₂_of_mapM (P := fun _ o _ =>
      ∀ e : Draft, o = some e → ∀ leaf ∈ e.deferredLeaves, leaf ∈ root.deferredLeaves) ?_ ?_ hRun
    · rintro path _ s _ s' hFind e rfl
      exact mem_deferredLeaves_of_find hFind
    · exact fun path o _ _ _ h => h
  obtain ⟨path, -, hIn⟩ := exists_of_forall₂_right hEach hd
  exact hIn d rfl

/-- What was found, settled, is what the paths lead to in the settled draft. -/
theorem walk_settled (h : Faithful resolveLeaf root) {s s' : Session σ}
    {found : List (Option Draft)}
    (hRun : (walk resolveLeaf root pattern).run s = (.ok found, s')) :
    ∀ later : History, s'.history.Precedes later →
      found.map (Option.map (settle later.leafValue?)) = places root pattern later := by
  intro later hLater
  rw [walk, Pattern.mapPaths_eq_mapM] at hRun
  have hEach : List.Forall₂ (fun path o => ∀ later : History, s'.history.Precedes later →
      (settle later.leafValue? root).get? path = o.map (settle later.leafValue?))
      pattern.paths found := by
    refine forall₂_of_mapM (P := fun path o s => ∀ later : History, s.history.Precedes later →
      (settle later.leafValue? root).get? path = o.map (settle later.leafValue?)) ?_ ?_ hRun
    · exact fun path _ s o s' hFind later hLater => (find_settled h hFind later hLater).symm
    · intro path o other _ s hPath later hLater
      have hGrows : ∀ earlier : History,
          (find resolveLeaf root other).Keeps (fun s => earlier.Precedes s.history) :=
        fun earlier => keeps_find fun leaf hLeaf => h.grows leaf hLeaf earlier
      exact hPath later ((Session.precedes_of_keeps hGrows rfl).trans hLater)
  exact (map_eq_map_of_forall₂ (hEach.imp fun path o ho => ho later hLater)).symm

/-- Once paths have been walked, whoever looks values up walks them alike. -/
theorem walk_replayed {otherLeaf : LeafResolver σ} (hOther : Recalls otherLeaf)
    (h : Faithful resolveLeaf root) {s s' : Session σ} {found : List (Option Draft)}
    (hRun : (walk resolveLeaf root pattern).run s = (.ok found, s')) :
    ∀ t : Session σ, s'.history.Precedes t.history →
      (walk otherLeaf root pattern).run t = (.ok found, t) := by
  intro t ht
  rw [walk, Pattern.mapPaths_eq_mapM] at hRun ⊢
  have hEach : List.Forall₂ (fun path o => ∀ t : Session σ, s'.history.Precedes t.history →
      (find otherLeaf root path).run t = (.ok o, t)) pattern.paths found := by
    refine forall₂_of_mapM (P := fun path o s => ∀ t : Session σ, s.history.Precedes t.history →
      (find otherLeaf root path).run t = (.ok o, t)) ?_ ?_ hRun
    · exact fun path _ s o s' hFind => find_replayed hOther h hFind
    · intro path o other _ s hPath t ht
      have hGrows : ∀ earlier : History,
          (find resolveLeaf root other).Keeps (fun s => earlier.Precedes s.history) :=
        fun earlier => keeps_find fun leaf hLeaf => h.grows leaf hLeaf earlier
      exact hPath t ((Session.precedes_of_keeps hGrows rfl).trans ht)
  exact run_mapM_of_forall₂ (hEach.imp fun path o ho => ho t ht)

/-- Whether the leaves are replaced before or after merging makes a difference only
where a leaf not yet replaced meets something and becomes a sequence or a table. -/
theorem merge_places (h : Faithful resolveLeaf root) {s s' : Session σ}
    {found : List (Option Draft)}
    (hRun : (walk resolveLeaf root pattern).run s = (.ok found, s')) {later : History}
    (hLater : s'.history.Precedes later)
    (hMeets : Tree.mergesOnly (settlesToTerminal later.leafValue?)
      (places root pattern s'.history) = true) :
    Tree.merge (places root pattern later) =
      (Tree.merge (places root pattern s'.history)).map (settle later.leafValue?) := by
  -- both sides in terms of what was found
  have hThen := walk_settled h hRun s'.history (History.Precedes.refl _)
  rw [← hThen] at hMeets ⊢
  rw [← walk_settled h hRun later hLater]
  exact merge_settle_later hLater.leafValue hMeets

theorem places_of_settled {h : History} {v : Value}
    (hSettled : settle h.leafValue? root = known v) :
    places root pattern h = (pattern.paths.map v.get?).map (Option.map known) := by
  rw [places, hSettled, List.map_map]
  exact List.map_congr_left fun path _ => Tree.get?_map Cell.known v path

theorem merge_places_of_settled {h : History} {v : Value}
    (hSettled : settle h.leafValue? root = known v) :
    Tree.merge (places root pattern h) = (Tree.merge (pattern.paths.map v.get?)).map known := by
  rw [places_of_settled hSettled]
  exact Tree.merge_map Cell.known _

-- ---------------------------------------------------------------------------
-- Selecting
-- ---------------------------------------------------------------------------

/-- A pattern selects the merge of what its paths lead to, with the leaves in
place that are not resolved by then. -/
theorem run_select_eq_ok {s s' : Session σ} {o : Option Draft} :
    (select resolveLeaf root pattern).run s = (.ok o, s') ↔
      ∃ found, (walk resolveLeaf root pattern).run s = (.ok found, s') ∧
        o = Tree.merge (found.map (Option.map (settle s'.history.leafValue?))) := by
  rw [select, ← walk, run_bind_eq_ok]
  constructor
  · rintro ⟨found, s₁, hFind, hRest⟩
    cases hRest
    exact ⟨found, hFind, Tree.mergeWith_eq_merge (fun _ => isTerminal_of_isDeferred) _⟩
  · rintro ⟨found, hFind, rfl⟩
    refine ⟨found, s', hFind, ?_⟩
    rw [← Tree.mergeWith_eq_merge (fun _ => isTerminal_of_isDeferred)]
    rfl

theorem keeps_select {I : Session σ → Prop}
    (h : ∀ leaf ∈ root.deferredLeaves, (resolveLeaf leaf).Keeps I) :
    (select resolveLeaf root pattern).Keeps I := by
  rw [select, ← walk]
  refine (keeps_walk h).bind fun found => ?_
  exact Keeps.of_unchanged fun _ => rfl

theorem mem_deferredLeaves_of_select {s s' : Session σ} {d : Draft}
    (hRun : (select resolveLeaf root pattern).run s = (.ok (some d), s')) :
    ∀ leaf ∈ d.deferredLeaves, leaf ∈ root.deferredLeaves := by
  intro leaf hLeaf
  obtain ⟨found, hWalk, hMerge⟩ := run_select_eq_ok.1 hRun
  obtain ⟨e, he, hIn⟩ := mem_deferredLeaves_of_merge hMerge.symm hLeaf
  exact mem_deferredLeaves_of_walk hWalk he leaf hIn

-- ---------------------------------------------------------------------------
-- Values at patterns
-- ---------------------------------------------------------------------------

theorem keeps_valueAt {I : Session σ → Prop}
    (h : ∀ leaf ∈ root.deferredLeaves, (resolveLeaf leaf).Keeps I) :
    (valueAt resolveLeaf root pattern).Keeps I := by
  refine (keeps_select h).bind_of_run fun s o s' hRun => ?_
  cases o with
  | none => exact Keeps.pure none
  | some d =>
    have hIn := mem_deferredLeaves_of_select hRun
    exact (keeps_complete fun leaf hLeaf => h leaf (hIn leaf hLeaf)).map some

/-- The value at a pattern is, in the end, the merge of what the paths lead to,
where the leaves not resolved by the time of merging were indivisible. -/
theorem valueAt_settled (h : Faithful resolveLeaf root) {s s' : Session σ} {o : Option Value}
    (hRun : (valueAt resolveLeaf root pattern).run s = (.ok o, s')) :
    ∃ found s₁, (walk resolveLeaf root pattern).run s = (.ok found, s₁) ∧
      s₁.history.Precedes s'.history ∧
      ∀ later : History, s'.history.Precedes later →
        (Tree.merge (places root pattern s₁.history)).map (settle later.leafValue?) =
          o.map known := by
  rw [valueAt, run_bind_eq_ok] at hRun
  obtain ⟨selected, s₁, hSelect, hRest⟩ := hRun
  obtain ⟨found, hWalk, hMerge⟩ := run_select_eq_ok.1 hSelect
  refine ⟨found, s₁, hWalk, ?_⟩
  rw [← walk_settled h hWalk s₁.history (History.Precedes.refl _), ← hMerge]
  cases selected with
  | none =>
    cases hRest
    exact ⟨History.Precedes.refl _, fun _ _ => rfl⟩
  -- what was selected has leaves of the root only, so completing it is faithful
  | some d =>
    obtain ⟨v, hComplete, rfl⟩ := run_map_eq_ok.1 hRest
    have hFaithful := h.mono (mem_deferredLeaves_of_select hSelect)
    refine ⟨Session.precedes_of_keeps (fun earlier => keeps_complete fun leaf hLeaf =>
      hFaithful.grows leaf hLeaf earlier) hComplete, fun later hLater => ?_⟩
    exact congrArg some (complete_settled hFaithful hComplete later hLater)

/-- In terms of the tree as it is in the end, the value at a pattern with one path
is the one that the pattern has there. -/
theorem valueAt_eq_merge_of_one_path (hOne : pattern.paths.length = 1)
    (h : Faithful resolveLeaf root) {s s' : Session σ} {o : Option Value}
    (hRun : (valueAt resolveLeaf root pattern).run s = (.ok o, s')) {final : History}
    (hFinal : s'.history.Precedes final) {v : Value}
    (hSettled : settle final.leafValue? root = known v) :
    o = Tree.merge (pattern.paths.map v.get?) := by
  obtain ⟨found, s₁, hWalk, hAfter, hValue⟩ := valueAt_settled h hRun
  -- a single tree meets no other
  have hMeets : Tree.mergesOnly (settlesToTerminal final.leafValue?)
      (places root pattern s₁.history) = true := by
    refine Tree.mergesOnly_of_length_le_one ?_ _
    calc ((places root pattern s₁.history).filterMap id).length
        ≤ (places root pattern s₁.history).length := List.length_filterMap_le _ _
      _ = pattern.paths.length := List.length_map ..
      _ ≤ 1 := Nat.le_of_eq hOne
  have hMerge := merge_places h hWalk (hAfter.trans hFinal) hMeets
  rw [merge_places_of_settled hSettled, hValue final hFinal] at hMerge
  exact (Option.map_injective known_injective hMerge).symm

end

end Expansion

end LayeredConfig
