import LayeredConfig.Setup
import LayeredConfig.Proofs.Draft

/-!
# LayeredConfig — where merged texts come from

Merging moves texts around but does not look at them. So it makes no difference whether
layers are annotated before they are merged or after it, as long as each text still says
then which layer it is from. A citation says so: it names the layer, by its number, and the
text that stands there.

* `Layer.cited`            — a layer whose texts are citations.
* `Citation.restore`       — the text that is cited, with its origin.
* `Value.bare`             — a value without origins.
* `Layer.merge_annotated`  — merged texts keep their own origins.
-/

namespace LayeredConfig

-- ---------------------------------------------------------------------------
-- Without origins
-- ---------------------------------------------------------------------------

/-- The text without its origin. -/
def Text.bare (t : Text) : Text := .plain t.text

/-- The scalar without its origin, if it is a text. -/
def Scalar.bare : Scalar → Scalar
  | .text t => .text t.bare
  | s => s

/-- The value without the origins of its texts. -/
def Value.bare (v : Value) : Value := v.map Scalar.bare

-- ---------------------------------------------------------------------------
-- Citations
-- ---------------------------------------------------------------------------

/-- A scalar of a layer. Of a text it is known which layer it stands in, and where. -/
inductive Citation where
  | scalar (s : Scalar)
  | text (layer : Nat) (leaf : Leaf)

namespace Citation

/-- The scalar or text of a cell of the layer with the number `i`. -/
def ofCell (i : Nat) : Cell → Citation
  | .known s => scalar s
  | .deferred leaf => text i leaf

/-- The scalar that is cited. A text has the origin that it has in its layer, or else the
directory of the layer, or else none. -/
def restore (layers : List Layer) : Citation → Scalar
  | scalar s => s
  | text i leaf =>
    .text ⟨leaf.raw.text, leaf.raw.origin <|> layers[i]?.bind Layer.origin⟩

end Citation

namespace Layer

/-- The scalar with its own origin, if it is a text, or else with another one. -/
def withOrigin (origin : Option String) : Scalar → Scalar
  | .text t => .text ⟨t.text, t.origin <|> origin⟩
  | s => s

theorem annotated_eq (layer : Layer) :
    layer.annotated = layer.value.map (withOrigin layer.origin) := by
  unfold annotated
  cases layer.origin with
  | none =>
    have hSame : withOrigin none = fun s => s := by
      funext s
      cases s with
      | text t => simp [withOrigin]
      | _ => rfl
    rw [hSame]
    exact (Tree.map_id layer.value).symm
  | some dir =>
    have hAnnotate : Scalar.annotate dir = withOrigin (some dir) := by
      funext s
      cases s with
      | text t =>
        obtain ⟨text, origin⟩ := t
        cases origin <;> rfl
      | _ => rfl
    rw [← hAnnotate]
    rfl

/-- The layer with the number `i`, each text in it tagged with that number. -/
def cited (i : Nat) (layer : Layer) : Tree Citation :=
  (Draft.ofValue layer.value).map (Citation.ofCell i)

/-- Layers, each text tagged with the number of its layer. -/
def allCited (layers : List Layer) : List (Option (Tree Citation)) :=
  layers.zipIdx.map fun (layer, i) => some (layer.cited i)

/-- Restored, the citations of a layer are its texts, annotated. -/
theorem map_restore_cited {layers : List Layer} {i : Nat} {layer : Layer}
    (h : layers[i]? = some layer) :
    (layer.cited i).map (Citation.restore layers) = layer.annotated := by
  have hCell : ∀ location s,
      (Draft.ofScalarAt location s).map (fun cell => Citation.restore layers (.ofCell i cell)) =
        .leaf (withOrigin layer.origin s) := by
    intro location s
    cases s with
    | text raw =>
      show Tree.leaf (Scalar.text ⟨_, raw.origin <|> layers[i]?.bind Layer.origin⟩) = _
      rw [h]
      rfl
    | _ => rfl
  rw [cited, Tree.map_map, Draft.ofValue, Draft.map_ofValueAt hCell, annotated_eq]

theorem map_restore_allCited (layers : List Layer) :
    (allCited layers).map (Option.map (Tree.map (Citation.restore layers))) =
      layers.map fun layer => some layer.annotated := by
  have hFst : layers = layers.zipIdx.map Prod.fst := (List.zipIdx_map_fst 0 layers).symm
  conv => rhs; rw [hFst]
  rw [allCited, List.map_map, List.map_map]
  refine List.map_congr_left fun pair hPair => ?_
  exact congrArg some (map_restore_cited (List.mem_zipIdx_iff_getElem?.1 hPair))

/-- A text that is cited stands in the layer that the citation names. -/
theorem mem_deferredLeaves_of_cited {layers : List Layer} {t : Tree Citation}
    (ht : some t ∈ allCited layers) {i : Nat} {leaf : Leaf} (h : .text i leaf ∈ t.leaves) :
    ∃ layer, layers[i]? = some layer ∧ leaf ∈ (Draft.ofValue layer.value).deferredLeaves := by
  obtain ⟨⟨layer, j⟩, hPair, hTree⟩ := List.mem_map.1 ht
  cases hTree
  rw [cited, Tree.leaves_map] at h
  obtain ⟨cell, hCell, hText⟩ := List.mem_map.1 h
  cases cell with
  | known s => cases hText
  | deferred other =>
    cases hText
    exact ⟨layer, List.mem_zipIdx_iff_getElem?.1 hPair, Draft.mem_deferredLeaves.2 hCell⟩

-- ---------------------------------------------------------------------------
-- Merging
-- ---------------------------------------------------------------------------

theorem merge_annotated_eq (layers : List Layer) :
    Tree.merge (layers.map fun layer => some layer.annotated) =
      (Tree.merge (allCited layers)).map (Tree.map (Citation.restore layers)) := by
  rw [← map_restore_allCited, Tree.merge_map]

theorem bare_withOrigin (origin : Option String) (s : Scalar) :
    (withOrigin origin s).bare = s.bare := by
  cases s <;> rfl

theorem bare_annotated (layer : Layer) : layer.annotated.bare = layer.value.bare := by
  rw [annotated_eq, Value.bare, Tree.map_map]
  exact congrArg (fun f => layer.value.map f) (funext (bare_withOrigin layer.origin))

/-- Values that differ in origins only merge to values that differ in origins only. -/
theorem bare_merge_congr {f g : Layer → Value} (h : ∀ layer, (f layer).bare = (g layer).bare)
    (layers : List Layer) :
    (Tree.merge (layers.map fun layer => some (f layer))).map Value.bare =
      (Tree.merge (layers.map fun layer => some (g layer))).map Value.bare := by
  have hBare : ∀ k : Layer → Value,
      (Tree.merge (layers.map fun layer => some (k layer))).map Value.bare =
        Tree.merge (layers.map fun layer => some (k layer).bare) := by
    intro k
    refine (Tree.merge_map Scalar.bare _).symm.trans ?_
    rw [List.map_map]
    rfl
  rw [hBare f, hBare g]
  simp only [h]

end Layer

namespace Setup

theorem bare_merged (options : Options) (layers : List Layer) :
    (merged options layers).bare =
      ((Tree.merge (layers.map fun layer => some layer.value)).map Value.bare).getD
        (.table []) := by
  have hValue : ∀ layer, (layerValue options layer).bare = layer.value.bare := by
    intro layer
    unfold layerValue
    split
    · exact layer.bare_annotated
    · rfl
  rw [← Layer.bare_merge_congr hValue, merged]
  cases Tree.merge (layers.map fun layer => some (layerValue options layer)) <;> rfl

/-- Layers merged with smart strings and without differ in origins only. -/
theorem bare_merged_smartStrings (options : Options) (layers : List Layer) (smart : Bool) :
    (merged { options with smartStrings := smart } layers).bare = (merged options layers).bare := by
  rw [bare_merged, bare_merged]

end Setup

namespace Layer

/-- **Every merged text knows where it came from.** Annotated layers merge to what the
layers merge to when each text in them is tagged with the number of its layer and the tags
are then replaced, each by the origin that its text had in its layer already, or else by
the directory of that layer. A tag that is left names the layer that its text stands in.
Without origins it is the layers as they are that merge. This is how a setup with smart
strings merges its layers. -/
theorem merge_annotated (layers : List Layer) :
    Tree.merge (layers.map fun layer => some layer.annotated) =
        (Tree.merge (allCited layers)).map (Tree.map (Citation.restore layers)) ∧
      (∀ v, Tree.merge (allCited layers) = some v →
        ∀ i leaf, Citation.text i leaf ∈ v.leaves →
          ∃ layer, layers[i]? = some layer ∧
            leaf ∈ (Draft.ofValue layer.value).deferredLeaves) ∧
      (Tree.merge (layers.map fun layer => some layer.annotated)).map Value.bare =
        (Tree.merge (layers.map fun layer => some layer.value)).map Value.bare ∧
      ∀ options : Options, Setup.merged { options with smartStrings := true } layers =
        ((Tree.merge (allCited layers)).map (Tree.map (Citation.restore layers))).getD
          (.table []) := by
  refine ⟨merge_annotated_eq layers, ?_, bare_merge_congr bare_annotated layers, ?_⟩
  · intro v hMerge i leaf hIn
    obtain ⟨t, ht, hText⟩ := Tree.mem_leaves_of_merge hMerge hIn
    exact mem_deferredLeaves_of_cited ht hText
  · intro options
    rw [← merge_annotated_eq]
    rfl

/-- Layers with a list and a table in common. The second has no directory, and the third
has a text that was annotated before. -/
def sharingLayers : List Layer :=
  [⟨.table [("list", .seq [Value.ofString "a"]), ("map", .table [("x", Value.ofString "b")])],
      some "/first"⟩,
    ⟨.table [("list", Value.ofString "c"), ("map", .table [("w", Value.ofString "d")])], none⟩,
    ⟨.table [("list", .seq [.leaf (.text ⟨"e", some "/own"⟩), Value.ofString "f"]),
        ("map", .table [("x", Value.ofString "g"), ("y", Value.ofString "h")])],
      some "/third"⟩]

def sharingMerge : Value :=
  .table [("list", .seq [.leaf (.text ⟨"a", some "/first"⟩), Value.ofString "c",
      .leaf (.text ⟨"e", some "/own"⟩), .leaf (.text ⟨"f", some "/third"⟩)]),
    ("map", .table [("w", Value.ofString "d"), ("x", .leaf (.text ⟨"b", some "/first"⟩)),
      ("y", .leaf (.text ⟨"h", some "/third"⟩))])]

/-- In a list that is glued together and in a table whose keys interleave, every text keeps
its origin, and that of `e` is found in the third layer. -/
theorem merge_annotated_sharing :
    Tree.merge (sharingLayers.map fun layer => some layer.annotated) = some sharingMerge ∧
      Setup.merged Options.default sharingLayers = sharingMerge ∧
      ∃ v, Tree.merge (allCited sharingLayers) = some v ∧
        v.map (Citation.restore sharingLayers) = sharingMerge ∧
        Citation.text 2 ⟨[.key "list", .index 0], ⟨"e", some "/own"⟩⟩ ∈ v.leaves ∧
        ∃ layer, sharingLayers[2]? = some layer ∧
          ⟨[.key "list", .index 0], ⟨"e", some "/own"⟩⟩ ∈
            (Draft.ofValue layer.value).deferredLeaves := by
  obtain ⟨hMerge, hHonest, -, hSetup⟩ := merge_annotated sharingLayers
  obtain ⟨v, hCited⟩ : ∃ v, Tree.merge (allCited sharingLayers) = some v := ⟨_, rfl⟩
  have hValue : Tree.merge (sharingLayers.map fun layer => some layer.annotated) =
      some sharingMerge := by rfl
  have hRestored : v.map (Citation.restore sharingLayers) = sharingMerge := by
    rw [hCited, hValue] at hMerge
    exact (Option.some.inj hMerge).symm
  have hIn : Citation.text 2 ⟨[.key "list", .index 0], ⟨"e", some "/own"⟩⟩ ∈ v.leaves := by
    cases hCited
    exact .tail _ (.tail _ (.head _))
  refine ⟨hValue, ?_, v, hCited, hRestored, hIn, hHonest v hCited 2 _ hIn⟩
  have hMerged := hSetup Options.default
  rw [← hMerge, hValue] at hMerged
  exact hMerged

end Layer

end LayeredConfig
