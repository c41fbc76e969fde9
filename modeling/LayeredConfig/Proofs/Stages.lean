import LayeredConfig.Setup
import LayeredConfig.Proofs.Merge

/-!
# LayeredConfig — sources merged in stages

A setup merges the layers of all its sources at once. It could as well merge those of
the first few sources alone and go on with the result as a source in memory: that has
no directory of its own, so its texts keep the directories they came with.

* `Setup.mergedLayers?`   — what layers merge to, if there are any.
* `Setup.withMerged`      — a setup with its first sources replaced in this way.
* `Setup.merge_in_stages` — merging in stages changes nothing.
-/

namespace LayeredConfig

open LayeredConfig.Tree

namespace Source

variable {world : World} {options : Options}

theorem allLayers_append_of_ok {front back : List Source} {layers : List Layer}
    (hFront : allLayers world options front = .ok layers) :
    allLayers world options (front ++ back) = (layers ++ ·) <$> allLayers world options back := by
  induction front generalizing layers with
  | nil =>
    cases hFront
    rw [List.nil_append]
    cases allLayers world options back <;> rfl
  | cons source rest ih =>
    rw [allLayers] at hFront
    cases hFirst : source.layers world options with
    | error e =>
      rw [hFirst] at hFront
      cases hFront
    | ok first =>
      cases hRest : allLayers world options rest with
      | error e =>
        rw [hFirst, hRest] at hFront
        cases hFront
      | ok more =>
        rw [hFirst, hRest] at hFront
        cases hFront
        rw [List.cons_append, allLayers, hFirst, ih hRest]
        cases allLayers world options back with
        | error e => rfl
        | ok others => exact congrArg Except.ok (List.append_assoc first more others).symm

end Source

namespace Setup

/-- What layers merge to, if there are any. -/
def mergedLayers? (options : Options) (layers : List Layer) : Option Value :=
  Tree.merge (layers.map fun layer => some (layerValue options layer))

/-- The setup with `layers`, merged, in place of the sources in front of `back`: a single
source in memory, or none if there are no layers. -/
def withMerged (setup : Setup σ) (layers : List Layer) (back : List Source) : Setup σ :=
  { setup with
    sources := ((mergedLayers? setup.options layers).map fun tree => .given ⟨tree, none⟩).toList
      ++ back }

variable {setup : Setup σ} {world : World} {options : Options}

theorem mergedLayers?_append (front back : List Layer) :
    mergedLayers? options (front ++ back) =
      Tree.merge (mergedLayers? options front ::
        back.map fun layer => some (layerValue options layer)) := by
  rw [mergedLayers?, List.map_append, ← merge_merge_append]
  rfl

/-- The layers of the setup whose first sources are merged. -/
theorem allLayers_withMerged (layers : List Layer) (back : List Source) :
    Source.allLayers world setup.options (setup.withMerged layers back).sources =
      (((mergedLayers? setup.options layers).map fun tree => ⟨tree, none⟩).toList ++ ·) <$>
        Source.allLayers world setup.options back := by
  rw [withMerged]
  cases mergedLayers? setup.options layers with
  | none =>
    have hFront : Source.allLayers world setup.options [] = .ok [] := rfl
    exact Source.allLayers_append_of_ok hFront
  | some tree =>
    have hFront : Source.allLayers world setup.options [.given ⟨tree, none⟩] =
        .ok [⟨tree, none⟩] := rfl
    exact Source.allLayers_append_of_ok hFront

/-- With the first layers merged, all layers merge to the same tree. -/
theorem merged_of_merged (front back : List Layer) :
    merged options (((mergedLayers? options front).map fun tree => ⟨tree, none⟩).toList ++ back) =
      merged options (front ++ back) := by
  have hValue : ∀ tree : Value, layerValue options ⟨tree, none⟩ = tree := by
    intro tree
    rw [layerValue]
    split <;> rfl
  have hFront : mergedLayers? options
      (((mergedLayers? options front).map fun tree => (⟨tree, none⟩ : Layer)).toList) =
        mergedLayers? options front := by
    cases mergedLayers? options front with
    | none => rfl
    | some tree => exact congrArg some (hValue tree)
  rw [merged, merged, ← mergedLayers?, ← mergedLayers?, mergedLayers?_append, hFront,
    ← mergedLayers?_append]

theorem build_eq (setup : Setup σ) (world : World) :
    setup.build world = (do
      let tree ← Eval.ofExcept
        (merged setup.options <$> Source.allLayers world setup.options setup.sources)
      let value ← Value.expand tree (setup.rules world.environment)
      return ⟨value⟩) := by
  rw [build]
  cases Source.allLayers world setup.options setup.sources <;> rfl

theorem build_withMerged {front back : List Source} {layers : List Layer}
    (hSources : setup.sources = front ++ back)
    (hFront : Source.allLayers world setup.options front = .ok layers) :
    (setup.withMerged layers back).build world = setup.build world := by
  have hTree : merged setup.options <$>
      Source.allLayers world setup.options (setup.withMerged layers back).sources =
        merged setup.options <$> Source.allLayers world setup.options setup.sources := by
    rw [allLayers_withMerged, hSources, Source.allLayers_append_of_ok hFront]
    cases Source.allLayers world setup.options back with
    | error e => rfl
    | ok others => exact congrArg Except.ok (merged_of_merged layers others)
  rw [build_eq, build_eq, ← hTree]
  rfl

/-- **Layers may be merged in stages.** Trees merge to what they merge to when an initial
part of them is merged first; where nothing is there in that part, nothing stands for
it. So a setup is built alike if the layers that its first sources give are merged
first and given in place of these sources. -/
theorem merge_in_stages :
    (∀ xs ys : List (Option Value), Tree.merge (xs ++ ys) = Tree.merge (Tree.merge xs :: ys)) ∧
    ∀ (setup : Setup σ) (world : World) (front back : List Source) (layers : List Layer),
      setup.sources = front ++ back →
      Source.allLayers world setup.options front = .ok layers →
        (setup.withMerged layers back).build world = setup.build world :=
  ⟨fun xs ys => (merge_merge_append xs ys).symm,
    fun _ _ _ _ _ hSources hFront => build_withMerged hSources hFront⟩

/-- Layers read from a directory, and one that has a list to append to theirs. -/
def directoryLayers : List Layer :=
  [⟨.table [("dirs", .seq [Value.ofString "lib"])], some "/etc"⟩,
    ⟨.table [("dirs", Value.ofString "share"), ("home", .table [])], some "/usr"⟩]

def directorySetup : Setup Unit :=
  { sources := [.custom (.ok directoryLayers),
      .given ⟨.table [("home", .table [("a", Value.ofString "$\x7bdirs\x7d")])], none⟩]
    options := Options.default
    resolvers := []
    defaultResolvers := []
    env := none }

/-- The texts that were merged first keep their directories. -/
theorem merge_in_stages_of_directories :
    let world : World := ⟨⟨fun _ => none, []⟩, []⟩
    let back := [.given ⟨.table [("home", .table [("a", Value.ofString "$\x7bdirs\x7d")])], none⟩]
    (directorySetup.withMerged directoryLayers back).sources =
        .given ⟨.table [("dirs", .seq [.leaf (.text ⟨"lib", some "/etc"⟩),
          .leaf (.text ⟨"share", some "/usr"⟩)]), ("home", .table [])], none⟩ :: back ∧
      (directorySetup.withMerged directoryLayers back).build world =
        directorySetup.build world := by
  intro world back
  exact ⟨rfl, merge_in_stages.2 directorySetup world [.custom (.ok directoryLayers)] back
    directoryLayers rfl rfl⟩

end Setup

end LayeredConfig
