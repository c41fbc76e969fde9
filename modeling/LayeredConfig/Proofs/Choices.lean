import LayeredConfig.Proofs.ConcretePaths
import LayeredConfig.Proofs.Discovery
import LayeredConfig.Proofs.Locations
import Mathlib.Data.List.Nodup

/-!
# LayeredConfig — choices

A pattern gives a path for every choice of one branch in each of its groups, a group inside
a branch being chosen in only if that branch is. Every choice has its turn, and has it once.

Its paths may be fewer. Different choices give the same path if a branch is repeated, and
also if branches without segments let different groups stand in for one another, as in
`(a|).(a|)`. Nothing looks for that. What is at such a path is then merged with itself, and
a file of such a name is taken twice.

* `Element.Choice`   — the choices in a part.
* `Element.choices`  — all of them, in order.
* `Element.map_path_choices` — the paths are those of the choices.
* `Discovery.nodup_files_iff` — when no file is looked for twice in a directory.
* `Pattern.visits_choices_once` — what this means for visits, lookups and discovery.
-/

namespace LayeredConfig

-- ---------------------------------------------------------------------------
-- Choices
-- ---------------------------------------------------------------------------

namespace Element

mutual

/-- A choice of branches in a part. -/
inductive Choice : Element → Type
  | word (segments : KeyPath) : Choice (.word segments)
  | seq {parts : List Element} (choice : SeqChoice parts) : Choice (.seq parts)
  | alt {branches : List Element} (choice : AltChoice branches) : Choice (.alt branches)

/-- A choice in each of some parts that follow each other. -/
inductive SeqChoice : List Element → Type
  | nil : SeqChoice []
  | cons {part : Element} {rest : List Element} (first : Choice part) (more : SeqChoice rest) :
    SeqChoice (part :: rest)

/-- A choice of one of some branches, and in it. -/
inductive AltChoice : List Element → Type
  | here {branch : Element} {rest : List Element} (choice : Choice branch) :
    AltChoice (branch :: rest)
  | later {branch : Element} {rest : List Element} (choice : AltChoice rest) :
    AltChoice (branch :: rest)

end

mutual

/-- The path that a choice gives. -/
def Choice.path {e : Element} : Choice e → KeyPath
  | .word segments => segments
  | .seq choice => choice.path
  | .alt choice => choice.path

def SeqChoice.path {parts : List Element} : SeqChoice parts → KeyPath
  | .nil => []
  | .cons first more => first.path ++ more.path

def AltChoice.path {branches : List Element} : AltChoice branches → KeyPath
  | .here choice => choice.path
  | .later choice => choice.path

end

mutual

/-- The choices in a part, in order. -/
def choices : (e : Element) → List (Choice e)
  | word segments => [.word segments]
  | seq parts => (seqChoices parts).map .seq
  | alt branches => (altChoices branches).map .alt

/-- The choices in parts that follow each other, in the first part varying slowest. -/
def seqChoices : (parts : List Element) → List (SeqChoice parts)
  | [] => [.nil]
  | part :: rest =>
    (choices part).flatMap fun first => (seqChoices rest).map fun more => .cons first more

/-- The choices of branches, one branch after the other. -/
def altChoices : (branches : List Element) → List (AltChoice branches)
  | [] => []
  | branch :: rest => (choices branch).map .here ++ (altChoices rest).map .later

end

-- ---------------------------------------------------------------------------
-- Every choice once
-- ---------------------------------------------------------------------------

mutual

theorem mem_choices {e : Element} : ∀ choice : Choice e, choice ∈ choices e
  | .word segments => List.mem_singleton_self _
  | .seq choice => List.mem_map_of_mem (mem_seqChoices choice)
  | .alt choice => List.mem_map_of_mem (mem_altChoices choice)

theorem mem_seqChoices {parts : List Element} : ∀ choice : SeqChoice parts,
    choice ∈ seqChoices parts
  | .nil => List.mem_singleton_self _
  | .cons first more =>
    List.mem_flatMap.2 ⟨first, mem_choices first, List.mem_map_of_mem (mem_seqChoices more)⟩

theorem mem_altChoices {branches : List Element} : ∀ choice : AltChoice branches,
    choice ∈ altChoices branches
  | .here choice => List.mem_append_left _ (List.mem_map_of_mem (mem_choices choice))
  | .later choice => List.mem_append_right _ (List.mem_map_of_mem (mem_altChoices choice))

end

mutual

theorem nodup_choices : ∀ e : Element, (choices e).Nodup
  | word _ => List.nodup_singleton _
  | seq parts => (nodup_seqChoices parts).map fun _ _ h => Choice.seq.inj h
  | alt branches => (nodup_altChoices branches).map fun _ _ h => Choice.alt.inj h

theorem nodup_seqChoices : ∀ parts : List Element, (seqChoices parts).Nodup
  | [] => List.nodup_singleton _
  | part :: rest => by
    rw [seqChoices, List.nodup_flatMap]
    refine ⟨fun first _ => (nodup_seqChoices rest).map fun _ _ h => (SeqChoice.cons.inj h).2, ?_⟩
    refine (nodup_choices part).imp fun {a b} hne => List.disjoint_left.2 ?_
    intro choice ha hb
    obtain ⟨_, -, rfl⟩ := List.mem_map.1 ha
    obtain ⟨_, -, hEq⟩ := List.mem_map.1 hb
    exact hne (SeqChoice.cons.inj hEq).1.symm

theorem nodup_altChoices : ∀ branches : List Element, (altChoices branches).Nodup
  | [] => List.nodup_nil
  | branch :: rest => by
    rw [altChoices]
    refine List.Nodup.append ((nodup_choices branch).map fun _ _ h => AltChoice.here.inj h)
      ((nodup_altChoices rest).map fun _ _ h => AltChoice.later.inj h) ?_
    refine List.disjoint_left.2 fun choice hHere hLater => ?_
    obtain ⟨_, -, rfl⟩ := List.mem_map.1 hHere
    obtain ⟨_, -, hEq⟩ := List.mem_map.1 hLater
    cases hEq

end

mutual

/-- The paths of a part are those that its choices give. -/
theorem map_path_choices : ∀ e : Element, (choices e).map Choice.path = paths e
  | word segments => by rw [choices, paths, List.map_singleton, Choice.path]
  | seq parts => by
    rw [choices, paths, List.map_map, ← map_path_seqChoices parts]
    exact List.map_congr_left fun choice _ => by rw [Function.comp_apply, Choice.path]
  | alt branches => by
    rw [choices, paths, List.map_map, ← map_path_altChoices branches]
    exact List.map_congr_left fun choice _ => by rw [Function.comp_apply, Choice.path]

theorem map_path_seqChoices : ∀ parts : List Element,
    (seqChoices parts).map SeqChoice.path = seqPaths parts
  | [] => by rw [seqChoices, seqPaths, List.map_singleton, SeqChoice.path]
  | part :: rest => by
    rw [seqChoices, seqPaths, ← map_path_choices part, ← map_path_seqChoices rest,
      List.map_flatMap, List.flatMap_map]
    refine List.flatMap_congr fun first _ => ?_
    rw [List.map_map, List.map_map]
    exact List.map_congr_left fun more _ => by
      rw [Function.comp_apply, Function.comp_apply, SeqChoice.path]

theorem map_path_altChoices : ∀ branches : List Element,
    (altChoices branches).map AltChoice.path = altPaths branches
  | [] => rfl
  | branch :: rest => by
    rw [altChoices, altPaths, ← map_path_choices branch, ← map_path_altChoices rest,
      List.map_append, List.map_map, List.map_map]
    exact congrArg₂ (· ++ ·)
      (List.map_congr_left fun choice _ => by rw [Function.comp_apply, AltChoice.path])
      (List.map_congr_left fun choice _ => by rw [Function.comp_apply, AltChoice.path])

end

end Element

namespace Pattern

/-- A choice of branches in a pattern. -/
abbrev Choice (p : Pattern) : Type := Element.SeqChoice p.elements

/-- The choices in a pattern, in order. -/
def choices (p : Pattern) : List p.Choice := Element.seqChoices p.elements

theorem nodup_choices (p : Pattern) : p.choices.Nodup := Element.nodup_seqChoices p.elements

theorem mem_choices {p : Pattern} (c : p.Choice) : c ∈ p.choices := Element.mem_seqChoices c

theorem paths_eq_map_choices (p : Pattern) : p.paths = p.choices.map Element.SeqChoice.path :=
  (Element.map_path_seqChoices p.elements).symm

/-- Of the paths with some property, none comes twice just if different choices do not give
the same one. -/
theorem nodup_filter_paths_iff (p : Pattern) (keep : KeyPath → Bool) :
    (p.paths.filter keep).Nodup ↔
      ∀ c d : p.Choice, keep c.path = true → c.path = d.path → c = d := by
  rw [paths_eq_map_choices, List.filter_map, List.nodup_map_iff_inj_on (p.nodup_choices.filter _)]
  constructor
  · intro h c d hKeep hEq
    have hKeep' : keep d.path = true := by rwa [← hEq]
    exact h c (List.mem_filter.2 ⟨mem_choices c, hKeep⟩) d
      (List.mem_filter.2 ⟨mem_choices d, hKeep'⟩) hEq
  · exact fun h c hc d _ => h c d (List.mem_filter.1 hc).2

end Pattern

-- ---------------------------------------------------------------------------
-- Files
-- ---------------------------------------------------------------------------

namespace Format

theorem extension_injective {a b : Format} (h : a.extension = b.extension) : a = b := by
  have hFound := a.find?_extension
  rw [h, b.find?_extension] at hFound
  exact (Option.some.inj hFound).symm

theorem isSegment_extension (format : Format) : KeyPath.IsSegment format.extension := by
  cases format <;> decide

end Format

namespace Discovery

namespace Candidate

/-- In the name of a file, the extension is one segment more. -/
theorem toString_append_extension {c : Candidate} (h : c.path.Plain) :
    KeyPath.toString (c.path ++ [c.format.extension]) = c.name := by
  have hExtension := c.format.isSegment_extension.1
  rw [KeyPath.toString_append (fun segment hSegment => (h.2 segment hSegment).ne_empty)
      (List.forall_mem_singleton.2 hExtension),
    KeyPath.joinTexts, if_neg h.toString_ne_empty, if_neg (KeyPath.toString_ne_empty hExtension [])]
  rfl

/-- The name of a file tells its path and its format. -/
theorem name_injective {a b : Candidate} (ha : a.path.Plain) (hb : b.path.Plain)
    (h : a.name = b.name) : a = b := by
  have hSegments : ∀ {c : Candidate}, c.path.Plain →
      ∀ segment ∈ c.path ++ [c.format.extension], KeyPath.IsSegment segment :=
    fun {c} hc => List.forall_mem_append.2
      ⟨KeyPath.isSegment_of_words hc.2, List.forall_mem_singleton.2 c.format.isSegment_extension⟩
  rw [← toString_append_extension ha, ← toString_append_extension hb] at h
  have hPaths := KeyPath.toString_injective (hSegments ha) (hSegments hb) h
  obtain ⟨hPath, hExtension⟩ := List.append_inj' hPaths rfl
  obtain ⟨path, format⟩ := a
  cases hPath
  exact congrArg _ (Format.extension_injective (List.head_eq_of_cons_eq hExtension))

end Candidate

variable {spec : String} {pattern : Pattern}

theorem nodup_candidatesOf_iff (pattern : Pattern) :
    (candidatesOf pattern).Nodup ↔ (pattern.paths.filter (!·.isEmpty)).Nodup := by
  rw [candidatesOf, List.nodup_flatMap]
  constructor
  · rintro ⟨-, hApart⟩
    refine hApart.imp fun {a b} hDisjoint hEq => ?_
    rw [hEq] at hDisjoint
    exact List.disjoint_left.1 hDisjoint List.mem_cons_self List.mem_cons_self
  · intro hNodup
    refine ⟨fun path _ => ?_, hNodup.imp fun {a b} hne => List.disjoint_left.2 ?_⟩
    · simp
    · intro c ha hb
      have hPath : ∀ {path : KeyPath}, c ∈ [(⟨path, .json⟩ : Candidate), ⟨path, .toml⟩] →
          c.path = path := by
        intro path hc
        rcases List.mem_pair.1 hc with rfl | rfl <;> rfl
      exact hne ((hPath ha).symm.trans (hPath hb))

/-- No file is looked for twice in a directory just if different choices do not give the same
path with segments. -/
theorem nodup_files_iff (h : Pattern.parse spec = .ok pattern) {dir : String} (hDir : dir ≠ "") :
    ((candidatesOf pattern).map (Candidate.file dir)).Nodup ↔
      ∀ c d : pattern.Choice, c.path ≠ [] → c.path = d.path → c = d := by
  have hFiles : ((candidatesOf pattern).map (Candidate.file dir)).Nodup ↔
      (candidatesOf pattern).Nodup := by
    refine ⟨List.Nodup.of_map _, List.Nodup.map_on fun a ha b hb hEq => ?_⟩
    have hPlain := plain_of_mem_candidatesOf h ha
    have hPlain' := plain_of_mem_candidatesOf h hb
    have hNames := (Candidate.fileName?_file hPlain hDir).symm.trans
      ((congrArg Path.fileName? hEq).trans (Candidate.fileName?_file hPlain' hDir))
    exact Candidate.name_injective hPlain hPlain' (Option.some.inj hNames)
  rw [hFiles, nodup_candidatesOf_iff, Pattern.nodup_filter_paths_iff]
  simp only [Bool.not_eq_true', List.isEmpty_eq_false_iff, ne_eq]

end Discovery

-- ---------------------------------------------------------------------------
-- Visits, lookups and discovery
-- ---------------------------------------------------------------------------

namespace Pattern

theorem nodup_visited_iff {spec : String} {p : Pattern} (h : parse spec = .ok p) :
    p.visited.Nodup ↔ ∀ c d : p.Choice, c.path = d.path → c = d := by
  have hSegments : ∀ path ∈ p.paths, ∀ segment ∈ path, KeyPath.IsSegment segment :=
    fun path hPath => KeyPath.isSegment_of_words (isWord_of_mem_paths h hPath)
  have hTexts : (p.paths.map KeyPath.toString).Nodup ↔ p.paths.Nodup :=
    ⟨List.Nodup.of_map _, List.Nodup.map_on fun a ha b hb =>
      KeyPath.toString_injective (hSegments a ha) (hSegments b hb)⟩
  have hAll := nodup_filter_paths_iff p fun _ => true
  rw [List.filter_true] at hAll
  rw [visited_eq_map, hTexts, hAll]
  simp only [true_imp_iff]

/-- No group repeats a branch, and yet `a` is visited twice. -/
example : visited ⟨"(a|).(a|)", [.alt [.word ["a"], .seq []], .alt [.word ["a"], .seq []]]⟩ =
    ["a.a", "a", "a", ""] := by
  rfl

/-- **Every choice is visited once, and a path as often as choices give it.** The texts that a
visit is called with are those of the paths of all choices, each choice coming once. None
comes twice just if no two choices give the same path. A lookup merges what the choices lead
to, each choice once. Two choices lead to the same node in some tree just if their paths have
segments and are the same up to the spelling of indexes; so what is at other paths is not
merged with itself. In a directory, discovery looks for no file twice just if no two choices
give the same path with segments. -/
theorem visits_choices_once {spec : String} {p : Pattern} (h : parse spec = .ok p) :
    (p.choices.Nodup ∧ (∀ c : p.Choice, c ∈ p.choices) ∧
      p.visited = p.choices.map fun c => c.path.toString) ∧
    (p.visited.Nodup ↔ ∀ c d : p.Choice, c.path = d.path → c = d) ∧
    (∀ tree : Value,
      Value.get tree spec = .ok (Tree.merge (p.choices.map fun c => tree.get? c.path))) ∧
    (∀ c d : p.Choice,
      (∃ (tree : Value) (location : Location), tree.WellFormed ∧
        tree.Leads c.path location ∧ tree.Leads d.path location) ↔
      c.path ≠ [] ∧ c.path.Alike d.path) ∧
    ∀ search : Discovery, search.baseName = spec → ∃ names, search.candidates = .ok names ∧
      ∀ dir, dir ≠ "" → ((names.map (Path.join dir)).Nodup ↔
        ∀ c d : p.Choice, c.path ≠ [] → c.path = d.path → c = d) := by
  refine ⟨⟨p.nodup_choices, mem_choices, ?_⟩, nodup_visited_iff h, ?_, ?_, ?_⟩
  · rw [visited_eq_map, paths_eq_map_choices, List.map_map]
    rfl
  · intro tree
    rw [Value.get, h]
    simp only [paths_eq_map_choices, List.map_map, Function.comp_def]
  · exact fun c d => Tree.exists_leads_iff
  · rintro search rfl
    refine ⟨_, Discovery.candidates_eq h, fun dir hDir => ?_⟩
    rw [List.map_map]
    exact Discovery.nodup_files_iff h hDir

/-- Two spellings of an index: the paths differ, and lead to one item. -/
theorem visits_choices_once_of_spellings :
    let p : Pattern := ⟨"l.(0|00)", [.word ["l"], .alt [.word ["0"], .word ["00"]]]⟩
    parse "l.(0|00)" = .ok p ∧ p.visited = ["l.0", "l.00"] ∧
      (∀ c d : p.Choice, c.path = d.path → c = d) ∧
      ∃ (tree : Value) (location : Location), tree.WellFormed ∧
        tree.Leads ["l", "0"] location ∧ tree.Leads ["l", "00"] location := by
  intro p
  have hParse : parse "l.(0|00)" = .ok p := by rfl
  have hVisited : p.visited = ["l.0", "l.00"] := by rfl
  obtain ⟨-, hNodup, -, hLeads, -⟩ := visits_choices_once hParse
  have hAlike : KeyPath.Alike ["l", "0"] ["l", "00"] :=
    .cons (.inl rfl) (.cons (.inr ⟨0, by decide, by decide⟩) .nil)
  refine ⟨hParse, hVisited, hNodup.1 (by rw [hVisited]; decide), ?_⟩
  exact (hLeads (.cons (.word ["l"]) (.cons (.alt (.here (.word ["0"]))) .nil))
    (.cons (.word ["l"]) (.cons (.alt (.later (.here (.word ["00"])))) .nil))).2
    ⟨List.cons_ne_nil _ _, hAlike⟩

/-- A repeated branch is visited twice. A sequence there is doubled, and a file of that name
looked for twice. -/
theorem not_visited_once :
    let p : Pattern := ⟨"(a|a)", [.alt [.word ["a"], .word ["a"]]]⟩
    let tree : Value := .table [("a", .seq [.leaf .null])]
    parse "(a|a)" = .ok p ∧ p.visited = ["a", "a"] ∧ ¬ p.visited.Nodup ∧
      Value.get tree "(a|a)" = .ok (some (.seq [.leaf .null, .leaf .null])) ∧
      Discovery.candidates ⟨"(a|a)", "/", none, none⟩ =
        .ok ["a.json", "a.toml", "a.json", "a.toml"] := by
  intro p tree
  have hVisited : p.visited = ["a", "a"] := by rfl
  exact ⟨by rfl, hVisited, by rw [hVisited]; decide, by rfl, by rfl⟩

end Pattern

end LayeredConfig
