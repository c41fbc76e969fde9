import Mathlib.Order.Bounds.Basic
import Mathlib.Data.List.TakeDrop
import LayeredConfig.Setup
import LayeredConfig.Proofs.Joining
import LayeredConfig.Proofs.Visits

/-!
# LayeredConfig — what discovery finds

Discovery climbs from the start directory to the root and takes in each directory the files
that the base name stands for. Two limits may end it before the root. They count different
things, directories and directories with files, and they are looked at before a directory is
searched. So a file that is out of reach is not read, and does no harm if it is malformed.

* `Discovery.Candidate`     — a file that is looked for, in any directory.
* `Discovery.layersAt`      — what a directory gives.
* `Discovery.Ends`          — whether a search ends after some number of directories.
* `Discovery.reach`         — the number of directories that are searched.
* `Discovery.layers_exact`  — discovery gives what these directories give, and no file that
  it looks for has an unknown format or is required.
-/

namespace LayeredConfig

-- ---------------------------------------------------------------------------
-- Extensions
-- ---------------------------------------------------------------------------

namespace Path

theorem extensionOfName?_append {name ext : String} (hName : name ≠ "") (hExt : '.' ∉ ext.toList) :
    extensionOfName? (name ++ "." ++ ext) = some ext := by
  obtain ⟨c, rest, hReverse⟩ := List.exists_cons_of_ne_nil
    (List.reverse_ne_nil_iff.2 fun h => hName (String.toList_eq_nil_iff.1 h))
  have hSpan : (name ++ "." ++ ext).toList.reverse.span (· != '.') =
      (ext.toList.reverse, '.' :: c :: rest) := by
    have hKept : ∀ c ∈ ext.toList.reverse, (c != '.') = true := by
      intro c hc
      exact bne_iff_ne.2 fun h => hExt (h ▸ List.mem_reverse.1 hc)
    rw [String.toList_append, String.toList_append, List.reverse_append, List.reverse_append,
      hReverse, List.span_eq_takeWhile_dropWhile, List.takeWhile_append_of_pos hKept,
      List.dropWhile_append_of_pos hKept]
    simp
  rw [extensionOfName?, hSpan]
  simp

/-- A text without slashes is one piece. -/
theorem pieces_of_not_mem {path : String} (h : '/' ∉ path.toList) : pieces path = [path.toList] :=
  List.splitOn_eq_singleton h

/-- The name at the end of the path of a file in a directory. -/
theorem fileName?_join {dir file : String} (hDir : dir ≠ "") (hSlash : '/' ∉ file.toList)
    (hFirst : ∃ c rest, file.toList = c :: rest ∧ c ≠ '.') :
    fileName? (join dir file) = some file := by
  obtain ⟨c, rest, hChars, hDot⟩ := hFirst
  have hRelative : isAbsolute file = false := by
    have hc : '/' ≠ c := fun h => hSlash (by rw [hChars, h]; exact List.mem_cons_self)
    simpa [isAbsolute, hChars] using hc.symm
  have hStep : ofSegment? file.toList = some (.name file) := by
    have hIdle : isIdle file.toList = false := by simp [isIdle, hChars, hDot]
    have hParent : file.toList ≠ ['.', '.'] := by simp [hChars, hDot]
    rw [ofSegment?, hIdle, if_neg Bool.false_ne_true, if_neg hParent, String.ofList_toList]
  have hSteps : stepsBelow file = [.name file] := by
    rw [stepsBelow, pieces_of_not_mem hSlash, List.filterMap_cons, hStep]
    rfl
  rw [fileName?, components_join hDir hRelative, hSteps, List.getLast?_append]
  rfl

end Path

-- ---------------------------------------------------------------------------
-- Candidates
-- ---------------------------------------------------------------------------

namespace Format

theorem not_mem_extension (format : Format) :
    '.' ∉ format.extension.toList ∧ '/' ∉ format.extension.toList := by
  cases format <;> decide

theorem find?_extension (format : Format) :
    all.find? (fun other => other.extension == format.extension) = some format := by
  cases format <;> rfl

end Format

namespace Discovery

/-- A file to look for: its name is a path of a base name, and it has a format. -/
structure Candidate where
  path : KeyPath
  format : Format

namespace Candidate

/-- The name of the file. -/
def name (c : Candidate) : String := KeyPath.toString c.path ++ "." ++ c.format.extension

/-- The path of the file in a directory. -/
def file (dir : String) (c : Candidate) : String := Path.join dir c.name

/-- The value in the file, if it exists in the directory and is well formed. -/
def value? (fs : FileSystem) (dir : String) (c : Candidate) : Option Value :=
  match fs.readText (c.file dir) with
  | .ok text => c.format.parse? text
  | .error _ => none

/-- In the directory the file is missing, or else it can be read and is well formed. -/
def Sound (fs : FileSystem) (dir : String) (c : Candidate) : Prop :=
  fs.readText (c.file dir) = .error .missing ∨
    ∃ text v, fs.readText (c.file dir) = .ok text ∧ c.format.parse? text = some v

/-- The file is in the directory itself. -/
theorem fileName?_file {c : Candidate} (hPath : c.path.Plain) {dir : String} (hDir : dir ≠ "") :
    Path.fileName? (c.file dir) = some c.name := by
  obtain ⟨path, format⟩ := c
  obtain ⟨hNonempty, hWords⟩ := hPath
  obtain ⟨segment, rest, rfl⟩ := List.exists_cons_of_ne_nil hNonempty
  have hWord := hWords segment List.mem_cons_self
  obtain ⟨-, hSlash⟩ := format.not_mem_extension
  have hName : (name ⟨segment :: rest, format⟩).toList =
      segment.toList ++ KeyPath.dotted rest ++ '.' :: format.extension.toList := by
    rw [name, String.toList_append, String.toList_append, KeyPath.toList_toString]
    simp
  -- a slash is no word character
  have hNoSlash : '/' ∉ (name ⟨segment :: rest, format⟩).toList := by
    have hOfWord : ∀ word ∈ segment :: rest, '/' ∉ word.toList :=
      fun word hMem hc => absurd ((hWords word hMem).2 '/' hc) (by decide)
    have hDotted : '/' ∉ KeyPath.dotted rest := by
      intro hc
      obtain ⟨word, hMem, hc⟩ := List.mem_flatMap.1 hc
      rcases List.mem_cons.1 hc with hc | hc
      · exact absurd hc (by decide)
      · exact hOfWord word (List.mem_cons_of_mem segment hMem) hc
    rw [hName]
    simp [hOfWord segment List.mem_cons_self, hDotted, hSlash]
  -- and neither is a dot
  have hFirst : ∃ c more, (name ⟨segment :: rest, format⟩).toList = c :: more ∧ c ≠ '.' := by
    obtain ⟨c, more, hChars⟩ := List.exists_cons_of_ne_nil hWord.1
    refine ⟨c, _, by rw [hName, hChars]; rfl, ?_⟩
    rintro rfl
    exact absurd (hWord.2 '.' (hChars ▸ List.mem_cons_self)) (by decide)
  exact Path.fileName?_join hDir hNoSlash hFirst

/-- A plain path with the extension of a format is the name of a file of that format. -/
theorem ofPath?_file {c : Candidate} (hPath : c.path.Plain) {dir : String} (hDir : dir ≠ "") :
    Format.ofPath? (c.file dir) = some c.format := by
  have hExtension : Path.extensionOfName? c.name = some c.format.extension :=
    Path.extensionOfName?_append hPath.toString_ne_empty c.format.not_mem_extension.1
  rw [Format.ofPath?, Path.extension?, fileName?_file hPath hDir, Option.bind_some, hExtension]
  exact c.format.find?_extension

/-- Looking for a sound file fails in no way. -/
theorem loadFile_of_sound {c : Candidate} (hPath : c.path.Plain) {dir : String} (hDir : dir ≠ "")
    {fs : FileSystem} (hSound : c.Sound fs dir) :
    loadFile fs (c.file dir) false = .ok (c.value? fs dir) := by
  rw [loadFile, ofPath?_file hPath hDir, value?]
  rcases hSound with hMissing | ⟨text, v, hText, hValue⟩
  · rw [hMissing]
    rfl
  · simp only [hText, hValue]

/-- Looking for a file fails only if it is there, and cannot be read or is malformed. -/
theorem loadFile_eq_error {c : Candidate} (hPath : c.path.Plain) {dir : String} (hDir : dir ≠ "")
    {fs : FileSystem} {e : ConfigError} (h : loadFile fs (c.file dir) false = .error e) :
    e = .unreadableFile (c.file dir) ∨ e = c.format.malformed (c.file dir) := by
  rw [loadFile, ofPath?_file hPath hDir] at h
  simp only at h
  split at h
  · cases h
  · cases h
    exact .inl rfl
  · split at h
    · cases h
    · cases h
      exact .inr rfl

end Candidate

/-- The files that the paths of a pattern stand for, in order. -/
def candidatesOf (pattern : Pattern) : List Candidate :=
  (pattern.paths.filter (!·.isEmpty)).flatMap fun path => [⟨path, .json⟩, ⟨path, .toml⟩]

theorem candidates_eq {d : Discovery} {pattern : Pattern}
    (h : Pattern.parse d.baseName = .ok pattern) :
    d.candidates = .ok ((candidatesOf pattern).map Candidate.name) := by
  rw [candidates, h, candidatesOf, List.map_flatMap]
  rfl

theorem plain_of_mem_candidatesOf {spec : String} {pattern : Pattern}
    (h : Pattern.parse spec = .ok pattern) {c : Candidate} (hc : c ∈ candidatesOf pattern) :
    c.path.Plain := by
  obtain ⟨path, hPath, hc⟩ := List.mem_flatMap.1 hc
  obtain ⟨hMem, hNonempty⟩ := List.mem_filter.1 hPath
  have hPlain : path.Plain := Pattern.plain_of_mem_paths h hMem (by simpa using hNonempty)
  rcases List.mem_pair.1 hc with rfl | rfl <;> exact hPlain

-- ---------------------------------------------------------------------------
-- One directory
-- ---------------------------------------------------------------------------

/-- The layers of the files that exist in a directory, in order. -/
def layersAt (fs : FileSystem) (candidates : List Candidate) (dir : String) : List Layer :=
  candidates.filterMap fun c => (c.value? fs dir).map fun v => ⟨v, some dir⟩

theorem absolutePath_ne_empty (place : List String) : FileSystem.absolutePath place ≠ "" := by
  intro h
  have hChars := congrArg String.toList h
  rw [FileSystem.absolutePath, String.toList_append] at hChars
  cases hChars

section

variable {fs : FileSystem} {dir : String} {candidates : List Candidate}

theorem layersIn_of_sound (hDir : dir ≠ "") (hPlain : ∀ c ∈ candidates, c.path.Plain)
    (hSound : ∀ c ∈ candidates, c.Sound fs dir) :
    layersIn fs dir (candidates.map Candidate.name) = .ok (layersAt fs candidates dir) := by
  induction candidates with
  | nil => rfl
  | cons c rest ih =>
    rw [List.forall_mem_cons] at hPlain hSound
    have hFirst : loadFile fs (Path.join dir c.name) false = .ok (c.value? fs dir) :=
      Candidate.loadFile_of_sound hPlain.1 hDir hSound.1
    rw [List.map_cons, layersIn, hFirst, ih hPlain.2 hSound.2]
    show Except.ok _ = Except.ok (layersAt fs (c :: rest) dir)
    rw [layersAt, layersAt, List.filterMap_cons]
    cases c.value? fs dir <;> rfl

/-- Of two steps, either the first one fails, or the second one does. -/
theorem eq_error_of_bind {x : Except ε α} {f : α → Except ε β} {e : ε}
    (h : (x >>= f) = .error e) : x = .error e ∨ ∃ a, x = .ok a ∧ f a = .error e := by
  cases x with
  | error reason =>
    cases h
    exact .inl rfl
  | ok a => exact .inr ⟨a, rfl, h⟩

/-- What can be wrong with a file that is there. -/
def BadFile (e : ConfigError) : Prop :=
  ∃ path, e = .unreadableFile path ∨ ∃ format : Format, e = format.malformed path

theorem badFile_of_layersIn (hDir : dir ≠ "") (hPlain : ∀ c ∈ candidates, c.path.Plain)
    {e : ConfigError} (h : layersIn fs dir (candidates.map Candidate.name) = .error e) :
    BadFile e := by
  induction candidates with
  | nil => cases h
  | cons c rest ih =>
    rw [List.forall_mem_cons] at hPlain
    rw [List.map_cons, layersIn] at h
    rcases eq_error_of_bind h with hFirst | ⟨found, -, h⟩
    · rcases Candidate.loadFile_eq_error hPlain.1 hDir hFirst with hBad | hBad
      · exact ⟨_, .inl hBad⟩
      · exact ⟨_, .inr ⟨_, hBad⟩⟩
    · rcases eq_error_of_bind h with hRest | ⟨more, -, h⟩
      · exact ih hPlain.2 hRest
      · cases h

end

-- ---------------------------------------------------------------------------
-- The climb
-- ---------------------------------------------------------------------------

/-- Whether a search ends that has come through `searched` directories, `found` of them with
files. -/
def AtLimit (d : Discovery) (searched found : Nat) : Prop :=
  (∃ most, d.maxUp = some most ∧ most ≤ searched) ∨
    ∃ most, d.stopAfter = some most ∧ most ≤ found

/-- The number of lists that are not empty. -/
def countFound (layers : List (List Layer)) : Nat := layers.countP (!·.isEmpty)

/-- Whether a search ends after `n` directories, where `layers` are what the directories on
the way give: it has searched as many as it may, or has had files in as many as it may, or
there are no more. -/
def Ends (d : Discovery) (layers : List (List Layer)) (n : Nat) : Prop :=
  d.AtLimit n (countFound (layers.take n)) ∨ layers.length ≤ n

/-- The number of directories that are searched, where `searched` have been searched before
and `found` of them had files. -/
def reach (d : Discovery) (searched found : Nat) : List (List Layer) → Nat
  | [] => 0
  | here :: above =>
    if d.maxUp.any (· ≤ searched) || d.stopAfter.any (· ≤ found) then 0
    else d.reach (searched + 1) (if here.isEmpty then found else found + 1) above + 1

section

variable {d : Discovery} {searched found : Nat}

theorem atLimit_iff : d.AtLimit searched found ↔
    (d.maxUp.any (· ≤ searched) || d.stopAfter.any (· ≤ found)) = true := by
  simp [AtLimit, Option.any_eq_true]

/-- The first number after which the search ends is that of the directories searched. -/
theorem isLeast_reach (layers : List (List Layer)) (searched found : Nat) :
    IsLeast {n | d.AtLimit (searched + n) (found + countFound (layers.take n)) ∨
      layers.length ≤ n} (d.reach searched found layers) := by
  induction layers generalizing searched found with
  | nil => exact ⟨.inr (Nat.le_refl 0), fun n _ => Nat.zero_le n⟩
  | cons here above ih =>
    rw [reach]
    split
    · rename_i hLimit
      exact ⟨.inl (atLimit_iff.2 hLimit), fun n _ => Nat.zero_le n⟩
    · rename_i hFree
      -- after one directory more, the limits are as far as they are here after it
      have hStep : ∀ n, (d.AtLimit (searched + (n + 1))
          (found + countFound ((here :: above).take (n + 1))) ∨
            (here :: above).length ≤ n + 1) ↔
          d.AtLimit (searched + 1 + n)
            ((if here.isEmpty then found else found + 1) + countFound (above.take n)) ∨
            above.length ≤ n := by
        intro n
        have hFound : found + countFound ((here :: above).take (n + 1)) =
            (if here.isEmpty then found else found + 1) + countFound (above.take n) := by
          rw [List.take_succ_cons, countFound, countFound, List.countP_cons]
          cases here.isEmpty with
          | false =>
            simp only [Bool.not_false, if_true, Bool.false_eq_true, if_false]
            omega
          | true => simp
        rw [hFound, Nat.add_right_comm searched 1 n, Nat.add_assoc searched n 1,
          List.length_cons, Nat.add_le_add_iff_right]
      obtain ⟨hEnds, hFirst⟩ := ih (searched + 1) (if here.isEmpty then found else found + 1)
      refine ⟨(hStep _).2 hEnds, ?_⟩
      intro n hn
      cases n with
      | zero =>
        rcases hn with hLimit | hLength
        · exact absurd (atLimit_iff.1 hLimit) hFree
        · cases hLength
      | succ n => exact Nat.succ_le_succ (hFirst ((hStep n).1 hn))

theorem isLeast_ends (layers : List (List Layer)) :
    IsLeast {n | d.Ends layers n} (d.reach 0 0 layers) := by
  simpa only [Nat.zero_add, Ends] using isLeast_reach layers 0 0

variable {fs : FileSystem} {candidates : List Candidate}

/-- What the directories in reach give is found, whatever is out of reach. -/
theorem search_of_sound (hPlain : ∀ c ∈ candidates, c.path.Plain) (places : List (List String))
    (searched found : Nat)
    (hSound : ∀ dir ∈ (places.map FileSystem.absolutePath).take
        (d.reach searched found ((places.map FileSystem.absolutePath).map
          (layersAt fs candidates))), ∀ c ∈ candidates, c.Sound fs dir) :
    d.search fs (candidates.map Candidate.name) searched found places =
      .ok (((places.map FileSystem.absolutePath).take
        (d.reach searched found ((places.map FileSystem.absolutePath).map
          (layersAt fs candidates)))).flatMap (layersAt fs candidates)) := by
  induction places generalizing searched found with
  | nil => rfl
  | cons place above ih =>
    rw [List.map_cons, List.map_cons, reach] at hSound ⊢
    rw [search]
    split
    · rfl
    · rename_i hFree
      rw [if_neg hFree, List.take_succ_cons, List.forall_mem_cons] at hSound
      have hHere := layersIn_of_sound (absolutePath_ne_empty place) hPlain hSound.1
      rw [List.take_succ_cons, List.flatMap_cons, hHere]
      show ((do
        let more ← d.search fs (candidates.map Candidate.name) (searched + 1)
          (if (layersAt fs candidates (FileSystem.absolutePath place)).isEmpty then found
            else found + 1) above
        pure (layersAt fs candidates (FileSystem.absolutePath place) ++ more) :
          Except ConfigError (List Layer))) = _
      rw [ih _ _ hSound.2]
      rfl

theorem badFile_of_search (hPlain : ∀ c ∈ candidates, c.path.Plain) {places : List (List String)}
    {e : ConfigError}
    (h : d.search fs (candidates.map Candidate.name) searched found places = .error e) :
    BadFile e := by
  induction places generalizing searched found with
  | nil => cases h
  | cons place above ih =>
    rw [search] at h
    split at h
    · cases h
    · rcases eq_error_of_bind h with hHere | ⟨here, -, h⟩
      · exact badFile_of_layersIn (absolutePath_ne_empty place) hPlain hHere
      · rcases eq_error_of_bind h with hAbove | ⟨more, -, h⟩
        · exact ih hAbove
        · cases h

end

-- ---------------------------------------------------------------------------
-- Discovery
-- ---------------------------------------------------------------------------

/-- The directories that a search comes to, nearest first. -/
def directories (start : List String) : List String :=
  (FileSystem.ancestors start).map FileSystem.absolutePath

theorem directories_nil : directories [] = ["/"] := rfl

/-- Above a directory are its parent and what is above that. -/
theorem directories_concat (place : List String) (name : String) :
    directories (place ++ [name]) =
      FileSystem.absolutePath (place ++ [name]) :: directories place := by
  have hAbove : ∀ up, (place ++ [name]).take (place.length + 1 - (up + 1)) =
      place.take (place.length - up) := by
    intro up
    rw [Nat.add_sub_add_right, List.take_append_of_le_length (Nat.sub_le _ _)]
  have hHere : (place ++ [name]).take (place.length + 1 - 0) = place ++ [name] :=
    List.take_of_length_le (by simp)
  rw [directories, directories, FileSystem.ancestors, FileSystem.ancestors, List.length_append,
    List.length_singleton, List.range_succ_eq_map, List.map_cons, List.map_cons, hHere]
  simp only [List.map_map, Function.comp_def, Nat.succ_eq_add_one, hAbove]

theorem layers_of_sound {d : Discovery} {fs : FileSystem} {pattern : Pattern}
    {start : List String} (hPattern : Pattern.parse d.baseName = .ok pattern)
    (hStart : fs.resolve d.startDir = .ok start)
    (hSound : ∀ dir ∈ (directories start).take
        (d.reach 0 0 ((directories start).map (layersAt fs (candidatesOf pattern)))),
      ∀ c ∈ candidatesOf pattern, c.Sound fs dir) :
    d.layers fs = .ok (((directories start).take
      (d.reach 0 0 ((directories start).map (layersAt fs (candidatesOf pattern))))).flatMap
        (layersAt fs (candidatesOf pattern))) := by
  rw [layers, candidates_eq hPattern, hStart]
  exact search_of_sound (fun c hc => plain_of_mem_candidatesOf hPattern hc) _ 0 0 hSound

/-- What can go wrong in a search. -/
theorem layers_eq_error {d : Discovery} {fs : FileSystem} {e : ConfigError}
    (h : d.layers fs = .error e) : (∃ reason, e = .badPattern reason) ∨ BadFile e := by
  rw [layers] at h
  rcases eq_error_of_bind h with hNames | ⟨names, hNames, h⟩
  · rw [candidates] at hNames
    split at hNames
    · cases hNames
      exact .inl ⟨_, rfl⟩
    · cases hNames
  · split at h
    · cases h
      exact .inr ⟨_, .inl rfl⟩
    · obtain ⟨pattern, hPattern⟩ : ∃ pattern, Pattern.parse d.baseName = .ok pattern := by
        cases hParse : Pattern.parse d.baseName with
        | error reason =>
          rw [candidates, hParse] at hNames
          cases hNames
        | ok pattern => exact ⟨pattern, rfl⟩
      rw [candidates_eq hPattern] at hNames
      cases hNames
      exact .inr (badFile_of_search (fun c hc => plain_of_mem_candidatesOf hPattern hc) h)

/-- **Discovery gives exactly the files of the directories it searches.** The number of
these is the first one after which the search ends: because it has searched as many as it
may, or because as many as wanted had files, or because the root is behind it. If each file
that is looked for in these directories is missing, or can be read and is well formed, the
layers are those of each directory, one directory after the other; what is farther away is
never looked at. Whatever the files are, none has an unknown format and none is
required. -/
theorem layers_exact (d : Discovery) (fs : FileSystem) :
    (∀ pattern start, Pattern.parse d.baseName = .ok pattern →
      fs.resolve d.startDir = .ok start →
      ∃ k, IsLeast {n | d.Ends ((directories start).map (layersAt fs (candidatesOf pattern))) n}
          k ∧
        ((∀ dir ∈ (directories start).take k, ∀ c ∈ candidatesOf pattern, c.Sound fs dir) →
          d.layers fs =
            .ok (((directories start).take k).flatMap (layersAt fs (candidatesOf pattern))))) ∧
      ∀ path, d.layers fs ≠ .error (.unsupportedFormat path) ∧
        d.layers fs ≠ .error (.fileNotFound path) := by
  refine ⟨?_, ?_⟩
  · intro pattern start hPattern hStart
    exact ⟨_, isLeast_ends _, layers_of_sound hPattern hStart⟩
  · have hNever : ∀ e, (∀ reason, e ≠ .badPattern reason) → ¬ BadFile e →
        d.layers fs ≠ .error e := by
      intro e hPattern hFile h
      rcases layers_eq_error h with ⟨reason, hReason⟩ | hBad
      · exact hPattern reason hReason
      · exact hFile hBad
    have hOther : ∀ e, BadFile e →
        ∀ path, e ≠ .unsupportedFormat path ∧ e ≠ .fileNotFound path := by
      rintro e ⟨other, rfl | ⟨format, rfl⟩⟩ path
      · exact ⟨nofun, nofun⟩
      · cases format <;> exact ⟨nofun, nofun⟩
    intro path
    exact ⟨hNever _ nofun fun hBad => (hOther _ hBad path).1 rfl,
      hNever _ nofun fun hBad => (hOther _ hBad path).2 rfl⟩

/-- A search from `/home/me` that ends once a directory has had files. -/
def homeSearch : Discovery := ⟨"(app|)", "/home/me", some 3, some 1⟩

/-- There is a file in `/home`, none below, and a malformed one above. -/
def homeFiles : FileSystem :=
  { node? := fun place =>
      if place = ["home"] ∨ place = ["home", "me"] then some .directory
      else if place = ["home", "app.json"] then some (.file "[]".toUTF8)
      else if place = ["app.json"] then some (.file "[".toUTF8)
      else none
    workingDir := [] }

/-- The directory without files does not count, and the malformed file is out of reach. -/
theorem layers_exact_home :
    loadFile homeFiles "/app.json" false = .error (.malformedJson "/app.json") ∧
      homeSearch.layers homeFiles = .ok [⟨.seq [], some "/home"⟩] ∧
      ∀ path, homeSearch.layers homeFiles ≠ .error (.fileNotFound path) := by
  obtain ⟨hExact, hNever⟩ := layers_exact homeSearch homeFiles
  have hPattern : Pattern.parse homeSearch.baseName =
      .ok ⟨"(app|)", [.alt [.word ["app"], .seq []]]⟩ := by rfl
  have hStart : homeFiles.resolve homeSearch.startDir = .ok ["home", "me"] := by rfl
  obtain ⟨k, hLeast, hLayers⟩ := hExact _ _ hPattern hStart
  have hReach : k = 2 := hLeast.unique (isLeast_ends _)
  subst hReach
  have hCandidates : candidatesOf ⟨"(app|)", [.alt [.word ["app"], .seq []]]⟩ =
      [⟨["app"], .json⟩, ⟨["app"], .toml⟩] := by rfl
  refine ⟨by rfl, ?_, fun path => (hNever path).2⟩
  rw [hLayers]
  · rfl
  · intro dir hDir c hc
    rw [hCandidates] at hc
    change dir ∈ ["/home/me", "/home"] at hDir
    rcases List.mem_pair.1 hDir with rfl | rfl <;> rcases List.mem_pair.1 hc with rfl | rfl
    · exact .inl (by rfl)
    · exact .inl (by rfl)
    · exact .inr ⟨"[]", .seq [], by rfl, by rfl⟩
    · exact .inl (by rfl)

end Discovery

end LayeredConfig
