import LayeredConfig.Pattern.Reader

/-!
# LayeredConfig — the paths of a pattern

The paths that a pattern names have an order: parts that follow each other
give all combinations, the leftmost varying slowest, and alternatives give
their paths one after the other. An empty alternative adds no segment.

* `Pattern.paths`    — the paths.
* `Pattern.each`     — a visit to each path in turn, which the visitor may end.
* `Pattern.mapPaths` — what a function gives for each path in turn.

A pattern may name a great many paths. The last two make each path only when
it is its turn, so that an end is an end; what they come to is said of the
list, by `each_eq_visitPaths` and `mapPaths_eq_mapM`.
-/

namespace LayeredConfig

-- ---------------------------------------------------------------------------
-- As a list
-- ---------------------------------------------------------------------------

namespace Element

mutual

/-- The paths of a part. -/
def paths : Element → List KeyPath
  | word segments => [segments]
  | seq parts => seqPaths parts
  | alt branches => altPaths branches

/-- The paths of parts that follow each other. -/
def seqPaths : List Element → List KeyPath
  | [] => [[]]
  | part :: rest =>
    (paths part).flatMap (fun front => (seqPaths rest).map (fun back => front ++ back))

/-- The paths of alternatives. -/
def altPaths : List Element → List KeyPath
  | [] => []
  | branch :: rest => paths branch ++ altPaths rest

end

end Element

/-- The paths of a pattern, in order. -/
def Pattern.paths (p : Pattern) : List KeyPath := Element.seqPaths p.elements

-- ---------------------------------------------------------------------------
-- Visiting
-- ---------------------------------------------------------------------------

/-- Whether a visit goes on or ends. -/
inductive Visit where
  | more
  | enough
  deriving DecidableEq, Repr

namespace Element

mutual

/-- Visits `before` followed by each path of a part. -/
def visit [Monad m] (each : KeyPath → m Visit) (before : KeyPath) : Element → m Visit
  | word segments => each (before ++ segments)
  | seq parts => visitSeq each before parts
  | alt branches => visitAlt each before branches

/-- Visits `before` followed by each path of parts that follow each other. -/
def visitSeq [Monad m] (each : KeyPath → m Visit) (before : KeyPath) :
    List Element → m Visit
  | [] => each before
  | part :: rest => visit (fun front => visitSeq each front rest) before part

/-- Visits `before` followed by each path of alternatives. -/
def visitAlt [Monad m] (each : KeyPath → m Visit) (before : KeyPath) :
    List Element → m Visit
  | [] => pure .more
  | branch :: rest => do
    match ← visit each before branch with
    | .enough => pure .enough
    | .more => visitAlt each before rest

end

end Element

/-- Visits the paths of a pattern in order, up to the first one at which the
visitor has enough. -/
def Pattern.each [Monad m] (p : Pattern) (visitor : KeyPath → m Visit) : m Visit :=
  Element.visitSeq visitor [] p.elements

/-- A visitor that keeps what `f` gives, last one first. -/
def Visit.collect [Monad m] (f : KeyPath → m α) (path : KeyPath) : StateT (List α) m Visit :=
  fun found => do
    let a ← f path
    return (.more, a :: found)

/-- What `f` gives for the paths of a pattern, in order. -/
def Pattern.mapPaths [Monad m] (p : Pattern) (f : KeyPath → m α) : m (List α) := do
  let (_, found) ← (p.each (Visit.collect f)).run []
  return found.reverse

-- ---------------------------------------------------------------------------
-- Visits and lists
-- ---------------------------------------------------------------------------

/-- Visits the paths of a list in order, up to the first one at which the
visitor has enough. -/
def visitPaths [Monad m] (visitor : KeyPath → m Visit) : List KeyPath → m Visit
  | [] => pure .more
  | path :: rest => do
    match ← visitor path with
    | .enough => pure .enough
    | .more => visitPaths visitor rest

theorem visitPaths_map [Monad m] (visitor : KeyPath → m Visit) (f : KeyPath → KeyPath)
    (paths : List KeyPath) :
    visitPaths visitor (paths.map f) = visitPaths (fun path => visitor (f path)) paths := by
  induction paths with
  | nil => rfl
  | cons path rest ih => simp only [List.map_cons, visitPaths, ih]

section

variable [Monad m] [LawfulMonad m]

theorem visitPaths_singleton (visitor : KeyPath → m Visit) (path : KeyPath) :
    visitPaths visitor [path] = visitor path := by
  have h : (fun v => match v with
      | Visit.enough => pure Visit.enough
      | Visit.more => pure Visit.more) = (pure : Visit → m Visit) := by
    funext v
    cases v <;> rfl
  simp only [visitPaths, h, bind_pure]

theorem visitPaths_append (visitor : KeyPath → m Visit) (front back : List KeyPath) :
    visitPaths visitor (front ++ back) = (do
      match ← visitPaths visitor front with
      | .enough => pure .enough
      | .more => visitPaths visitor back) := by
  induction front with
  | nil => simp [visitPaths]
  | cons path rest ih =>
    simp only [List.cons_append, visitPaths, bind_assoc]
    congr 1
    funext v
    cases v with
    | enough => simp
    | more => exact ih

theorem visitPaths_flatMap (visitor : KeyPath → m Visit) (f : KeyPath → List KeyPath)
    (paths : List KeyPath) :
    visitPaths visitor (paths.flatMap f) =
      visitPaths (fun path => visitPaths visitor (f path)) paths := by
  induction paths with
  | nil => rfl
  | cons path rest ih => rw [List.flatMap_cons, visitPaths_append, visitPaths, ih]

namespace Element

mutual

theorem visit_eq_visitPaths (visitor : KeyPath → m Visit) (before : KeyPath) :
    ∀ e : Element, visit visitor before e =
      visitPaths (fun path => visitor (before ++ path)) (paths e)
  | word segments => by rw [visit, paths, visitPaths_singleton]
  | seq parts => by rw [visit, paths, visitSeq_eq_visitPaths visitor before parts]
  | alt branches => by rw [visit, paths, visitAlt_eq_visitPaths visitor before branches]

theorem visitSeq_eq_visitPaths (visitor : KeyPath → m Visit) (before : KeyPath) :
    ∀ parts : List Element, visitSeq visitor before parts =
      visitPaths (fun path => visitor (before ++ path)) (seqPaths parts)
  | [] => by rw [visitSeq, seqPaths, visitPaths_singleton, List.append_nil]
  | part :: rest => by
    rw [visitSeq, visit_eq_visitPaths _ before part, seqPaths, visitPaths_flatMap]
    congr 1
    funext front
    rw [visitSeq_eq_visitPaths visitor (before ++ front) rest, visitPaths_map]
    simp only [List.append_assoc]

theorem visitAlt_eq_visitPaths (visitor : KeyPath → m Visit) (before : KeyPath) :
    ∀ branches : List Element, visitAlt visitor before branches =
      visitPaths (fun path => visitor (before ++ path)) (altPaths branches)
  | [] => rfl
  | branch :: rest => by
    rw [visitAlt, visit_eq_visitPaths visitor before branch,
      visitAlt_eq_visitPaths visitor before rest, altPaths, visitPaths_append]

end

end Element

theorem Pattern.each_eq_visitPaths (p : Pattern) (visitor : KeyPath → m Visit) :
    p.each visitor = visitPaths visitor p.paths := by
  rw [Pattern.each, Element.visitSeq_eq_visitPaths]
  simp only [List.nil_append]
  rfl

theorem run_visitPaths_collect (f : KeyPath → m α) (paths : List KeyPath) (found : List α) :
    (visitPaths (Visit.collect f) paths).run found = (do
      let more ← paths.mapM f
      return (.more, more.reverse ++ found)) := by
  induction paths generalizing found with
  | nil => simp [visitPaths]
  | cons path rest ih =>
    have hRun : (Visit.collect f path).run found = (do
        let a ← f path
        return (.more, a :: found)) := rfl
    simp [visitPaths, List.mapM_cons, hRun, ih]

theorem Pattern.mapPaths_eq_mapM (p : Pattern) (f : KeyPath → m α) :
    p.mapPaths f = p.paths.mapM f := by
  rw [Pattern.mapPaths, Pattern.each_eq_visitPaths, run_visitPaths_collect]
  simp

end

end LayeredConfig
