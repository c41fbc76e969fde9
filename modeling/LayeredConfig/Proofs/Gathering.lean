import LayeredConfig.Proofs.Tree
import LayeredConfig.Value.Basic

/-!
# LayeredConfig — trees merged under a key

Trees that are merged one after the other are asked once whether they are indivisible: it is the
first one that counts. Under a key of tables that are merged, it is what has come together so far
that is asked, before each further tree. So there merging stops at the first indivisible result,
which the trees by themselves would go on from.

Main results:

* `Tree.gather_eq_foldl`         — where merging stops under a key.
* `Tree.gather_eq_mergeOnto`     — when it goes on to the end.
* `Tree.mergeWith_under_key`     — what comes of trees that stand under a key.
* `Tree.not_mergeWith_under_key` — this need not be what comes of the trees by themselves.
-/

namespace LayeredConfig

namespace Tree

section

variable {stop : Tree α → Bool}

/-- What comes together under a key, where what is there is asked before each further tree. -/
def gather (stop : Tree α → Bool) (first : Tree α) (later : List (Tree α)) : Tree α :=
  later.foldl (fun a b => if stop a then a else extend stop a b) first

theorem foldl_extend_under {key : String} {later : List (Tree α)}
    (h : ∀ b ∈ later, stop (table [(key, b)]) = false) : ∀ first : Tree α,
      (later.map fun b => table [(key, b)]).foldl (extend stop) (table [(key, first)]) =
        table [(key, gather stop first later)] := by
  induction later with
  | nil => exact fun _ => rfl
  | cons b rest ih =>
    intro first
    rw [List.forall_mem_cons] at h
    have hStep : extend stop (table [(key, first)]) (table [(key, b)]) =
        table [(key, if stop first then first else extend stop first b)] := by
      simp [extend, h.1, extendEntries, Fields.get?, Fields.insert]
    rw [List.map_cons, List.foldl_cons, hStep, ih h.2]
    rfl

theorem gather_of_stop {first : Tree α} (h : stop first = true) (later : List (Tree α)) :
    gather stop first later = first := by
  induction later with
  | nil => rfl
  | cons b rest ih => rwa [gather, List.foldl_cons, if_pos h]

/-- What has come together is what the trees up to the first indivisible result merge to. -/
theorem gather_eq_foldl (stop : Tree α → Bool) (later : List (Tree α)) : ∀ first : Tree α,
    ∃ n ≤ later.length,
      gather stop first later = (later.take n).foldl (extend stop) first ∧
      (n < later.length → stop (gather stop first later) = true) ∧
      ∀ m < n, stop ((later.take m).foldl (extend stop) first) = false := by
  induction later with
  | nil => exact fun first => ⟨0, Nat.le_refl 0, rfl, nofun, nofun⟩
  | cons b rest ih =>
    intro first
    by_cases hFirst : stop first = true
    · refine ⟨0, Nat.zero_le _, gather_of_stop hFirst _, fun _ => ?_, nofun⟩
      rwa [gather_of_stop hFirst]
    · obtain ⟨n, hLength, hGather, hStop, hBefore⟩ := ih (extend stop first b)
      have hStep : gather stop first (b :: rest) = gather stop (extend stop first b) rest := by
        rw [gather, List.foldl_cons, if_neg hFirst]
        rfl
      refine ⟨n + 1, Nat.succ_le_succ hLength, hStep.trans hGather, fun hn => ?_, fun m hm => ?_⟩
      · rw [hStep]
        exact hStop (Nat.lt_of_succ_lt_succ hn)
      · cases m with
        | zero => exact eq_false_of_ne_true hFirst
        | succ m => exact hBefore m (Nat.lt_of_succ_lt_succ hm)

theorem mergeWith_map_some (first : Tree α) (later : List (Tree α)) :
    mergeWith stop ((first :: later).map some) = some (mergeOnto stop first later) := by
  rw [mergeWith, List.filterMap_map]
  simp

theorem mergeOnto_of_stop {first : Tree α} (h : stop first = true) (later : List (Tree α)) :
    mergeOnto stop first later = first := if_pos h

/-- Up to there, the trees by themselves merge to the same. -/
theorem exists_gather_eq_mergeOnto (stop : Tree α → Bool) (first : Tree α)
    (later : List (Tree α)) : ∃ n ≤ later.length,
    gather stop first later = mergeOnto stop first (later.take n) ∧
    (n < later.length → stop (gather stop first later) = true) ∧
    ∀ m < n, stop (mergeOnto stop first (later.take m)) = false := by
  obtain ⟨n, hLength, hGather, hStop, hBefore⟩ := gather_eq_foldl stop later first
  refine ⟨n, hLength, ?_, hStop, fun m hm => ?_⟩
  · by_cases hFirst : stop first = true
    · rw [gather_of_stop hFirst, mergeOnto_of_stop hFirst]
    · rw [mergeOnto, if_neg hFirst, hGather]
  · have hFirst : stop first = false := hBefore 0 (Nat.zero_lt_of_lt hm)
    rw [mergeOnto, hFirst]
    exact hBefore m hm

/-- Unless some of the trees merge to something indivisible, at least two and not all, all of them
merge to what comes together. -/
theorem gather_eq_mergeOnto {first : Tree α} {later : List (Tree α)}
    (h : ∀ n, 0 < n → n < later.length → stop (mergeOnto stop first (later.take n)) = true →
      stop first = true) : gather stop first later = mergeOnto stop first later := by
  by_cases hFirst : stop first = true
  · rw [gather_of_stop hFirst, mergeOnto_of_stop hFirst]
  · obtain ⟨n, hLength, hGather, hEnd, -⟩ := exists_gather_eq_mergeOnto stop first later
    rcases Nat.eq_or_lt_of_le hLength with rfl | hn
    · rw [hGather, List.take_length]
    · have hIndivisible := hEnd hn
      rw [hGather] at hIndivisible
      cases n with
      | zero =>
        rw [List.take_zero, mergeOnto, if_neg hFirst] at hIndivisible
        exact absurd hIndivisible hFirst
      | succ n => exact absurd (h (n + 1) n.succ_pos hn hIndivisible) hFirst

theorem mergeWith_under {first : Tree α} {later : List (Tree α)} {key : String}
    (hStop : ∀ t ∈ first :: later, stop (table [(key, t)]) = false) :
    mergeWith stop ((first :: later).map fun t => some (table [(key, t)])) =
      some (table [(key, gather stop first later)]) := by
  rw [List.forall_mem_cons] at hStop
  have hMap : ((first :: later).map fun t => some (table [(key, t)])) =
      (table [(key, first)] :: later.map fun t => table [(key, t)]).map some := by simp
  rw [hMap, mergeWith_map_some, mergeOnto, hStop.1, if_neg Bool.false_ne_true,
    foldl_extend_under hStop.2]

/-- **Trees under a key.** Tables that are divisible, and have one entry each, all at the same key,
merge to one with an entry there. This is what those trees merge to that come up to the first
indivisible result, or all of them. So it is what all of them merge to, unless some of them do
merge to something indivisible, at least two and not all, although the first one is divisible. -/
theorem mergeWith_under_key {trees : List (Tree α)} {key : String} (hNonempty : trees ≠ [])
    (hStop : ∀ t ∈ trees, stop (table [(key, t)]) = false) :
    (∃ n merged, n ≤ trees.length ∧ mergeWith stop ((trees.take n).map some) = some merged ∧
      (n < trees.length → stop merged = true) ∧
      (∀ m < n, ∀ fewer, mergeWith stop ((trees.take m).map some) = some fewer →
        stop fewer = false) ∧
      mergeWith stop (trees.map fun t => some (table [(key, t)])) =
        some (table [(key, merged)])) ∧
    ((∀ m fewer, 1 < m → m < trees.length → mergeWith stop ((trees.take m).map some) = some fewer →
        stop fewer = true → ∃ first ∈ trees.head?, stop first = true) →
      mergeWith stop (trees.map fun t => some (table [(key, t)])) =
        (mergeWith stop (trees.map some)).map fun merged => table [(key, merged)]) := by
  obtain ⟨first, later, rfl⟩ := List.exists_cons_of_ne_nil hNonempty
  have hTake : ∀ n, mergeWith stop (((first :: later).take (n + 1)).map some) =
      some (mergeOnto stop first (later.take n)) := fun n => by
    rw [List.take_succ_cons, mergeWith_map_some]
  rw [mergeWith_under hStop]
  refine ⟨?_, fun hFew => ?_⟩
  · obtain ⟨n, hLength, hGather, hEnd, hBefore⟩ := exists_gather_eq_mergeOnto stop first later
    refine ⟨n + 1, gather stop first later, Nat.succ_le_succ hLength, (hTake n).trans ?_,
      fun hn => hEnd (Nat.lt_of_succ_lt_succ hn), fun m hm fewer hFewer => ?_, rfl⟩
    · rw [hGather]
    · cases m with
      | zero => cases hFewer
      | succ m =>
        cases (hTake m).symm.trans hFewer
        exact hBefore m (Nat.lt_of_succ_lt_succ hm)
  · rw [mergeWith_map_some, Option.map_some, gather_eq_mergeOnto fun n hPos hn hIndivisible => ?_]
    obtain ⟨other, hOther, hOtherStop⟩ :=
      hFew (n + 1) _ (Nat.succ_lt_succ hPos) (Nat.succ_lt_succ hn) (hTake n) hIndivisible
    cases hOther
    exact hOtherStop

end

/-- Sequences of at least two items. -/
def isLong (t : Value) : Bool := decide (2 ≤ (t.items?.getD []).length)

/-- Sequences of one item each. -/
def shortSequences : List Value :=
  [.seq [.leaf (.integer 0)], .seq [.leaf (.integer 1)], .seq [.leaf (.integer 2)]]

/-- Under a key, two of the sequences make a long one, and the third is left out. -/
theorem mergeWith_under_key_of_short :
    mergeWith isLong (shortSequences.map fun t => some (.table [("k", t)])) =
      some (.table [("k", .seq [.leaf (.integer 0), .leaf (.integer 1)])]) := by
  have hStop : ∀ t ∈ shortSequences, isLong (.table [("k", t)]) = false := fun _ _ => rfl
  have hNonempty : shortSequences ≠ [] := List.cons_ne_nil _ _
  obtain ⟨⟨n, merged, hLength, hMerged, hEnd, hBefore, hUnder⟩, -⟩ :=
    mergeWith_under_key hNonempty hStop
  rw [hUnder]
  match n, hLength with
  | 0, _ => cases hMerged
  | 1, _ =>
    cases hMerged
    cases hEnd (by decide)
  | 2, _ =>
    cases hMerged
    rfl
  | 3, _ => cases hBefore 2 (by decide) _ rfl

/-- The three sequences by themselves merge to one of all the items. -/
theorem not_mergeWith_under_key :
    ¬ ∀ (stop : Value → Bool) (key : String) (trees : List Value), trees ≠ [] →
      (∀ t ∈ trees, stop (.table [(key, t)]) = false) →
        mergeWith stop (trees.map fun t => some (.table [(key, t)])) =
          (mergeWith stop (trees.map some)).map fun merged => .table [(key, merged)] := by
  intro h
  have hSame := h isLong "k" shortSequences (List.cons_ne_nil _ _) fun _ _ => rfl
  cases hSame

end Tree

end LayeredConfig
