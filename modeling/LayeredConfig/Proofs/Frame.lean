import LayeredConfig.Proofs.Escaping
import LayeredConfig.Proofs.Explanation
import Mathlib

/-!
# LayeredConfig — what expansion leaves alone

Whatever flows into a text while it is expanded, from resolvers, from other leaves or
from whole sections, comes in the place of that text and nowhere else. The tree around
the texts stays. So does a text in which no reference can open, and a text that becomes
a text stays where it came from: it keeps its own origin, not that of the text that has
flowed into it.

* `Value.SameFrame`             — what a node keeps.
* `Expansion.sameFrame_of_explains` — what the value of a leaf keeps of its text.
* `Value.sameFrame_expand`      — every node keeps that.
-/

namespace LayeredConfig

open Eval History

-- ---------------------------------------------------------------------------
-- Texts without references
-- ---------------------------------------------------------------------------

namespace Template

theorem escape_of_no_dollar {text : String} (h : '$' ∉ text.toList) : escape text = text := by
  have hEach : ∀ chars : List Char, '$' ∉ chars → escapeChars chars = chars := by
    intro chars
    induction chars with
    | nil => exact fun _ => rfl
    | cons c rest ih =>
      intro hNone
      rw [escapeChars_cons_of_ne (List.ne_of_not_mem_cons hNone).symm,
        ih (List.not_mem_of_not_mem_cons hNone)]
  rw [escape, hEach _ h, String.ofList_toList]

/-- A text without dollar signs stands for itself, and nobody is asked about it. -/
theorem interpolate_of_no_dollar {text : String} (h : '$' ∉ text.toList)
    (resolvers : List (Resolver σ)) (subject : Option Text) :
    interpolate resolvers subject text = pure (Value.ofString text) := by
  have hEscaped := interpolate_escape resolvers subject text
  rwa [escape_of_no_dollar h] at hEscaped

end Template

-- ---------------------------------------------------------------------------
-- Nodes before and after
-- ---------------------------------------------------------------------------

namespace Value

/-- What a node keeps when it becomes another one: a table its keys, a sequence its
length, a text without dollar signs everything, any other text its origin as long as it
becomes a text, and all other scalars everything. -/
def SameFrame : Value → Value → Prop
  | .table entries, w => ∃ others, w = .table others ∧
      others.map Prod.fst = entries.map Prod.fst
  | .seq items, w => ∃ others, w = .seq others ∧ others.length = items.length
  | .leaf (.text raw), w => ('$' ∉ raw.text.toList → w = .leaf (.text raw)) ∧
      ∀ new, w = .leaf (.text new) → new.origin = raw.origin
  | .leaf s, w => w = .leaf s

end Value

namespace Expansion

open Draft

-- ---------------------------------------------------------------------------
-- Leaves
-- ---------------------------------------------------------------------------

/-- A text that comes in place of a leaf has the origin of the leaf. -/
theorem origin_of_withOriginOf {leaf : Leaf} {v : Value} {new : Text}
    (h : withOriginOf leaf v = .leaf (.text new)) : new.origin = leaf.raw.origin := by
  rw [withOriginOf.eq_def] at h
  split at h
  · cases h
    rfl
  · rename_i hNot
    exact absurd h (hNot new)

theorem sameFrame_of_explains {rules : ExpansionRules σ} {root : Draft} {h : History} {leaf : Leaf}
    {v : Value} (hExplains : Explains rules root h leaf v) :
    Value.SameFrame (.leaf (.text leaf.raw)) v := by
  obtain ⟨depth, trigger, s, w, s', hRun, -, rfl⟩ := hExplains
  refine ⟨fun hNone => ?_, fun new hNew => origin_of_withOriginOf hNew⟩
  rw [evaluation, interpolateLeaf, Template.interpolate_of_no_dollar hNone] at hRun
  cases hRun
  rfl

-- ---------------------------------------------------------------------------
-- All nodes
-- ---------------------------------------------------------------------------

theorem known_leaf (s : Scalar) : known (.leaf s) = .leaf (.known s) := rfl

/-- Settling the leaves of a node leaves the rest of it alone. -/
theorem sameFrame_of_settle_eq {value? : Leaf → Option Value} {location : Location}
    {node w : Value} (h : settle value? (ofValueAt location node) = known w)
    (hLeaf : ∀ raw, node = .leaf (.text raw) → ∀ x, value? ⟨location, raw⟩ = some x →
      Value.SameFrame node x) : Value.SameFrame node w := by
  cases node with
  | leaf s =>
    cases s with
    | text raw =>
      have hHere : (ofValueAt location (.leaf (.text raw))).at? [] =
          some (.leaf (.deferred ⟨location, raw⟩)) := rfl
      obtain ⟨x, hValue, hAt⟩ := value_at_of_settle_eq h hHere
      cases hAt
      exact hLeaf raw rfl w hValue
    | _ =>
      -- what is known already stays as it is
      rw [ofValueAt, ofScalarAt, ← known_leaf, settle_known] at h
      · exact (known_injective h).symm
      · exact fun raw hText => by cases hText
  | seq items =>
    rw [ofValueAt, settle, Tree.graft_seq] at h
    cases w with
    | seq others =>
      rw [known, Tree.map_seq, Tree.seq.injEq] at h
      have hLength := congrArg List.length h
      rw [List.length_map, List.length_map, length_ofItemsAt] at hLength
      exact ⟨others, rfl, hLength.symm⟩
    | _ => cases h
  | table entries =>
    rw [ofValueAt, settle, Tree.graft_table] at h
    cases w with
    | table others =>
      rw [known, Tree.map_table, Tree.table.injEq] at h
      have hKeys := congrArg (List.map Prod.fst) h
      rw [ofEntriesAt_eq, List.map_map, List.map_map, List.map_map] at hKeys
      exact ⟨others, rfl, hKeys.symm⟩
    | _ => cases h

end Expansion

namespace Value

open Expansion Draft

/-- **Expansion leaves everything but texts alone, and texts where they come from.** -/
theorem sameFrame_expand {t v : Value} (ht : t.WellFormed) {rules : ExpansionRules σ}
    {c c' : σ} (h : (t.expand rules).run c = (.ok v, c')) {location : Location} {node : Value}
    (hNode : t.at? location = some node) :
    ∃ w, v.at? location = some w ∧ SameFrame node w := by
  obtain ⟨s, hRun⟩ := run_all_of_expand h
  obtain ⟨hSettled, hExplained⟩ := explained_of_all ht hRun
  obtain ⟨w, hAt, hBelow⟩ := at?_of_settle_eq hSettled (at?_ofValueAt [] hNode)
  refine ⟨w, hAt, sameFrame_of_settle_eq hBelow ?_⟩
  rintro raw rfl x hValue
  have hLeaf := mem_deferredLeaves_ofValue hNode
  obtain ⟨earlier, -, hExplains⟩ := hExplained.exists_explains hLeaf hValue
  exact sameFrame_of_explains hExplains

/-- A text that others take in, each in a place of its own. -/
def sharedText : Value :=
  .table [("base", .leaf (.text ⟨"/srv", some "/usr/lib"⟩)),
    ("data", .leaf (.text ⟨"$\x7bbase\x7d", some "/etc"⟩)),
    ("logs", .seq [.leaf (.text ⟨"$\x7bbase\x7d/log", none⟩), .leaf .null])]

def sharedTextExpanded : Value :=
  .table [("base", .leaf (.text ⟨"/srv", some "/usr/lib"⟩)),
    ("data", .leaf (.text ⟨"/srv", some "/etc"⟩)),
    ("logs", .seq [.leaf (.text ⟨"/srv/log", none⟩), .leaf .null])]

/-- The text takes on the origin of the place it comes to, and no origin where there is none. -/
theorem sameFrame_expand_of_shared :
    (sharedText.expand .treeOnly).run () = (.ok sharedTextExpanded, ()) ∧
      ∀ location node, sharedText.at? location = some node →
        ∃ w, sharedTextExpanded.at? location = some w ∧ SameFrame node w := by
  have hOrdered : sharedText.WellFormed :=
    ⟨by decide, trivial, trivial, ⟨trivial, trivial, trivial⟩, trivial⟩
  have hRun : (sharedText.expand .treeOnly).run () = (.ok sharedTextExpanded, ()) := by cbv
  exact ⟨hRun, fun _ _ hNode => sameFrame_expand hOrdered hRun hNode⟩

end Value

end LayeredConfig
