/-!
# LayeredConfig — fields

A table is a list of key–value pairs in strictly ascending key order, each
key once. Keys are ordered by code point. The operations below keep that
order, so a table reads back in the same order whatever was inserted first.

* `Fields.get?`    — the value at a key.
* `Fields.insert`  — the value at a key set or replaced.
* `Fields.Ordered` — the keys ascend strictly.
-/

namespace LayeredConfig

/-- Key–value pairs, meant to be in strictly ascending key order. -/
abbrev Fields (α : Type u) := List (String × α)

namespace Fields

/-- The keys ascend strictly. -/
def Ordered (fields : Fields α) : Prop :=
  fields.Pairwise (fun a b => a.1 < b.1)

instance (fields : Fields α) : Decidable (Ordered fields) :=
  inferInstanceAs (Decidable (List.Pairwise _ _))

/-- The keys, in order. -/
def keys (fields : Fields α) : List String := fields.map (·.1)

/-- The value at `key`. -/
def get? : Fields α → String → Option α
  | [], _ => none
  | (k, a) :: rest, key => if key = k then some a else get? rest key

/-- The fields with `a` at `key`: replaced where the key is present, else put
in its place in the order. -/
def insert (key : String) (a : α) : Fields α → Fields α
  | [] => [(key, a)]
  | (k, b) :: rest =>
    if key = k then (key, a) :: rest
    else if key < k then (key, a) :: (k, b) :: rest
    else (k, b) :: insert key a rest

/-- Each pair inserted in turn: the last value given for a key stays. -/
def ofList (pairs : List (String × α)) : Fields α :=
  pairs.foldl (fun fields (key, a) => insert key a fields) []

-- ---------------------------------------------------------------------------
-- Look-up after insertion
-- ---------------------------------------------------------------------------

@[simp] theorem get?_nil (key : String) : get? ([] : Fields α) key = none := rfl

theorem get?_cons (k : String) (a : α) (rest : Fields α) (key : String) :
    get? ((k, a) :: rest) key = if key = k then some a else get? rest key := rfl

theorem get?_insert_self (key : String) (a : α) (fields : Fields α) :
    get? (insert key a fields) key = some a := by
  induction fields with
  | nil => simp [insert, get?]
  | cons field rest ih =>
    obtain ⟨k, b⟩ := field
    by_cases hk : key = k
    · simp [insert, get?, hk]
    · by_cases hlt : key < k
      · simp [insert, get?, hk, hlt]
      · simp [insert, get?, hk, hlt, ih]

theorem get?_insert_of_ne {key other : String} (h : other ≠ key) (a : α)
    (fields : Fields α) : get? (insert key a fields) other = get? fields other := by
  induction fields with
  | nil => simp [insert, get?, h]
  | cons field rest ih =>
    obtain ⟨k, b⟩ := field
    by_cases hk : key = k
    · subst hk; simp [insert, get?, h]
    · by_cases hlt : key < k
      · simp [insert, get?, hk, hlt, h]
      · simp [insert, get?, hk, hlt, ih]

-- ---------------------------------------------------------------------------
-- Order
-- ---------------------------------------------------------------------------

@[simp] theorem ordered_nil : Ordered ([] : Fields α) := List.Pairwise.nil

theorem ordered_cons {field : String × α} {rest : Fields α} :
    Ordered (field :: rest) ↔ (∀ other ∈ rest, field.1 < other.1) ∧ Ordered rest :=
  List.pairwise_cons

/-- A pair of the fields after an insertion is the one put in or was there. -/
theorem mem_of_mem_insert {key : String} {a : α} {fields : Fields α} {field : String × α}
    (h : field ∈ insert key a fields) : field = (key, a) ∨ field ∈ fields := by
  induction fields with
  | nil => simpa [insert] using h
  | cons head rest ih =>
    obtain ⟨k, b⟩ := head
    by_cases hk : key = k
    · simp only [insert, hk, if_true, List.mem_cons] at h
      rcases h with h | h
      · exact .inl (hk ▸ h)
      · exact .inr (List.mem_cons_of_mem _ h)
    · by_cases hlt : key < k
      · simpa [insert, hk, hlt] using h
      · simp only [insert, hk, hlt, if_false, List.mem_cons] at h
        rcases h with h | h
        · exact .inr (h ▸ List.mem_cons_self)
        · exact (ih h).imp_right (List.mem_cons_of_mem _)

theorem ordered_insert {fields : Fields α} (h : Ordered fields) (key : String) (a : α) :
    Ordered (insert key a fields) := by
  induction fields with
  | nil => simp [insert, ordered_cons]
  | cons head rest ih =>
    obtain ⟨k, b⟩ := head
    have ⟨hHead, hRest⟩ := ordered_cons.1 h
    by_cases hk : key = k
    · subst hk
      simp only [insert, if_true]
      exact ordered_cons.2 ⟨hHead, hRest⟩
    · by_cases hlt : key < k
      · simp only [insert, hk, hlt, if_true, if_false]
        refine ordered_cons.2 ⟨fun other hOther => ?_, h⟩
        rcases List.mem_cons.1 hOther with rfl | hOther
        · exact hlt
        · exact String.lt_trans hlt (hHead other hOther)
      · have hgt : k < key := by
          have hle : k ≤ key := String.not_lt.1 hlt
          apply Decidable.byContradiction
          intro hgt
          exact hk (String.le_antisymm (String.not_lt.1 hgt) hle)
        simp only [insert, hk, hlt, if_false]
        refine ordered_cons.2 ⟨fun other hOther => ?_, ih hRest⟩
        rcases mem_of_mem_insert hOther with rfl | hOther
        · exact hgt
        · exact hHead other hOther

theorem ordered_ofList (pairs : List (String × α)) : Ordered (ofList pairs) := by
  suffices ∀ fields : Fields α, Ordered fields →
      Ordered (pairs.foldl (fun fields (key, a) => insert key a fields) fields) from
    this [] ordered_nil
  induction pairs with
  | nil => exact fun _ h => h
  | cons pair rest ih => exact fun _ h => ih _ (ordered_insert h pair.1 pair.2)

end Fields

end LayeredConfig
