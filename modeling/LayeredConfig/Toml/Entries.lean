/-!
# LayeredConfig — entries as they are written

The entries of a TOML table in the order they are written, each key once. The
order is kept because the first entry may say what the table stands for.

* `Toml.put`     — an entry put in where its key stands, else at the end.
* `Toml.putLast` — an entry put in at the end, wherever its key stood.

Both read back alike: `List.lookup` finds what was put in.
-/

namespace LayeredConfig

namespace Toml

/-- Keys and what stands at them, in the order they are written. -/
abbrev Entries (α : Type u) := List (String × α)

/-- The entries with `a` at `key`: in the place of the entry that is there,
else at the end. -/
def put (key : String) (a : α) : Entries α → Entries α
  | [] => [(key, a)]
  | (k, b) :: rest => if key = k then (key, a) :: rest else (k, b) :: put key a rest

/-- The entries with `a` at `key`, which becomes the last one. -/
def putLast (key : String) (a : α) (entries : Entries α) : Entries α :=
  entries.filter (fun entry => entry.1 != key) ++ [(key, a)]

-- ---------------------------------------------------------------------------
-- Look-up
-- ---------------------------------------------------------------------------

theorem lookup_put_self (key : String) (a : α) (entries : Entries α) :
    (put key a entries).lookup key = some a := by
  induction entries with
  | nil => simp [put]
  | cons entry rest ih =>
    obtain ⟨k, b⟩ := entry
    by_cases hk : key = k
    · simp [put, hk]
    · have hb : (key == k) = false := beq_false_of_ne hk
      simp [put, hk, List.lookup_cons, hb, ih]

theorem lookup_putLast_self (key : String) (a : α) (entries : Entries α) :
    (putLast key a entries).lookup key = some a := by
  induction entries with
  | nil => simp [putLast]
  | cons entry rest ih =>
    obtain ⟨k, b⟩ := entry
    by_cases hk : k = key
    · simpa [putLast, hk] using ih
    · have hb : (key == k) = false := beq_false_of_ne (Ne.symm hk)
      simpa [putLast, hk, List.lookup_cons, hb] using ih

end Toml

end LayeredConfig
