import LayeredConfig.Configuration
import LayeredConfig.Proofs.Merge
import LayeredConfig.Proofs.Origins

/-!
# LayeredConfig — values as documents and back

A value is serialized by calls: one for a scalar, and for a sequence or a table one with what
its parts have become. A JSON library answers them with a document. To read a number of the
document, it is asked for a whole number of 64 bits first, and for a float only if it is no
such number. What comes back is the value, but for two things that documents have no place
for: origins, and floats that are not finite.

The library is assumed to answer for numbers as it was given them. Its own numbers may be of
any type. With whole numbers and floats for them, its documents are those of `Value.toJson`.

* `Value.serialize`    — the calls that a value makes.
* `JsonNumbers`        — the numbers of a JSON library.
* `JsonNumbers.Lawful` — what is assumed of them.
* `Value.kept`         — what comes back of a value.
* `Value.toValue_serialize` — it comes back, whatever the library.
* `Configuration.decode_kept` — decoders do not see the difference.
-/

namespace LayeredConfig

-- ---------------------------------------------------------------------------
-- Calls
-- ---------------------------------------------------------------------------

/-- What serialization makes of each kind of value, from what it has made of the parts. -/
structure Serializer (ω : Type) where
  unit : ω
  bool : Bool → ω
  integer : Int64 → ω
  float : Float → ω
  string : String → ω
  sequence : List ω → ω
  table : List (String × ω) → ω

/-- The call for a scalar. -/
def Scalar.serialize (S : Serializer ω) : Scalar → ω
  | null => S.unit
  | bool b => S.bool b
  | integer i => S.integer i
  | float x => S.float x
  | text t => S.string t.text

namespace Value

mutual

/-- The calls for a value: items from the left, entries in key order. -/
def serialize (S : Serializer ω) : Value → ω
  | .leaf s => s.serialize S
  | .seq items => S.sequence (serializeItems S items)
  | .table entries => S.table (serializeEntries S entries)

def serializeItems (S : Serializer ω) : List (Tree Scalar) → List ω
  | [] => []
  | v :: rest => serialize S v :: serializeItems S rest

def serializeEntries (S : Serializer ω) : List (String × Tree Scalar) → List (String × ω)
  | [] => []
  | (key, v) :: rest => (key, serialize S v) :: serializeEntries S rest

end

theorem serializeItems_eq (S : Serializer ω) (items : List Value) :
    serializeItems S items = items.map (serialize S) := by
  induction items with
  | nil => rfl
  | cons v rest ih => rw [serializeItems, ih, List.map_cons]

theorem serializeEntries_eq (S : Serializer ω) (entries : List (String × Value)) :
    serializeEntries S entries = entries.map fun entry => (entry.1, serialize S entry.2) := by
  induction entries with
  | nil => rfl
  | cons entry rest ih => rw [serializeEntries, ih, List.map_cons]

end Value

-- ---------------------------------------------------------------------------
-- Fields in order
-- ---------------------------------------------------------------------------

namespace Fields

theorem insert_of_lt {fields : Fields α} {key : String} (h : ∀ field ∈ fields, field.1 < key)
    (a : α) : insert key a fields = fields ++ [(key, a)] := by
  induction fields with
  | nil => rfl
  | cons field rest ih =>
    obtain ⟨k, b⟩ := field
    rw [List.forall_mem_cons] at h
    have hNe : key ≠ k := by
      rintro rfl
      exact String.lt_irrefl key h.1
    have hNotLt : ¬ key < k := fun hlt => String.lt_irrefl key (String.lt_trans hlt h.1)
    rw [insert, if_neg hNe, if_neg hNotLt, ih h.2, List.cons_append]

/-- Pairs in order are inserted one behind the other. -/
theorem foldl_insert_of_ordered {fields : Fields α} : ∀ {front : Fields α},
    Ordered (front ++ fields) →
      fields.foldl (fun acc field => insert field.1 field.2 acc) front = front ++ fields := by
  induction fields with
  | nil => exact fun {front} _ => (List.append_nil front).symm
  | cons field rest ih =>
    intro front h
    have hLast : ∀ other ∈ front, other.1 < field.1 :=
      fun other hOther => (List.pairwise_append.1 h).2.2 other hOther field List.mem_cons_self
    rw [List.append_cons] at h ⊢
    rw [List.foldl_cons, insert_of_lt hLast]
    exact ih h

theorem ofList_of_ordered {fields : Fields α} (h : Ordered fields) : ofList fields = fields := by
  have hOrdered : Ordered ([] ++ fields) := h
  exact foldl_insert_of_ordered hOrdered

end Fields

-- ---------------------------------------------------------------------------
-- JSON libraries
-- ---------------------------------------------------------------------------

/-- The numbers of a JSON library: how they are made, and what they answer. -/
structure JsonNumbers (ν : Type) where
  ofInteger : Int64 → ν
  ofFloat? : Float → Option ν
  integer? : ν → Option Int64
  float? : ν → Option Float

/-- A number answers as what it was made of. It is made of any whole number of 64 bits, and
of a float just if this is finite. -/
structure JsonNumbers.Lawful (N : JsonNumbers ν) : Prop where
  of_integer : ∀ i, N.integer? (N.ofInteger i) = some i
  of_finite : ∀ x, x.isFinite = true →
    ∃ n, N.ofFloat? x = some n ∧ N.integer? n = none ∧ N.float? n = some x
  of_not_finite : ∀ x, x.isFinite = false → N.ofFloat? x = none

/-- A value without parts in the documents of a library. -/
inductive DocumentScalar (ν : Type) where
  | null
  | bool (b : Bool)
  | number (n : ν)
  | string (s : String)

/-- A document of a library; the members of an object are in key order. -/
abbrev Document (ν : Type) := Tree (DocumentScalar ν)

namespace JsonNumbers

/-- The scalar in a document: a float is a number if there is one for it, and else null. -/
def scalar (N : JsonNumbers ν) : Scalar → DocumentScalar ν
  | .null => .null
  | .bool b => .bool b
  | .integer i => .number (N.ofInteger i)
  | .float x => (N.ofFloat? x).elim .null .number
  | .text t => .string t.text

/-- The document that calls describe. -/
def serializer (N : JsonNumbers ν) : Serializer (Document ν) where
  unit := .leaf (N.scalar .null)
  bool b := .leaf (N.scalar (.bool b))
  integer i := .leaf (N.scalar (.integer i))
  float x := .leaf (N.scalar (.float x))
  string s := .leaf (N.scalar (.text (.plain s)))
  sequence := .seq
  table entries := .table (Fields.ofList entries)

/-- The scalar that stands in a document. -/
def readScalar (N : JsonNumbers ν) : DocumentScalar ν → Scalar
  | .null => .null
  | .bool b => .bool b
  | .number n =>
    match N.integer? n with
    | some i => .integer i
    | none => (N.float? n).elim .null .float
  | .string s => .text (.plain s)

/-- The value that a document holds. -/
def toValue (N : JsonNumbers ν) (d : Document ν) : Value := d.map N.readScalar

end JsonNumbers

-- ---------------------------------------------------------------------------
-- What is kept
-- ---------------------------------------------------------------------------

/-- The scalar as it comes back: null for a float that is not finite, a text without its
origin, and any other scalar itself. -/
def Scalar.kept : Scalar → Scalar
  | float x => if x.isNaN || x.isInf then null else float x
  | s => s.bare

/-- The value with all its scalars as they come back. -/
def Value.kept (v : Value) : Value := v.map Scalar.kept

theorem isFinite_eq (x : Float) : x.isFinite = !(x.isNaN || x.isInf) := by
  unfold Float.isFinite Float.isNaN Float.isInf Float.Model.isFinite Float.Model.isNaN
    Float.Model.isInf
  cases x.toModel.unpack <;> rfl

theorem Scalar.kept_float (x : Float) :
    (Scalar.float x).kept = if x.isFinite then .float x else .null := by
  rw [kept, isFinite_eq]
  cases x.isNaN || x.isInf <;> rfl

namespace JsonNumbers

variable {N : JsonNumbers ν}

theorem readScalar_scalar (hN : N.Lawful) (s : Scalar) : N.readScalar (N.scalar s) = s.kept := by
  cases s with
  | integer i =>
    rw [scalar, readScalar, hN.of_integer]
    rfl
  | float x =>
    rw [Scalar.kept_float, scalar]
    cases hFinite : x.isFinite with
    | false =>
      rw [hN.of_not_finite x hFinite]
      rfl
    | true =>
      obtain ⟨n, hNumber, hInteger, hFloat⟩ := hN.of_finite x hFinite
      rw [hNumber, Option.elim, readScalar, hInteger, hFloat]
      rfl
  | _ => rfl

/-- The document has the scalars of the value where the value has them. -/
theorem serialize_eq_map (N : JsonNumbers ν) {v : Value} (hv : v.WellFormed) :
    v.serialize N.serializer = v.map N.scalar := by
  induction v using Tree.induction with
  | leaf s => cases s <;> rfl
  | seq items ih =>
    rw [Value.serialize, Value.serializeItems_eq, Tree.map, Tree.mapItems_eq]
    refine congrArg Tree.seq (List.map_congr_left fun t ht => ?_)
    exact ih t ht ((Tree.wellFormedItems_iff items).1 hv t ht)
  | table entries ih =>
    have hEntries : entries.map (fun entry => (entry.1, Value.serialize N.serializer entry.2)) =
        entries.map fun entry => (entry.1, entry.2.map N.scalar) := by
      refine List.map_congr_left fun entry he => ?_
      rw [ih entry he ((Tree.wellFormedEntries_iff entries).1 hv.2 entry he)]
    have hOrdered : Fields.Ordered (entries.map fun entry => (entry.1, entry.2.map N.scalar)) :=
      List.pairwise_map.2 hv.1
    rw [Value.serialize, Value.serializeEntries_eq, hEntries, Tree.map, Tree.mapEntries_eq]
    exact congrArg Tree.table (Fields.ofList_of_ordered hOrdered)

theorem toValue_serialize (hN : N.Lawful) {v : Value} (hv : v.WellFormed) :
    N.toValue (v.serialize N.serializer) = v.kept := by
  rw [serialize_eq_map N hv, toValue, Tree.map_map, Value.kept]
  simp only [readScalar_scalar hN]

end JsonNumbers

-- ---------------------------------------------------------------------------
-- Whole numbers and floats
-- ---------------------------------------------------------------------------

namespace JsonScalar

/-- Whole numbers and floats as the numbers of a library. -/
def numbers : JsonNumbers (Int ⊕ Float) where
  ofInteger i := .inl i.toInt
  ofFloat? x := if x.isFinite then some (.inr x) else none
  integer?
    | .inl n =>
      if Int64.minValue.toInt ≤ n ∧ n ≤ Int64.maxValue.toInt then some (Int64.ofInt n) else none
    | .inr _ => none
  float?
    | .inl n => some (Float.ofInt n)
    | .inr x => some x

theorem lawful_numbers : numbers.Lawful where
  of_integer i := by
    show (if _ then _ else _) = _
    rw [if_pos ⟨i.minValue_le_toInt, i.toInt_le⟩, Int64.ofInt_toInt]
  of_finite x h := ⟨.inr x, if_pos h, rfl, rfl⟩
  of_not_finite x h := if_neg (by rw [h]; exact Bool.false_ne_true)

/-- The scalar with its number as one of them. -/
def document : JsonScalar → DocumentScalar (Int ⊕ Float)
  | null => .null
  | bool b => .bool b
  | integer n => .number (.inl n)
  | float x => .number (.inr x)
  | string s => .string s

theorem document_toJson (s : Scalar) : s.toJson.document = numbers.scalar s := by
  cases s with
  | float x =>
    show (if x.isFinite then JsonScalar.float x else .null).document =
      (if x.isFinite then some (Sum.inr x) else none).elim .null .number
    cases x.isFinite <;> rfl
  | _ => rfl

theorem readScalar_document (s : JsonScalar) :
    numbers.readScalar s.document = Scalar.ofJson s := by
  cases s with
  | integer n =>
    by_cases hRange : Int64.minValue.toInt ≤ n ∧ n ≤ Int64.maxValue.toInt
    · have hAnswer : numbers.integer? (.inl n) = some (Int64.ofInt n) := if_pos hRange
      rw [document, JsonNumbers.readScalar, hAnswer, Scalar.ofJson, if_pos hRange]
    · have hAnswer : numbers.integer? (.inl n) = none := if_neg hRange
      rw [document, JsonNumbers.readScalar, hAnswer, Scalar.ofJson, if_neg hRange]
      rfl
  | _ => rfl

end JsonScalar

namespace Value

/-- The document of a value is the one that serialization makes. -/
theorem map_document_toJson {v : Value} (hv : v.WellFormed) :
    (toJson v).map JsonScalar.document = v.serialize JsonScalar.numbers.serializer := by
  rw [JsonNumbers.serialize_eq_map _ hv, toJson, Tree.map_map]
  simp only [JsonScalar.document_toJson]

/-- The value that a document holds is what is read from it by asking its numbers. -/
theorem toValue_map_document (d : Json) :
    JsonScalar.numbers.toValue (d.map JsonScalar.document) = ofJson d := by
  rw [JsonNumbers.toValue, Tree.map_map, ofJson]
  simp only [JsonScalar.readScalar_document]

/-- **A value comes back from its document without origins, with null for floats that are not
finite, and else as it was.** This is so for all libraries whose numbers answer as what they
were made of, and so for the documents that are made here: these are what serialization makes
of whole numbers and floats, and are read by asking these first for a whole number. What
stands at a location stands there again. -/
theorem ofJson_toJson_eq_kept {v : Value} (hv : v.WellFormed) :
    (∀ {ν : Type} {N : JsonNumbers ν}, N.Lawful →
      N.toValue (v.serialize N.serializer) = v.kept) ∧
    (toJson v).map JsonScalar.document = v.serialize JsonScalar.numbers.serializer ∧
    (∀ d, ofJson d = JsonScalar.numbers.toValue (d.map JsonScalar.document)) ∧
    ofJson (toJson v) = v.kept ∧
    ∀ location, (ofJson (toJson v)).at? location = (v.at? location).map kept := by
  have hBack : ofJson (toJson v) = v.kept := by
    rw [← toValue_map_document, map_document_toJson hv]
    exact JsonNumbers.toValue_serialize JsonScalar.lawful_numbers hv
  refine ⟨fun hN => JsonNumbers.toValue_serialize hN hv, map_document_toJson hv,
    fun d => (toValue_map_document d).symm, hBack, fun location => ?_⟩
  rw [hBack]
  exact Tree.at?_map Scalar.kept location v

/-- Floats that are not finite, negative zero, the largest and smallest whole numbers, and a
text with an origin. -/
def extremes : Value :=
  .table [("floats", .seq [.leaf (.float (0.0 / 0.0)), .leaf (.float (1.0 / 0.0)),
      .leaf (.float (-0.0)), .leaf (.float 1.0)]),
    ("integers", .seq [.leaf (.integer Int64.minValue), .leaf (.integer Int64.maxValue)]),
    ("text", .leaf (.text ⟨"a", some "/d"⟩))]

theorem ofJson_toJson_eq_kept_of_extremes :
    extremes.WellFormed ∧ JsonScalar.numbers.Lawful ∧
      JsonScalar.numbers.toValue (extremes.serialize JsonScalar.numbers.serializer) =
        ofJson (toJson extremes) ∧
      ofJson (toJson extremes) =
        .table [("floats", .seq [.leaf .null, .leaf .null, .leaf (.float (-0.0)),
            .leaf (.float 1.0)]),
          ("integers", .seq [.leaf (.integer Int64.minValue), .leaf (.integer Int64.maxValue)]),
          ("text", .leaf (.text (.plain "a")))] := by
  have hWf : extremes.WellFormed :=
    ⟨by decide, ⟨trivial, trivial, trivial, trivial, trivial⟩, ⟨trivial, trivial, trivial⟩, trivial,
      trivial⟩
  obtain ⟨hAny, -, -, hBack, -⟩ := ofJson_toJson_eq_kept hWf
  have hNan : (Scalar.float (0.0 / 0.0)).kept = .null := by decide
  have hInfinite : (Scalar.float (1.0 / 0.0)).kept = .null := by decide
  have hZero : (Scalar.float (-0.0)).kept = .float (-0.0) := by decide
  have hOne : (Scalar.float 1.0).kept = .float 1.0 := by decide
  refine ⟨hWf, JsonScalar.lawful_numbers, (hAny JsonScalar.lawful_numbers).trans hBack.symm, ?_⟩
  rw [hBack]
  simp only [kept, extremes, Tree.map, Tree.mapEntries, Tree.mapItems, hNan, hInfinite, hZero, hOne]
  rfl

end Value

theorem Scalar.toJson_kept (s : Scalar) : s.kept.toJson = s.toJson := by
  cases s with
  | float x =>
    rw [kept_float]
    cases hFinite : x.isFinite with
    | false => simp [toJson, hFinite]
    | true => rfl
  | _ => rfl

/-- What comes back has the document of the value. -/
theorem Value.toJson_kept (v : Value) : toJson v.kept = toJson v := by
  rw [toJson, kept, Tree.map_map, toJson]
  simp only [Scalar.toJson_kept]

/-- A decoder makes the same of a tree that has been to a document and back. -/
theorem Configuration.decode_kept (v : Value) (d : Decoder α) :
    decode ⟨v.kept⟩ d = decode ⟨v⟩ d := by
  rw [decode, decode, data, data, Value.toJson_kept]

end LayeredConfig
