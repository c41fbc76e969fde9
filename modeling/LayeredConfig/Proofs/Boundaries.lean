import LayeredConfig.Proofs.Tokens

/-!
# LayeredConfig — where a text is cut

The tokens of a text can be found in its bytes, without a look at its characters. A loop over the
bytes keeps two places: the one where it is, and the one where the text begins that it has passed
over and not yet cut out. It looks at one byte and the next.

A byte below 128 is a character of its own, and all others are parts of characters that are no
delimiters. So the loop never stops within a character: wherever it is, what it has yet to find is
what the scan has yet to find (`TemplateToken.Span.GoesOn`, kept by each step).

* `Utf8.slice?`                — what is between two places, unless one is within a character.
* `TemplateToken.Span.spans`   — the tokens in the bytes of a text.
* `TemplateToken.Span.map_token?_spans` — they are cut out as the tokens of the scan.
* `TemplateToken.tokenization_at_boundaries` — a text has these tokens and no others, and is cut
  between characters.
-/

namespace LayeredConfig

-- ---------------------------------------------------------------------------
-- Bytes and places of a text
-- ---------------------------------------------------------------------------

namespace Utf8

/-- A character of the text begins at the place, or the text ends there. -/
abbrev IsBoundary (source : String) (place : Nat) : Prop := String.Pos.Raw.IsValid source ⟨place⟩

/-- What is between two places of a text, unless one of them is within a character. -/
def slice? (source : String) (start stop : Nat) : Option String :=
  if h : IsBoundary source start ∧ IsBoundary source stop ∧ start ≤ stop then
    some (String.extract (⟨⟨start⟩, h.1⟩ : source.Pos) ⟨⟨stop⟩, h.2.1⟩)
  else
    none

section

variable {c : Char} {byte : UInt8}

theorem le_of_mem_utf8EncodeChar (hc : 128 ≤ c.toNat) (h : byte ∈ String.utf8EncodeChar c) :
    128 ≤ byte.toNat := by
  have hVal : ¬ c.val.toNat ≤ 127 := Nat.not_le.2 hc
  rw [String.utf8EncodeChar] at h
  simp only [if_neg hVal] at h
  split_ifs at h <;> simp only [List.mem_cons, List.not_mem_nil, or_false] at h
  · rcases h with rfl | rfl <;> simp only [UInt8.toNat_ofNat'] <;> omega
  · rcases h with rfl | rfl | rfl <;> simp only [UInt8.toNat_ofNat'] <;> omega
  · rcases h with rfl | rfl | rfl | rfl <;> simp only [UInt8.toNat_ofNat'] <;> omega

/-- A byte below 128 is all that the character has, and is the character. -/
theorem eq_of_mem_utf8EncodeChar (h : byte ∈ String.utf8EncodeChar c)
    (hByte : (Char.ofUInt8 byte).toNat < 128) :
    String.utf8EncodeChar c = [byte] ∧ Char.ofUInt8 byte = c := by
  have hc : c.toNat < 128 := by
    by_contra hc
    exact absurd (le_of_mem_utf8EncodeChar (Nat.not_lt.1 hc) h) (Nat.not_le.2 hByte)
  have hEncoded : String.utf8EncodeChar c = [UInt8.ofNat c.toNat] := by
    rw [String.utf8EncodeChar]
    exact if_pos (Nat.le_of_lt_succ hc)
  rw [hEncoded, List.mem_singleton] at h
  refine ⟨h ▸ hEncoded, Char.toNat_inj.1 ?_⟩
  rw [h]
  show (UInt8.ofNat c.toNat).toUInt32.toNat = c.toNat
  rw [UInt8.toNat_toUInt32, UInt8.toNat_ofNat', Nat.mod_eq_of_lt (by omega)]

end

theorem getElem?_eq_getElem?_toList (bytes : ByteArray) (i : Nat) :
    bytes[i]? = bytes.data.toList[i]? := by
  rw [getElem?_def, getElem?_def]
  rfl

theorem size_utf8Encode (chars : List Char) : chars.utf8Encode.size = String.utf8Len chars := by
  rw [← String.toByteArray_ofList]
  exact congrArg String.Pos.Raw.byteIdx (String.rawEndPos_ofList chars)

section

variable {source : String} {front run rest : List Char}

/-- Behind some characters are the bytes of the others. -/
theorem drop_bytes (h : source = String.ofList (front ++ rest)) :
    source.toByteArray.data.toList.drop (String.utf8Len front) =
      rest.flatMap String.utf8EncodeChar := by
  have hSize : front.utf8Encode.data.toList.length = String.utf8Len front := size_utf8Encode front
  rw [h, String.toByteArray_ofList, List.utf8Encode_append, ByteArray.toList_data_append,
    List.drop_left' hSize, List.utf8Encode, List.toList_data_toByteArray]

theorem isBoundary_utf8Len (h : source = String.ofList (front ++ rest)) :
    IsBoundary source (String.utf8Len front) :=
  String.Pos.Raw.isValid_iff_exists_append.2
    ⟨String.ofList front, String.ofList rest, h.trans String.ofList_append,
      (String.rawEndPos_ofList front).symm⟩

/-- Characters in a row are what is between the places around them. -/
theorem slice?_eq (h : source = String.ofList (front ++ run ++ rest)) :
    slice? source (String.utf8Len front) (String.utf8Len (front ++ run)) =
      some (String.ofList run) := by
  have hStart : IsBoundary source (String.utf8Len front) :=
    isBoundary_utf8Len (h.trans (by rw [List.append_assoc]))
  have hLe : String.utf8Len front ≤ String.utf8Len (front ++ run) := by
    rw [String.utf8Len_append]
    exact Nat.le_add_right _ _
  rw [slice?, dif_pos ⟨hStart, isBoundary_utf8Len h, hLe⟩]
  refine congrArg some (String.toByteArray_inj.1 ?_)
  show source.toByteArray.extract (String.utf8Len front) (String.utf8Len (front ++ run)) = _
  rw [h, String.toByteArray_ofList, String.toByteArray_ofList, ← size_utf8Encode,
    ← size_utf8Encode, List.utf8Encode_append, List.utf8Encode_append, ByteArray.size_append,
    ByteArray.append_assoc]
  -- the bytes of `run` are the first ones behind those of `front`
  exact (ByteArray.extract_append_size_add (i := 0)).trans (ByteArray.extract_append_eq_left rfl)

end

end Utf8

namespace TemplateToken

open Template Utf8

-- ---------------------------------------------------------------------------
-- Delimiters
-- ---------------------------------------------------------------------------

namespace Delimiter

/-- The number of bytes that write it. -/
def size : Delimiter → Nat
  | opening => 2
  | dollar => 2
  | leftBrace => 1
  | rightBrace => 1
  | colon => 1

/-- The delimiter that a byte begins, with the next byte. -/
def ofBytes? (byte : UInt8) (next : Option UInt8) : Option Delimiter :=
  match Char.ofUInt8 byte, next.map Char.ofUInt8 with
  | '$', some '{' => some opening
  | '$', some '$' => some dollar
  | '{', _ => some leftBrace
  | '}', _ => some rightBrace
  | ':', _ => some colon
  | _, _ => none

theorem size_pos (d : Delimiter) : 0 < d.size := by
  cases d <;> decide

theorem utf8Len_write (d : Delimiter) : String.utf8Len d.token.write = d.size := by
  cases d <;> rfl

/-- A delimiter is seen by its first byte and the next one. -/
theorem exists_ofBytes? (d : Delimiter) (rest : List Char) :
    ∃ byte more, (d.token.write ++ rest).flatMap String.utf8EncodeChar = byte :: more ∧
      ofBytes? byte more.head? = some d := by
  cases d <;> exact ⟨_, _, rfl, rfl⟩

/-- None is seen at a byte of a character that makes no token. -/
theorem ofBytes?_eq_none {c : Char} {rest : List Char} (h : IsText c rest) {byte : UInt8}
    {more : List UInt8} (hByte : byte :: more <:+ String.utf8EncodeChar c) :
    ofBytes? byte (more ++ rest.flatMap String.utf8EncodeChar).head? = none := by
  have hChar : ∀ {d : Char}, d.toNat < 128 → Char.ofUInt8 byte = d → c = d ∧ more = [] := by
    rintro d hd rfl
    obtain ⟨hEncoded, hc⟩ := eq_of_mem_utf8EncodeChar (hByte.subset List.mem_cons_self) hd
    rw [hEncoded, List.suffix_cons_iff, List.suffix_nil, List.cons_inj_right] at hByte
    exact ⟨hc.symm, hByte.resolve_right (List.cons_ne_nil _ _)⟩
  -- next to the only byte of a character is the first byte of the next character
  have hNext : ∀ {d : Char}, d.toNat < 128 → more = [] →
      (more ++ rest.flatMap String.utf8EncodeChar).head?.map Char.ofUInt8 = some d →
        ∃ after, rest = d :: after := by
    rintro d hd rfl hHead
    cases rest with
    | nil => cases hHead
    | cons a after =>
      obtain ⟨first, others, hFirst⟩ :=
        List.exists_cons_of_ne_nil (String.utf8EncodeChar_ne_nil (c := a))
      rw [List.nil_append, List.flatMap_cons, hFirst] at hHead
      cases hHead
      have hMem : first ∈ String.utf8EncodeChar a := hFirst ▸ List.mem_cons_self
      exact ⟨after, by rw [(eq_of_mem_utf8EncodeChar hMem hd).2]⟩
  rw [ofBytes?]
  split
  · rename_i hc hd
    obtain ⟨rfl, hMore⟩ := hChar (by decide) hc
    obtain ⟨after, rfl⟩ := hNext (by decide) hMore hd
    exact absurd rfl (h.opening rfl after)
  · rename_i hc hd
    obtain ⟨rfl, hMore⟩ := hChar (by decide) hc
    obtain ⟨after, rfl⟩ := hNext (by decide) hMore hd
    exact absurd rfl (h.dollar rfl after)
  · rename_i hc
    exact absurd (hChar (by decide) hc).1 h.left
  · rename_i hc
    exact absurd (hChar (by decide) hc).1 h.right
  · rename_i hc
    exact absurd (hChar (by decide) hc).1 h.colon
  · rfl

end Delimiter

-- ---------------------------------------------------------------------------
-- The loop over the bytes
-- ---------------------------------------------------------------------------

/-- A token in bytes: the text between two places, or a delimiter. -/
inductive Span where
  | text (start stop : Nat)
  | delimiter (d : Delimiter)
  deriving DecidableEq, Repr

namespace Span

/-- The text that has been passed over, if any. -/
def pending (start stop : Nat) : List Span :=
  if start < stop then [text start stop] else []

/-- The tokens from the place `i` on, where a text that begins at `start` has been passed over. -/
def spansFrom (bytes : ByteArray) (start i : Nat) : List Span :=
  if h : i < bytes.size then
    match Delimiter.ofBytes? bytes[i] bytes[i + 1]? with
    | some d => pending start i ++ delimiter d :: spansFrom bytes (i + d.size) (i + d.size)
    | none => spansFrom bytes start (i + 1)
  else
    pending start bytes.size
  termination_by bytes.size - i
  decreasing_by
    · have hSize : 0 < d.size := d.size_pos
      omega
    · omega

/-- The tokens in the bytes of a text. -/
def spans (source : String) : List Span := spansFrom source.toByteArray 0 0

/-- The token that is cut out of the text; none if that is within a character. -/
def token? (source : String) : Span → Option TemplateToken
  | text start stop => (slice? source start stop).map fun run => .text run.toList
  | delimiter d => some d.token

section

variable {bytes : ByteArray} {start i : Nat}

theorem spansFrom_of_drop_eq_nil (h : bytes.data.toList.drop i = []) :
    spansFrom bytes start i = pending start bytes.size := by
  have hEnd : ¬ i < bytes.size := Nat.not_lt.2 (List.drop_eq_nil_iff.1 h)
  rw [spansFrom, dif_neg hEnd]

theorem spansFrom_of_drop_eq_cons {byte : UInt8} {more : List UInt8}
    (h : bytes.data.toList.drop i = byte :: more) :
    spansFrom bytes start i =
      match Delimiter.ofBytes? byte more.head? with
      | some d => pending start i ++ delimiter d :: spansFrom bytes (i + d.size) (i + d.size)
      | none => spansFrom bytes start (i + 1) := by
  have hByte : bytes[i]? = some byte := by
    rw [getElem?_eq_getElem?_toList, ← List.head?_drop, h, List.head?_cons]
  have hNext : bytes[i + 1]? = more.head? := by
    rw [getElem?_eq_getElem?_toList, ← List.head?_drop, ← List.tail_drop, h, List.tail_cons]
  obtain ⟨hi, hGet⟩ := getElem?_eq_some_iff.1 hByte
  rw [spansFrom, dif_pos hi, hGet, hNext]

/-- Bytes at which no delimiter is seen are passed over. -/
theorem spansFrom_of_drop_eq_append {passed rest : List UInt8}
    (hPassed : ∀ byte more, byte :: more <:+ passed →
      Delimiter.ofBytes? byte (more ++ rest).head? = none)
    (h : bytes.data.toList.drop i = passed ++ rest) :
    spansFrom bytes start i = spansFrom bytes start (i + passed.length) := by
  induction passed generalizing i with
  | nil => rfl
  | cons byte passed ih =>
    rw [List.cons_append] at h
    have hNext : bytes.data.toList.drop (i + 1) = passed ++ rest := by
      rw [← List.tail_drop, h, List.tail_cons]
    rw [spansFrom_of_drop_eq_cons h, hPassed byte passed List.suffix_rfl, List.length_cons,
      Nat.add_comm passed.length, ← Nat.add_assoc]
    exact ih (fun d more hMore => hPassed d more (hMore.trans (List.suffix_cons byte passed))) hNext

end

-- ---------------------------------------------------------------------------
-- The loop goes on as the scan does
-- ---------------------------------------------------------------------------

/-- With `front` cut out and `run` passed over, the loop finds in the bytes of `rest` what the scan
finds in `rest`. -/
def GoesOn (source : String) (front run rest : List Char) : Prop :=
  (spansFrom source.toByteArray (String.utf8Len front) (String.utf8Len (front ++ run))).map
    (token? source) = (run.foldr consTextChar (scan rest)).map some

section

variable {source : String} {front run rest : List Char}

/-- What has been passed over is cut out as the text that it is. -/
theorem map_token?_pending (h : source = String.ofList (front ++ run ++ rest)) :
    (pending (String.utf8Len front) (String.utf8Len (front ++ run))).map (token? source) =
      (ofRun run).map some := by
  cases run with
  | nil =>
    rw [List.append_nil, pending, if_neg (Nat.lt_irrefl _)]
    rfl
  | cons c run =>
    have hLt : String.utf8Len front < String.utf8Len (front ++ c :: run) := by
      have hPos : 0 < c.utf8Size := c.utf8Size_pos
      rw [String.utf8Len_append, String.utf8Len_cons]
      omega
    rw [pending, if_pos hLt, List.map_singleton, token?, slice?_eq h, Option.map_some,
      String.toList_ofList]
    rfl

theorem goesOn_nil (h : source = String.ofList (front ++ run ++ [])) :
    GoesOn source front run [] := by
  have hSize : source.toByteArray.size = String.utf8Len (front ++ run) := by
    rw [h, List.append_nil, String.toByteArray_ofList, size_utf8Encode]
  have hApart : ∀ next more, scan [] ≠ .text next :: more := fun next more hEq => by cases hEq
  rw [GoesOn, spansFrom_of_drop_eq_nil (drop_bytes h), hSize, map_token?_pending h,
    foldr_consTextChar hApart, scan, List.append_nil]

/-- At a delimiter, what has been passed over is cut out, and both places are moved behind it. -/
theorem goesOn_delimiter (d : Delimiter)
    (h : source = String.ofList (front ++ run ++ (d.token.write ++ rest)))
    (hRest : GoesOn source (front ++ run ++ d.token.write) [] rest) :
    GoesOn source front run (d.token.write ++ rest) := by
  obtain ⟨byte, more, hBytes, hDelimiter⟩ := d.exists_ofBytes? rest
  have hApart : ∀ next more, d.token :: scan rest ≠ .text next :: more := fun next more hEq =>
    d.token_ne_text next (List.cons.inj hEq).1
  rw [GoesOn, List.append_nil, String.utf8Len_append, d.utf8Len_write, List.foldr_nil] at hRest
  rw [GoesOn, spansFrom_of_drop_eq_cons ((drop_bytes h).trans hBytes), hDelimiter, d.scan_write,
    foldr_consTextChar hApart]
  simp only [List.map_append, List.map_cons, map_token?_pending h, hRest, token?]

/-- The bytes of a character that makes no token are passed over. -/
theorem goesOn_text {c : Char} (hText : IsText c rest)
    (h : source = String.ofList (front ++ run ++ c :: rest))
    (hRest : GoesOn source front (run ++ [c]) rest) : GoesOn source front run (c :: rest) := by
  have hBytes := drop_bytes h
  rw [List.flatMap_cons] at hBytes
  rw [GoesOn, ← List.append_assoc, String.utf8Len_append (front ++ run), String.utf8Len_cons,
    String.utf8Len_nil, Nat.zero_add, List.foldr_append] at hRest
  rw [GoesOn, spansFrom_of_drop_eq_append (fun _ _ => Delimiter.ofBytes?_eq_none hText) hBytes,
    String.length_utf8EncodeChar, hText.scan_eq]
  exact hRest

/-- **Wherever the loop is, it goes on as the scan does.** -/
theorem goesOn (rest : List Char) : ∀ front run,
    source = String.ofList (front ++ run ++ rest) → GoesOn source front run rest := by
  induction rest using scan_induction with
  | nil => exact fun front run => goesOn_nil
  | delimiter d rest ih =>
    intro front run h
    have hMoved : source = String.ofList (front ++ run ++ d.token.write ++ [] ++ rest) := by
      rw [h, List.append_nil, List.append_assoc _ _ rest]
    exact goesOn_delimiter d h (ih (front ++ run ++ d.token.write) [] hMoved)
  | text c rest hText ih =>
    intro front run h
    have hMoved : source = String.ofList (front ++ (run ++ [c]) ++ rest) := by
      rw [h, ← List.append_assoc, List.append_assoc _ [c], List.singleton_append]
    exact goesOn_text hText h (ih front (run ++ [c]) hMoved)

/-- **The tokens in the bytes are the tokens of the scan**, and each one can be cut out. -/
theorem map_token?_spans (source : String) :
    (spans source).map (token? source) = (scan source.toList).map some :=
  goesOn source.toList [] [] String.ofList_toList.symm

theorem isBoundary_of_mem_spans {start stop : Nat} (h : text start stop ∈ spans source) :
    IsBoundary source start ∧ IsBoundary source stop := by
  have hMem : token? source (text start stop) ∈ (scan source.toList).map some :=
    map_token?_spans source ▸ List.mem_map_of_mem h
  obtain ⟨token, -, hToken⟩ := List.mem_map.1 hMem
  rw [token?, slice?] at hToken
  split at hToken
  · rename_i hPlaces
    exact ⟨hPlaces.1, hPlaces.2.1⟩
  · cases hToken

end

end Span

-- ---------------------------------------------------------------------------
-- The tokens of a text
-- ---------------------------------------------------------------------------

/-- **The tokens of a text.** No tokens but those of the scan write the text with texts as they
should be. A loop over the bytes finds them, and cuts each text out between characters. -/
theorem tokenization_at_boundaries (source : String) :
    (∀ tokens, IsTokenization source.toList tokens ↔ tokens = scan source.toList) ∧
      (Span.spans source).map (Span.token? source) = (scan source.toList).map some ∧
      ∀ start stop, .text start stop ∈ Span.spans source →
        IsBoundary source start ∧ IsBoundary source stop :=
  ⟨fun _ => isTokenization_iff, Span.map_token?_spans source,
    fun _ _ => Span.isBoundary_of_mem_spans⟩

/-- Three dollar signs behind a character of four bytes, and one at the end. -/
theorem tokenization_at_boundaries_of_dollars :
    IsTokenization "😀$$$\x7bü:$".toList
        [.text ['😀'], .dollar, .opening, .text ['ü'], .colon, .text ['$']] ∧
      .text 8 10 ∈ Span.spans "😀$$$\x7bü:$" ∧
      IsBoundary "😀$$$\x7bü:$" 8 ∧ IsBoundary "😀$$$\x7bü:$" 10 := by
  obtain ⟨hTokens, -, hPlaces⟩ := tokenization_at_boundaries "😀$$$\x7bü:$"
  have hSpan : .text 8 10 ∈ Span.spans "😀$$$\x7bü:$" := by decide +kernel
  exact ⟨(hTokens _).2 (by decide), hSpan, hPlaces 8 10 hSpan⟩

end TemplateToken

end LayeredConfig
