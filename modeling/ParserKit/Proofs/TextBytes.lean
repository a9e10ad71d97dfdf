import ParserKit.Proofs.TextPosition

/-!
# Words by their bytes

A word is compared with a text character by character. Compared byte by byte, the answer is the
same, and at any offset: the first byte of a character says that it is one, so where the bytes of a
word stand in a text, no character is cut, and the bytes of a character are told from whatever
follows them.

A byte offset up to the end of a text is a boundary or lies strictly inside one character
(`Text.Inside`), never both.

## Key results

- `Before.bytes_drop`: the bytes that are left at an offset
- `bytes_prefix_iff`: a beginning of the characters is a beginning of the bytes
- `isBoundary_of_bytes`: where a character is found by its bytes, there is a boundary
- `startsWithAt_iff_bytes`: which words stand at an offset, by their bytes
- `inside_iff`: the offsets inside a character are those in the text that are no boundaries
-/

namespace ParserKit.Text

/-- The bytes of a text. -/
def bytes (s : String) : List UInt8 := s.toByteArray.data.toList

/-- Texts put one behind the other have their bytes one behind the other. -/
@[simp] theorem bytes_append (s t : String) : bytes (s ++ t) = bytes s ++ bytes t := by
  simp only [bytes, String.toByteArray_append, ByteArray.data_append, Array.toList_append]

/-- A text has as many bytes as its size says. -/
@[simp] theorem length_bytes (s : String) : (bytes s).length = s.utf8ByteSize := by
  simp only [bytes, Array.length_toList]
  rfl

/-- At a boundary the bytes that are left are those of the characters that are left. -/
theorem Before.bytes_drop {s : String} {o : Nat} {cs : List Char} (h : Before s o cs) :
    (bytes s).drop o = bytes (String.ofList cs) := by
  obtain ⟨pre, hs, rfl⟩ := h
  have hsplit : s = String.ofList pre ++ String.ofList cs := by
    rw [← String.ofList_append, ← hs, String.ofList_toList]
  have hpre : (bytes (String.ofList pre)).length = width pre := length_bytes _
  rw [hsplit, bytes_append, ← hpre, List.drop_left]

/-- A text begins with a word if its bytes begin with those of the word: no character is encoded as
    the beginning of another one. -/
theorem bytes_prefix_iff {w s : String} : bytes w <+: bytes s ↔ w.toList <+: s.toList := by
  constructor
  · rintro ⟨rest, hrest⟩
    have hencode : w.toList.utf8Encode ++ ⟨rest.toArray⟩ = s.toList.utf8Encode := by
      rw [String.utf8Encode_toList, String.utf8Encode_toList]
      apply ByteArray.ext
      apply Array.toList_inj.1
      rw [ByteArray.data_append, Array.toList_append]
      exact hrest
    -- what is encoded can be read in one way only
    exact List.isPrefix_of_utf8Encode_append_eq_utf8Encode _ hencode
  · rintro ⟨rest, hrest⟩
    have hsplit : s = w ++ String.ofList rest := by
      rw [← String.toList_inj, String.toList_append, String.toList_ofList, hrest]
    rw [hsplit, bytes_append]
    exact List.prefix_append _ _

/-- A byte that begins a character is at a boundary. -/
private theorem isBoundary_of_firstByte {s : String} {o : Nat} (ho : o < (bytes s).length)
    (h : (bytes s)[o].IsUTF8FirstByte) : isBoundary s o = true := by
  have hlt : (⟨o⟩ : String.Pos.Raw) < s.rawEndPos := by
    rw [length_bytes] at ho
    exact ho
  have hvalid : (⟨o⟩ : String.Pos.Raw).IsValid s := by
    rw [String.Pos.Raw.isValid_iff_isUTF8FirstByte]
    exact .inr ⟨hlt, h⟩
  simp [isBoundary, String.pos?, String.Slice.pos?, hvalid]

/-- Where the bytes of a word stand, there is a boundary, unless the word is empty: its first byte
    begins a character. -/
theorem isBoundary_of_bytes {s w : String} {o : Nat} (hw : w ≠ "")
    (h : bytes w <+: (bytes s).drop o) : isBoundary s o = true := by
  have hpos : 0 < (bytes w).length := by
    rw [length_bytes]
    exact Nat.pos_of_ne_zero fun h => hw (String.utf8ByteSize_eq_zero_iff.1 h)
  have hle := h.length_le
  rw [List.length_drop] at hle
  have ho : o < (bytes s).length := by omega
  -- the first byte of a word begins a character, and it is the byte at the offset
  have hfirst : (bytes w)[0].IsUTF8FirstByte :=
    w.isValidUTF8.isUTF8FirstByte_getElem_zero (by simpa [bytes] using hpos)
  have hsame : (bytes w)[0] = (bytes s)[o] := by
    rw [h.getElem hpos, List.getElem_drop]
    simp
  rw [hsame] at hfirst
  exact isBoundary_of_firstByte ho hfirst

/-- A word stands at an offset if its bytes do. The empty word stands anywhere. -/
theorem startsWithAt_iff_bytes {s w : String} {o : Nat} :
    Cursor.startsWithAt s o w.toList = true ↔ w = "" ∨ bytes w <+: (bytes s).drop o := by
  rw [startsWithAt_iff, String.toList_eq_nil_iff]
  by_cases hw : w = ""
  · simp [hw]
  · simp only [hw, false_or]
    constructor
    · rintro ⟨cs, hcs⟩
      rw [hcs.bytes_drop, bytes_prefix_iff, String.toList_ofList]
      exact List.prefix_append _ _
    · intro h
      -- so there is a boundary, and from there on bytes and characters agree
      obtain ⟨ds, hds⟩ := isBoundary_iff.1 (isBoundary_of_bytes hw h)
      rw [hds.bytes_drop, bytes_prefix_iff, String.toList_ofList] at h
      obtain ⟨cs, rfl⟩ := h
      exact ⟨cs, hds⟩

/-! ## Inside a character -/

/-- Byte `o` of `s` lies strictly inside a character: the character begins before it and ends
    behind it. -/
def Inside (s : String) (o : Nat) : Prop :=
  ∃ pre x cs, s.toList = pre ++ x :: cs ∧ width pre < o ∧ o < width pre + x.utf8Size

/-- A byte of some characters is the first one of a character or lies inside one. -/
private theorem exists_char_around (cs : List Char) {o : Nat} (ho : o < width cs) :
    ∃ pre x rest, cs = pre ++ x :: rest ∧ width pre ≤ o ∧ o < width pre + x.utf8Size := by
  -- the byte belongs to the first character or lies behind it
  induction cs generalizing o with
  | nil =>
    rw [width_nil] at ho
    omega
  | cons y cs ih =>
    by_cases hy : o < y.utf8Size
    · refine ⟨[], y, cs, rfl, ?_, ?_⟩
      · simp
      · simpa using hy
    · rw [width_cons] at ho
      obtain ⟨pre, x, rest, rfl, hle, hlt⟩ := ih (o := o - y.utf8Size) (by omega)
      refine ⟨y :: pre, x, rest, rfl, ?_, ?_⟩
      · rw [width_cons]
        omega
      · rw [width_cons]
        omega

/-- No character is left at an offset inside one. -/
theorem Inside.not_before {s : String} {o : Nat} {cs : List Char} (h : Inside s o) :
    ¬ Before s o cs := by
  rintro ⟨pre', hs', rfl⟩
  obtain ⟨pre, x, rest, hs, hlt, hgt⟩ := h
  rw [hs, List.append_eq_append_iff] at hs'
  -- the boundary would be before the character or behind it
  rcases hs' with ⟨mid, rfl, hmid⟩ | ⟨mid, rfl, -⟩
  · cases mid with
    | nil => simp at hlt
    | cons y mid =>
      obtain ⟨rfl, -⟩ := List.cons.inj hmid
      rw [width_append, width_cons] at hgt
      omega
  · rw [width_append] at hlt
    omega

/-- An offset inside a character is one in the text at which nothing is left. -/
theorem inside_iff {s : String} {o : Nat} :
    Inside s o ↔ o < s.utf8ByteSize ∧ isBoundary s o = false := by
  constructor
  · intro h
    constructor
    · obtain ⟨pre, x, cs, hs, -, hgt⟩ := h
      rw [← width_toList, hs, width_append, width_cons]
      omega
    · rw [Bool.eq_false_iff, ne_eq, isBoundary_iff]
      rintro ⟨cs, hcs⟩
      exact h.not_before hcs
  · rintro ⟨hlt, hnot⟩
    rw [← width_toList] at hlt
    -- the byte is not the first one of its character, or there would be a boundary
    obtain ⟨pre, x, cs, hs, hle, hgt⟩ := exists_char_around s.toList hlt
    refine ⟨pre, x, cs, hs, Nat.lt_of_le_of_ne hle ?_, hgt⟩
    rintro rfl
    have hbefore : Before s (width pre) (x :: cs) := ⟨pre, hs, rfl⟩
    rw [hbefore.isBoundary] at hnot
    cases hnot

end ParserKit.Text
