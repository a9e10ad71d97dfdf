import Mathlib
import ParserKit.Cursor

/-!
# Byte offsets and characters

A byte offset of a text and the characters that stand behind it. `Text.Before s o cs` says that
byte `o` of `s` is a boundary and that exactly `cs` is left there. Reading a text by offset
(`Text.charAt?`, `Text.isBoundary`, `Cursor.startsWith`) is stated here in terms of `Before`, and
later proofs never look into the bytes of a string again.

## Key results

- `isBoundary_iff`: the boundaries are the offsets with some characters before them
- `charAt?_eq_head?` / `charAt?_eq_some_iff`: the character at an offset is the first one left
- `Before.advance`: reading one character moves on by its width
- `Before.unique`: at one offset there is only one rest
- `slice?_eq_some` / `toList_dropTo`: the text between two boundaries, and behind one
- `startsWithAt_iff`: which words stand at an offset
-/

namespace ParserKit

/-- A sum that fits is an offset. -/
theorem Offset.add_eq_ok {a : Offset} {n : Nat} (h : a.val + n < 0x10000000000000000) :
    Offset.add a n = .ok ⟨a.val + n, h⟩ := by
  rw [Offset.add, Offset.add?, dif_pos h]

/-- A span of a length that fits. -/
theorem Span.ofLength_eq_ok {a : Offset} {n : Nat} (h : a.val + n < 0x10000000000000000) :
    Span.ofLength a n = .ok ⟨a, ⟨a.val + n, h⟩, Nat.le_add_right _ _⟩ := by
  have hle : a.val ≤ (⟨a.val + n, h⟩ : Offset).val := Nat.le_add_right _ _
  simp only [Span.ofLength, Offset.add_eq_ok h, bind, Except.bind, Span.between, dif_pos hle]

/-- A span of `n` bytes, if there is one, ends `n` bytes behind its beginning. -/
theorem Span.stop_of_ofLength {a : Offset} {n : Nat} {s : Span} (h : Span.ofLength a n = .ok s) :
    s.stop.val = a.val + n := by
  by_cases hlt : a.val + n < 0x10000000000000000
  · rw [Span.ofLength_eq_ok hlt] at h
    cases h
    rfl
  · have hnone : Offset.add? a n = none := Offset.add?_eq_none.2 (by omega)
    simp [Span.ofLength, Offset.add, hnone, bind, Except.bind] at h

/-- A span between two offsets, if there is one, has them as its bounds. -/
theorem Span.between_eq_ok {a b : Offset} {s : Span} :
    Span.between a b = .ok s ↔ s.begin = a ∧ s.stop = b := by
  unfold Span.between
  -- there is a span if the first offset is not behind the second, as it never is in a span
  split
  · rename_i hle
    constructor
    · intro h
      cases h
      exact ⟨rfl, rfl⟩
    · obtain ⟨begin, stop, _⟩ := s
      rintro ⟨rfl, rfl⟩
      rfl
  · rename_i hlt
    have hle := s.begin_le_stop
    constructor
    · intro h
      cases h
    · rintro ⟨rfl, rfl⟩
      exact absurd hle hlt

namespace Text

/-! ## Width -/

/-- The number of bytes that the characters take. -/
def width (cs : List Char) : Nat := (String.ofList cs).utf8ByteSize

/-- No characters take no bytes. -/
@[simp] theorem width_nil : width [] = 0 := by simp [width]

/-- What stands in two parts takes the bytes of both. -/
@[simp] theorem width_append (cs ds : List Char) : width (cs ++ ds) = width cs + width ds := by
  simp [width, String.ofList_append]

/-- Before other characters one takes its own bytes. -/
@[simp] theorem width_cons (c : Char) (cs : List Char) :
    width (c :: cs) = c.utf8Size + width cs := by
  rw [← List.singleton_append, width_append]
  simp only [width, ← String.singleton_eq_ofList, String.utf8ByteSize_singleton]

/-- The size of a text is the width of its characters. -/
theorem width_toList (s : String) : width s.toList = s.utf8ByteSize := by
  rw [width, String.ofList_toList]

/-- Every character takes at least one byte. -/
theorem length_le_width (cs : List Char) : cs.length ≤ width cs := by
  induction cs with
  | nil => simp
  | cons c cs ih =>
    have hc := c.utf8Size_pos
    simp only [List.length_cons, width_cons]
    omega

/-- Two beginnings of the same characters are equal if they are equally wide. -/
theorem eq_of_isPrefix {cs ws vs : List Char} (hw : ws <+: cs) (hv : vs <+: cs)
    (h : width ws = width vs) : ws = vs := by
  have hshorter {us ts : List Char} (hpre : us <+: ts) (hwidth : width us = width ts) :
      us = ts := by
    obtain ⟨mid, rfl⟩ := hpre
    have hmid : mid.length = 0 := by
      have hle := length_le_width mid
      rw [width_append] at hwidth
      omega
    rw [List.length_eq_zero_iff.1 hmid, List.append_nil]
  -- one of them begins the other, and what is left over has no width
  rcases List.prefix_or_prefix_of_prefix hw hv with hpre | hpre
  · exact hshorter hpre h
  · exact (hshorter hpre h.symm).symm

/-! ## What is left at an offset -/

/-- Byte `o` of `s` is a boundary, and the characters from there on are `cs`. -/
def Before (s : String) (o : Nat) (cs : List Char) : Prop :=
  ∃ pre, s.toList = pre ++ cs ∧ o = width pre

/-- At the start of a text all of it is left. -/
theorem before_zero (s : String) : Before s 0 s.toList := ⟨[], by simp, by simp⟩

/-- What is left reaches up to the end of the text. -/
theorem Before.add_width {s : String} {o : Nat} {cs : List Char} (h : Before s o cs) :
    o + width cs = s.utf8ByteSize := by
  obtain ⟨pre, hs, rfl⟩ := h
  rw [← width_toList, hs, width_append]

/-- What is left begins behind the characters before it. -/
theorem Before.eq_width {s : String} {o : Nat} {pre cs : List Char} (h : Before s o cs)
    (hs : s.toList = pre ++ cs) : o = width pre := by
  have hsum := h.add_width
  rw [← width_toList, hs, width_append] at hsum
  omega

/-- Past the characters `ws`, the offset is further on by their width. -/
theorem Before.advance_append {s : String} {o : Nat} {ws cs : List Char}
    (h : Before s o (ws ++ cs)) : Before s (o + width ws) cs := by
  obtain ⟨pre, hs, rfl⟩ := h
  exact ⟨pre ++ ws, by simp [hs], by simp⟩

/-- Past one character, the offset is further on by its width. -/
theorem Before.advance {s : String} {o : Nat} {c : Char} {cs : List Char}
    (h : Before s o (c :: cs)) : Before s (o + c.utf8Size) cs := by
  have h' : Before s o ([c] ++ cs) := h
  simpa using h'.advance_append

/-- At one offset there is only one rest: a list of characters is told from its beginnings by its
    width. -/
theorem Before.unique {s : String} {o : Nat} {cs ds : List Char} (h : Before s o cs)
    (h' : Before s o ds) : cs = ds := by
  obtain ⟨pre, hs, rfl⟩ := h
  obtain ⟨pre', hs', hw⟩ := h'
  -- both begin the text, and they are equally wide
  obtain rfl : pre = pre' := eq_of_isPrefix ⟨cs, hs.symm⟩ ⟨ds, hs'.symm⟩ hw
  exact List.append_cancel_left (hs.symm.trans hs')

/-! ## Boundaries and characters -/

/-- A position that is found at an offset stands there. -/
private theorem offset_of_pos? {s : String} {o : Nat} {p : s.Pos} (h : s.pos? ⟨o⟩ = some p) :
    p.offset = ⟨o⟩ := by
  simp only [String.pos?, String.Slice.pos?, Option.map_eq_some_iff] at h
  obtain ⟨q, hq, rfl⟩ := h
  split at hq
  · cases hq; rfl
  · cases hq

/-- A position of a text stands before the characters of the slice behind it. -/
private theorem before_of_pos? {s : String} {o : Nat} {p : s.Pos} (h : s.pos? ⟨o⟩ = some p) :
    Before s o (s.sliceFrom p).copy.toList := by
  have ho := offset_of_pos? h
  have hsplit := p.splits
  refine ⟨(s.sliceTo p).copy.toList, ?_, ?_⟩
  · rw [← String.toList_append, ← hsplit.eq_append]
  · rw [width_toList, ← String.byteIdx_rawEndPos, ← hsplit.offset_eq_rawEndPos, ho]

/-- Where characters are left, there is a position. -/
private theorem exists_pos?_of_before {s : String} {o : Nat} {cs : List Char}
    (h : Before s o cs) : ∃ p, s.pos? ⟨o⟩ = some p := by
  obtain ⟨pre, hs, rfl⟩ := h
  have hvalid : (⟨width pre⟩ : String.Pos.Raw).IsValid s := by
    rw [String.Pos.Raw.isValid_iff_exists_append]
    refine ⟨String.ofList pre, String.ofList cs, ?_, rfl⟩
    rw [← String.ofList_append, ← hs, String.ofList_toList]
  simp [String.pos?, String.Slice.pos?, hvalid]

/-- The boundaries of a text are the offsets at which some characters are left, perhaps none. -/
theorem isBoundary_iff {s : String} {o : Nat} : isBoundary s o = true ↔ ∃ cs, Before s o cs := by
  rw [isBoundary, Option.isSome_iff_exists]
  constructor
  · rintro ⟨p, hp⟩
    exact ⟨_, before_of_pos? hp⟩
  · rintro ⟨cs, h⟩
    exact exists_pos?_of_before h

/-- Where characters are left, or none, is a boundary. -/
theorem Before.isBoundary {s : String} {o : Nat} {cs : List Char} (h : Before s o cs) :
    Text.isBoundary s o = true := isBoundary_iff.2 ⟨cs, h⟩

/-- A boundary lies within the text. -/
theorem le_size_of_isBoundary {s : String} {o : Nat} (h : isBoundary s o = true) :
    o ≤ s.utf8ByteSize := by
  obtain ⟨cs, hcs⟩ := isBoundary_iff.1 h
  have hw := hcs.add_width
  omega

/-- The character at an offset is the first of those that are left. -/
theorem charAt?_eq_head? {s : String} {o : Nat} {cs : List Char} (h : Before s o cs) :
    charAt? s o = cs.head? := by
  obtain ⟨p, hp⟩ := exists_pos?_of_before h
  obtain rfl := h.unique (before_of_pos? hp)
  rw [charAt?, hp, Option.bind_some, String.Pos.get?, String.Slice.Pos.get?]
  by_cases hend : p = s.endPos
  · subst hend
    simp
  · have hend' : p.toSlice ≠ s.toSlice.endPos := by simpa [String.Pos.ext_iff] using hend
    obtain ⟨rest, hrest⟩ := p.splits.exists_eq_singleton_append hend
    rw [dif_neg hend', hrest]
    simp

/-- Off the boundaries no character begins. -/
theorem charAt?_eq_none {s : String} {o : Nat} (h : ∀ cs, ¬ Before s o cs) :
    charAt? s o = none := by
  cases hp : s.pos? ⟨o⟩ with
  | none => rw [charAt?, hp, Option.bind_none]
  | some p => exact absurd (before_of_pos? hp) (h _)

/-- A character begins where it is the first one left. -/
theorem charAt?_eq_some_iff {s : String} {o : Nat} {c : Char} :
    charAt? s o = some c ↔ ∃ cs, Before s o (c :: cs) := by
  constructor
  · intro h
    by_cases hb : ∃ cs, Before s o cs
    · obtain ⟨cs, hcs⟩ := hb
      rw [charAt?_eq_head? hcs, List.head?_eq_some_iff] at h
      obtain ⟨ds, rfl⟩ := h
      exact ⟨ds, hcs⟩
    · rw [charAt?_eq_none (not_exists.1 hb)] at h
      cases h
  · rintro ⟨cs, hcs⟩
    rw [charAt?_eq_head? hcs, List.head?_cons]

/-- Between two boundaries stand the characters that are read from the one to the other. -/
theorem slice?_eq_some {s : String} {o : Nat} {ws cs : List Char} (h : Before s o (ws ++ cs)) :
    slice? s o (o + width ws) = some (String.ofList ws) := by
  obtain ⟨p, hp⟩ := exists_pos?_of_before h
  obtain ⟨q, hq⟩ := exists_pos?_of_before h.advance_append
  have hpo := offset_of_pos? hp
  have hqo := offset_of_pos? hq
  have hle : p ≤ q := by
    rw [String.Pos.le_iff, hpo, hqo]
    exact Nat.le_add_right _ _
  simp only [slice?, hp, hq, bind, Option.bind, if_pos hle]
  congr 1
  obtain ⟨pre, hs, rfl⟩ := h
  have hsplit : s = String.ofList pre ++ (String.ofList ws ++ String.ofList cs) := by
    rw [← String.ofList_append, ← String.ofList_append, ← hs, String.ofList_toList]
  -- the bytes of the slice are those of `ws`, which come behind those of `pre`
  have hpre : width pre = (String.ofList pre).toByteArray.size := rfl
  have hws : width ws = (String.ofList ws).toByteArray.size := rfl
  rw [← String.toByteArray_inj, String.toByteArray_extract, hpo, hqo]
  conv_lhs => rw [hsplit, String.toByteArray_append, String.toByteArray_append]
  show ByteArray.extract _ (width pre + 0) (width pre + width ws) = _
  rw [ByteArray.extract_append_size_add' hpre, ByteArray.extract_append_eq_left hws]

/-- The text from a boundary on holds the characters that are left there. -/
theorem toList_dropTo {s : String} {o : Nat} {cs : List Char} (h : Before s o cs) :
    (dropTo s o).toList = cs := by
  have hcs : Before s o (cs ++ []) := by rwa [List.append_nil]
  rw [dropTo, ← h.add_width, slice?_eq_some hcs, Option.getD_some, String.toList_ofList]

/-- A word stands at an offset where it begins what is left; the empty word stands anywhere. -/
theorem startsWithAt_iff {s : String} {o : Nat} {w : List Char} :
    Cursor.startsWithAt s o w = true ↔ w = [] ∨ ∃ cs, Before s o (w ++ cs) := by
  -- the offset moves on by a character, so it is generalized
  induction w generalizing o with
  | nil => simp [Cursor.startsWithAt]
  | cons c w ih =>
    simp only [Cursor.startsWithAt, Bool.and_eq_true, beq_iff_eq, reduceCtorEq, false_or]
    rw [charAt?_eq_some_iff, ih]
    constructor
    · rintro ⟨⟨cs, hcs⟩, rfl | ⟨ds, hds⟩⟩
      · exact ⟨cs, hcs⟩
      · -- what is left after `c` is known twice
        obtain rfl := hcs.advance.unique hds
        exact ⟨ds, hcs⟩
    · rintro ⟨cs, hcs⟩
      exact ⟨⟨w ++ cs, hcs⟩, .inr ⟨cs, hcs.advance⟩⟩

/-- Where a word stands its end is an offset: a word ends within the text, and the empty one where
    it begins. -/
theorem add_size_lt_of_startsWithAt {s w : String} {o : Offset} (hsize : s.utf8ByteSize < 2 ^ 64)
    (h : Cursor.startsWithAt s o.val w.toList = true) : o.val + w.utf8ByteSize < 2 ^ 64 := by
  rcases startsWithAt_iff.1 h with hnil | ⟨cs, hcs⟩
  · rw [← width_toList, hnil, width_nil]
    exact o.isLt
  · have hsum : o.val + width (w.toList ++ cs) = s.utf8ByteSize := hcs.add_width
    rw [width_append, width_toList] at hsum
    omega

end Text

end ParserKit
