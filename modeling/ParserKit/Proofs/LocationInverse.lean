import ParserKit.Proofs.LocationMeaning

/-!
# Finding the offset of a location

A line and a column lead back to the offset: behind the text of as many line endings as the line
says, and behind as many characters as the column says. So no two boundaries of a text have the same
line and column, and these grow with the offset.

Looking for line endings from the start of a text, one after the other, finds those that a meter has
counted. For this no two of them may overlap, which they do not, as no line ending repeats a
character.

## Key results

- `Text.behindFirst_of_first`: skipping up to the first line ending
- `Text.isSuffix_behindLast_concat`: a line ending begins behind the one before it
- `Text.iterate_behindFirst`: skipping all line endings of a text leaves its last line
- `Location.offsetAt_of_locate`: a line and a column lead back to the offset
-/

namespace ParserKit

/-- No line ending has one character twice. -/
theorem LineEnding.nodup_mark (ending : LineEnding) : ending.mark.Nodup := by
  cases ending <;> decide

namespace Text

variable {w cs : List Char} {c : Char}

/-! ## The last line -/

/-- What is behind the last `w` is the end of the text. -/
theorem behindLast_isSuffix (w cs : List Char) : behindLast w cs <:+ cs := List.drop_suffix _ _

/-- Behind the last `w` there is no other. -/
theorem not_isInfix_behindLast (hw : w ≠ []) (cs : List Char) : ¬ w <:+: behindLast w cs := by
  induction cs using List.reverseRecOn with
  | nil => simpa using hw
  | append_singleton cs c ih =>
    by_cases hends : w <:+ cs ++ [c]
    · simpa [behindLast_concat, hends] using hw
    · rw [behindLast_concat, if_neg hends, List.infix_concat_iff]
      -- with the new character, `w` would end the text
      have hlonger : behindLast w cs ++ [c] <:+ cs ++ [c] :=
        concat_isSuffix_concat_iff.2 ⟨rfl, behindLast_isSuffix w cs⟩
      have hnew : ¬ w <:+ behindLast w cs ++ [c] := fun h => hends (h.trans hlonger)
      simp [hnew, ih]

/-- Before what is behind the last `w` stands `w`, or nothing. -/
theorem behindLast_cases (w cs : List Char) :
    behindLast w cs = cs ∨ ∃ before, cs = before ++ w ++ behindLast w cs := by
  -- a character ends a word, or it is one more behind the last word
  induction cs using List.reverseRecOn with
  | nil => simp
  | append_singleton cs c ih =>
    rw [behindLast_concat]
    by_cases hends : w <:+ cs ++ [c]
    · right
      rw [if_pos hends]
      obtain ⟨before, hbefore⟩ := hends
      exact ⟨before, by simp [hbefore]⟩
    · rw [if_neg hends]
      obtain hall | ⟨before, hbefore⟩ := ih
      · left
        rw [hall]
      · right
        refine ⟨before, ?_⟩
        rw [← List.append_assoc, ← hbefore]

/-- Where a word does not repeat its last character, what stands before that character does not
    reach back into an earlier one of the same words. -/
theorem isSuffix_of_nodup {u before tail : List Char} {x : Char} (hnodup : (u ++ [x]).Nodup)
    (hu : u <:+ before ++ (u ++ [x]) ++ tail) : u <:+ tail := by
  obtain hshort | ⟨v, rfl⟩ := List.suffix_or_suffix_of_suffix hu (List.suffix_append _ _)
  · exact hshort
  · by_cases hnil : v = []
    · simp [hnil]
    · -- `v` would end with the last character of the earlier word
      obtain ⟨v, y, rfl⟩ := (List.eq_nil_or_concat' v).resolve_left hnil
      obtain ⟨front, hfront⟩ := hu
      rw [← List.append_assoc] at hfront
      have hlast := List.append_cancel_right hfront
      rw [← List.append_assoc, ← List.append_assoc] at hlast
      obtain ⟨-, hyx⟩ := List.append_inj' hlast rfl
      have hmem : y ∈ v ++ [y] ++ tail := by simp
      have hdisjoint := (List.nodup_append.1 hnodup).2.2
      exact absurd (List.singleton_inj.1 hyx) (hdisjoint y hmem x (List.mem_singleton_self x))

/-- Where `w` does not repeat a character, it begins behind the `w` before it. -/
theorem isSuffix_behindLast_concat (hw : w ≠ []) (hnodup : w.Nodup) (h : w <:+ cs ++ [c]) :
    w <:+ behindLast w cs ++ [c] := by
  obtain hall | ⟨before, hbefore⟩ := behindLast_cases w cs
  · rwa [hall]
  · generalize behindLast w cs = tail at hbefore ⊢
    obtain ⟨u, x, rfl⟩ := (List.eq_nil_or_concat' w).resolve_left hw
    rw [concat_isSuffix_concat_iff, hbefore] at h
    exact concat_isSuffix_concat_iff.2 ⟨h.1, isSuffix_of_nodup hnodup h.2⟩

/-! ## Skipping -/

/-- The characters behind the first `w` of a text, and none if there is none. -/
def behindFirst (w : List Char) : List Char → List Char
  | [] => []
  | c :: cs => if w <+: c :: cs then (c :: cs).drop w.length else behindFirst w cs

/-- Where `w` stands for the first time at the end of `body` and `c`, all of this is skipped. -/
theorem behindFirst_of_first {body : List Char} (hbody : ¬ w <:+: body) (hends : w <:+ body ++ [c])
    (rest : List Char) : behindFirst w (body ++ c :: rest) = rest := by
  -- character by character of what is skipped, until the word begins
  induction body with
  | nil =>
    rw [List.nil_append, List.suffix_cons_iff] at hends
    obtain rfl | hnil := hends
    · simp [behindFirst]
    · exact absurd hnil.isInfix hbody
  | cons b body ih =>
    rw [List.cons_append, List.suffix_cons_iff] at hends
    rw [List.cons_append, behindFirst]
    obtain rfl | hends := hends
    · -- `w` takes all of `body` and `c`
      have hall : b :: (body ++ c :: rest) = (b :: (body ++ [c])) ++ rest := by simp
      rw [hall, if_pos (List.prefix_append _ _), List.drop_left]
    · -- `w` ends later, and so does not stand here, where it would be within `body`
      have hlater : ¬ w <+: b :: (body ++ c :: rest) := by
        intro h
        have hlen := hends.length_le
        rw [List.length_append, List.length_singleton, ← List.length_cons (a := b)] at hlen
        have hbody' : w <+: b :: body :=
          List.prefix_of_prefix_length_le h (List.prefix_append (b :: body) (c :: rest)) hlen
        exact hbody hbody'.isInfix
      rw [if_neg hlater]
      exact ih (fun h => hbody (h.trans (List.suffix_cons b body).isInfix)) hends

/-- Skipping as many `w` as there are in `cs` comes to where the last of them ends. -/
theorem iterate_behindFirst (hw : w ≠ []) (hnodup : w.Nodup) (cs rest : List Char) :
    (behindFirst w)^[occurrences w cs] (cs ++ rest) = behindLast w cs ++ rest := by
  -- from the left, as words are counted; what is left over is generalized
  induction cs using List.reverseRecOn generalizing rest with
  | nil => simp [occurrences_nil hw]
  | append_singleton cs c ih =>
    have hbefore := ih (c :: rest)
    rw [List.append_assoc, List.singleton_append, occurrences_concat, behindLast_concat]
    by_cases hends : w <:+ cs ++ [c]
    · -- after the skips for `cs`, one more goes over what is behind its last `w`, and `c`
      rw [if_pos hends, if_pos hends, Function.iterate_succ_apply', hbefore, List.nil_append]
      exact behindFirst_of_first (not_isInfix_behindLast hw cs)
        (isSuffix_behindLast_concat hw hnodup hends) rest
    · rw [if_neg hends, if_neg hends, Nat.add_zero, hbefore, List.append_assoc,
        List.singleton_append]

end Text

namespace Location

variable {ending : LineEnding} {input : String} {l : Location} {o : Nat}

/-- The offset of a line and a column: behind the first `line` line endings of the text, and behind
    `column` characters more. -/
def offsetAt (ending : LineEnding) (input : String) (line column : Nat) : Nat :=
  let rest := ((Text.behindFirst ending.mark)^[line] input.toList).drop column
  input.utf8ByteSize - Text.width rest

/-- From the line and the column of an offset one comes back to it. -/
theorem offsetAt_of_locate (h : locate ending input o = .ok l) :
    offsetAt ending input l.line.val l.column.val = l.offset.val := by
  obtain ⟨m, hm, rfl⟩ := exists_over_of_locate h
  obtain ⟨rest, hrest⟩ := Text.exists_takeBytes_append o input.toList
  have hskipped : (Text.behindFirst ending.mark)^[m.location.line.val] input.toList =
      Text.behindLast ending.mark (Text.takeBytes o input.toList) ++ rest := by
    conv_lhs => rw [hrest, hm.line]
    exact Text.iterate_behindFirst ending.mark_ne_nil ending.nodup_mark _ _
  have hsize := congrArg Text.width hrest
  rw [Text.width_toList, Text.width_append, ← hm.offset] at hsize
  rw [offsetAt, hskipped, hm.column, List.drop_left]
  omega

example : offsetAt .crlf "a\r\r\nbé" 1 2 = 7 := by decide

/-- Two offsets have the same line and column if the same boundary is the last before both. -/
theorem place_eq_iff {m : Location} {p : Nat} (hl : locate ending input o = .ok l)
    (hm : locate ending input p = .ok m) :
    l.place = m.place ↔ Text.clamp input o = Text.clamp input p := by
  constructor
  · -- equal lines and columns lead back to the same boundary
    intro h
    have hline : l.line.val = m.line.val := congrArg (fun place => (ofLex place).1) h
    have hcolumn : l.column.val = m.column.val := congrArg (fun place => (ofLex place).2) h
    rw [← offset_eq_clamp hl, ← offset_eq_clamp hm, ← offsetAt_of_locate hl,
      ← offsetAt_of_locate hm, hline, hcolumn]
  · intro h
    -- both offsets are located where the boundary is
    rw [← locate_clamp, h, locate_clamp, hm] at hl
    cases hl
    rfl

/-- The lines and columns of a text are in the order of its offsets, and lead back to them.

    Of two offsets the later one has the same line and column if the same boundary is the last
    before both, and otherwise a later line, or a later column in the same line. So any two
    boundaries differ in line or column. The boundary that an offset is located at is found from
    line and column by skipping as many line endings, and then as many characters. -/
theorem locate_ordered (ending : LineEnding) (input : String)
    (hsize : input.utf8ByteSize < 2 ^ 64) :
    (∀ o p : Offset, o.val ≤ p.val → ∃ l m : Location,
      locate ending input o.val = .ok l ∧ locate ending input p.val = .ok m ∧
      l.place ≤ m.place ∧
      (l.place = m.place ↔ Text.clamp input o.val = Text.clamp input p.val)) ∧
    (∀ b b' : Nat, Text.isBoundary input b = true → Text.isBoundary input b' = true → b ≠ b' →
      ∃ l m : Location, locate ending input b = .ok l ∧ locate ending input b' = .ok m ∧
        l.place ≠ m.place) ∧
    ∀ o : Offset, ∃ l : Location, locate ending input o.val = .ok l ∧
      l.offset.val = Text.clamp input o.val ∧
      offsetAt ending input l.line.val l.column.val = l.offset.val := by
  constructor
  · intro o p hle
    obtain ⟨l, hl, -⟩ := locate_eq_ok ending hsize o.val
    obtain ⟨m, hm, -⟩ := locate_eq_ok ending hsize p.val
    refine ⟨l, m, hl, hm, ?_, place_eq_iff hl hm⟩
    -- the later offset is located at the same place or at a later one
    obtain rfl | ⟨-, hlt⟩ := locate_order hl hm hle
    · exact le_refl _
    · exact le_of_lt hlt
  constructor
  · intro b b' hb hb' hne
    obtain ⟨l, hl, -⟩ := locate_eq_ok ending hsize b
    obtain ⟨m, hm, -⟩ := locate_eq_ok ending hsize b'
    refine ⟨l, m, hl, hm, ?_⟩
    rw [Ne, place_eq_iff hl hm, Text.clamp_of_isBoundary hb, Text.clamp_of_isBoundary hb']
    exact hne
  · intro o
    obtain ⟨l, hl, -⟩ := locate_eq_ok ending hsize o.val
    exact ⟨l, hl, offset_eq_clamp hl, offsetAt_of_locate hl⟩

/-- Between the two characters of a line ending, and inside a wide character behind it. -/
theorem locate_ordered_split_ending :
    "\r\nß".utf8ByteSize < 2 ^ 64 ∧ Text.isBoundary "\r\nß" 1 = true ∧
      Text.isBoundary "\r\nß" 2 = true ∧ ∃ l m : Location,
        locate .crlf "\r\nß" 1 = .ok l ∧ locate .crlf "\r\nß" 3 = .ok m ∧
        l = ⟨1, 0, 1⟩ ∧ m = ⟨2, 1, 0⟩ ∧ l.place < m.place ∧
        offsetAt .crlf "\r\nß" m.line.val m.column.val = 2 := by
  have hsize : "\r\nß".utf8ByteSize < 2 ^ 64 := by decide
  have hb : Text.isBoundary "\r\nß" 1 = true := by cbv
  have hb' : Text.isBoundary "\r\nß" 2 = true := by cbv
  have hl' : locate .crlf "\r\nß" 1 = .ok ⟨1, 0, 1⟩ := by cbv
  have hm' : locate .crlf "\r\nß" 3 = .ok ⟨2, 1, 0⟩ := by cbv
  have hn' : locate .crlf "\r\nß" 2 = .ok ⟨2, 1, 0⟩ := by cbv
  -- the locations are computed; that they differ and lead back is the theorem
  obtain ⟨l, m, hl, hm, hle, -⟩ := (locate_ordered .crlf "\r\nß" hsize).1 1 3 (by decide)
  obtain ⟨k, n, hk, hn, hne⟩ := (locate_ordered .crlf "\r\nß" hsize).2.1 1 2 hb hb' (by decide)
  obtain ⟨m₃, hm₃, -, hoffset⟩ := (locate_ordered .crlf "\r\nß" hsize).2.2 3
  obtain rfl := Except.ok.inj (hl.symm.trans hl')
  obtain rfl := Except.ok.inj (hm.symm.trans hm')
  obtain rfl := Except.ok.inj (hk.symm.trans hl')
  obtain rfl := Except.ok.inj (hn.symm.trans hn')
  obtain rfl := Except.ok.inj (hm₃.symm.trans hm')
  exact ⟨hsize, hb, hb', _, _, hl, hm, rfl, rfl, lt_of_le_of_ne hle hne, hoffset⟩

end Location

end ParserKit
