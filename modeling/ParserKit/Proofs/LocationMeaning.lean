import ParserKit.Proofs.LocationOrder

/-!
# What a location says

A location is found by moving a meter over a text character by character, with only the character
before in memory. What it says can be read off the text without a meter: the offset is the last
boundary that is not behind the given one, the line is the number of line endings before it, and
the column is the number of characters behind the last of them.

A line ending stands in a text once for each beginning of the text that ends with it, so it is
counted where its last character stands. That is also where a meter counts it, and so the two
agree after each character (`Meter.Over`).

## Key results

- `Text.occurrences_concat` / `Text.behindLast_concat`: what one more character adds
- `LineEnding.endsLine_iff`: one character of memory is enough to see a line ending
- `Meter.Over.step` / `Meter.Over.advance`: a meter knows what it has come over
- `Text.clamp_eq_width`: the boundary that is looked for backwards
- `Location.exists_over_of_locate`: a location is that of the text before it
- `Location.offset_of_locate`: a boundary is located at itself
-/

namespace ParserKit

/-- The characters of a line ending. -/
def LineEnding.mark : LineEnding → List Char
  | lf => ['\n']
  | cr => ['\r']
  | crlf => ['\r', '\n']

/-- A line ending has characters. -/
theorem LineEnding.mark_ne_nil (ending : LineEnding) : ending.mark ≠ [] := by
  cases ending <;> simp [mark]

namespace Text

/-! ## Words in a text -/

/-- The beginnings of a text that end with `w`, from the shortest to the longest. -/
def upToEach (w cs : List Char) : List (List Char) := cs.inits.filter fun before => w <:+ before

/-- How often `w` stands in a text. -/
def occurrences (w cs : List Char) : Nat := (upToEach w cs).length

/-- Where the last `w` of a text ends, and the start of the text if there is none. -/
def endOfLast (w cs : List Char) : Nat := (upToEach w cs).getLast?.elim 0 List.length

/-- The characters behind the last `w` of a text, and all of them if there is none. -/
def behindLast (w cs : List Char) : List Char := cs.drop (endOfLast w cs)

variable {w cs : List Char} {c : Char}

/-- No beginning of the empty text ends with a word. -/
theorem upToEach_nil (hw : w ≠ []) : upToEach w [] = [] := by simp [upToEach, hw]

/-- One more character makes one more beginning, the whole text. -/
theorem upToEach_concat (w cs : List Char) (c : Char) :
    upToEach w (cs ++ [c]) = upToEach w cs ++ if w <:+ cs ++ [c] then [cs ++ [c]] else [] := by
  have hinits : (cs ++ [c]).inits = cs.inits ++ [cs ++ [c]] := by simp [List.inits_append]
  rw [upToEach, hinits, List.filter_append]
  by_cases hends : w <:+ cs ++ [c] <;> simp [upToEach, hends]

/-- No word stands in the empty text. -/
theorem occurrences_nil (hw : w ≠ []) : occurrences w [] = 0 := by
  rw [occurrences, upToEach_nil hw, List.length_nil]

/-- With one more character `w` stands in a text once more if the text now ends with it. -/
theorem occurrences_concat (w cs : List Char) (c : Char) :
    occurrences w (cs ++ [c]) = occurrences w cs + if w <:+ cs ++ [c] then 1 else 0 := by
  rw [occurrences, upToEach_concat, List.length_append]
  by_cases hends : w <:+ cs ++ [c] <;> simp [occurrences, hends]

/-- The last `w` ends within the text. -/
theorem endOfLast_le (w cs : List Char) : endOfLast w cs ≤ cs.length := by
  unfold endOfLast
  cases hlast : (upToEach w cs).getLast? with
  | none => simp
  | some before =>
    have hmem := List.mem_of_getLast? hlast
    simp only [upToEach, List.mem_filter, List.mem_inits] at hmem
    exact hmem.1.length_le

/-- Behind the last word of the empty text there is nothing. -/
@[simp] theorem behindLast_nil : behindLast w [] = [] := by simp [behindLast]

/-- One more character is behind the last `w`, unless the text now ends with `w`. -/
theorem behindLast_concat (w cs : List Char) (c : Char) :
    behindLast w (cs ++ [c]) = if w <:+ cs ++ [c] then [] else behindLast w cs ++ [c] := by
  unfold behindLast
  by_cases hends : w <:+ cs ++ [c]
  · -- the whole text is the longest beginning that ends with `w`
    have hlast : endOfLast w (cs ++ [c]) = (cs ++ [c]).length := by
      rw [endOfLast, upToEach_concat, if_pos hends]
      simp
    rw [hlast, List.drop_length, if_pos hends]
  · -- the longest such beginning is one of the text before
    have hlast : endOfLast w (cs ++ [c]) = endOfLast w cs := by
      rw [endOfLast, upToEach_concat, if_neg hends, List.append_nil, endOfLast]
    rw [hlast, if_neg hends, List.drop_append_of_le_length (endOfLast_le w cs)]

/-- A text ends with a character and what stands before it if both do. -/
theorem concat_isSuffix_concat_iff {u cs : List Char} {x c : Char} :
    u ++ [x] <:+ cs ++ [c] ↔ x = c ∧ u <:+ cs := by
  rw [← List.reverse_prefix, List.reverse_append, List.reverse_append]
  simp only [List.reverse_singleton, List.singleton_append, List.cons_prefix_cons,
    List.reverse_prefix]

end Text

/-! ## Line endings in a text -/

/-- A character ends a line if the text up to it ends with the characters of a line ending. To see
    this, the character before it has to be known, and no other. -/
theorem LineEnding.endsLine_iff {ending : LineEnding} {cs : List Char} {c : Char} :
    ending.endsLine cs.getLast? c = true ↔ ending.mark <:+ cs ++ [c] := by
  -- what is looked for is a character with a word of one or none before it
  cases ending with
  | lf =>
    rw [show mark lf = [] ++ ['\n'] from rfl, Text.concat_isSuffix_concat_iff]
    simp [endsLine, eq_comm]
  | cr =>
    rw [show mark cr = [] ++ ['\r'] from rfl, Text.concat_isSuffix_concat_iff]
    simp [endsLine, eq_comm]
  | crlf =>
    -- the first of the two characters is the one in memory
    rw [show mark crlf = ['\r'] ++ ['\n'] from rfl, Text.concat_isSuffix_concat_iff]
    simp only [endsLine, Bool.and_eq_true, decide_eq_true_eq, List.getLast?_eq_some_iff]
    rw [and_comm, eq_comm]
    apply and_congr_right
    intro _
    exact exists_congr fun _ => eq_comm

/-- A text has one line ending more with a character that ends a line. -/
theorem LineEnding.occurrences_mark_concat (ending : LineEnding) (cs : List Char) (c : Char) :
    Text.occurrences ending.mark (cs ++ [c]) =
      Text.occurrences ending.mark cs + if ending.endsLine cs.getLast? c then 1 else 0 := by
  simp only [Text.occurrences_concat, endsLine_iff]

example : Text.occurrences LineEnding.crlf.mark ['\r', '\r', '\n', '\n'] = 1 := by decide

/-- A character is behind the last line ending, unless it ends a line. -/
theorem LineEnding.behindLast_mark_concat (ending : LineEnding) (cs : List Char) (c : Char) :
    Text.behindLast ending.mark (cs ++ [c]) =
      if ending.endsLine cs.getLast? c then [] else Text.behindLast ending.mark cs ++ [c] := by
  simp only [Text.behindLast_concat, endsLine_iff]

/-! ## Meters -/

namespace Meter

/-- The meter has come over the text `cs`, from its start. -/
structure Over (ending : LineEnding) (cs : List Char) (m : Meter) : Prop where
  previous : m.previous = cs.getLast?
  offset : m.location.offset.val = Text.width cs
  line : m.location.line.val = Text.occurrences ending.mark cs
  column : m.location.column.val = (Text.behindLast ending.mark cs).length

variable {ending : LineEnding} {m m' : Meter} {cs s : List Char} {c : Char}

/-- At the origin nothing has been come over. -/
theorem over_start (ending : LineEnding) : Over ending [] (start Location.origin) where
  previous := rfl
  offset := by simp [start, Location.origin, Offset.zero]
  line := (Text.occurrences_nil ending.mark_ne_nil).symm
  column := by simp [start, Location.origin, Offset.zero]

/-- With a character, a meter has come over that character as well. -/
theorem Over.step (hm : Over ending cs m) (h : Meter.step ending m c = .ok m') :
    Over ending (cs ++ [c]) m' := by
  obtain ⟨hprevious, hoffset, hcount⟩ := step_cases h
  rw [hm.previous] at hcount
  have hoffset' : m'.location.offset.val = Text.width (cs ++ [c]) := by
    rw [hoffset, hm.offset]
    simp
  -- what the meter remembers is the last character of `cs`, with which a line may end here
  obtain ⟨hends, hline, hcolumn⟩ | ⟨hends, hline, hcolumn⟩ := hcount
  · -- one more line, and it is empty
    constructor
    · simp [hprevious]
    · exact hoffset'
    · rw [hline, hm.line, LineEnding.occurrences_mark_concat, if_pos hends]
    · rw [hcolumn, LineEnding.behindLast_mark_concat, if_pos hends, List.length_nil]
  · -- the line stays, and has one more character
    have hends' := Bool.eq_false_iff.1 hends
    constructor
    · simp [hprevious]
    · exact hoffset'
    · rw [hline, hm.line, LineEnding.occurrences_mark_concat, if_neg hends', Nat.add_zero]
    · rw [hcolumn, hm.column, LineEnding.behindLast_mark_concat, if_neg hends',
        List.length_append, List.length_singleton]

/-- With a text, a meter has come over that text as well. -/
theorem Over.advance (hm : Over ending cs m) (h : Meter.advance ending m s = .ok m') :
    Over ending (cs ++ s) m' := by
  -- character by character, with what the meter has come over growing
  induction h using advance_induction generalizing cs with
  | nil m => simpa using hm
  | cons hstep hrest ih =>
    have hm' := ih (hm.step hstep)
    simpa using hm'

end Meter

/-! ## Boundaries -/

namespace Text

/-- What is taken takes no more bytes than it may. -/
theorem width_takeBytes_le_bytes (n : Nat) (cs : List Char) : width (takeBytes n cs) ≤ n := by
  -- what a character takes is no longer there for those behind it
  induction cs generalizing n with
  | nil => simp [takeBytes]
  | cons c cs ih =>
    by_cases hfits : c.utf8Size ≤ n
    · have hrest := ih (n - c.utf8Size)
      rw [takeBytes, if_pos hfits, width_cons]
      omega
    · simp [takeBytes, hfits]

/-- The last boundary of a text that is not behind byte `o`, looked for backwards from there, or
    from the end of the text. -/
def clamp (s : String) (o : Nat) : Nat :=
  Nat.findGreatest (fun b => isBoundary s b = true) (min o s.utf8ByteSize)

/-- Looking backwards ends at a boundary, at the start of the text if nowhere else. -/
theorem isGreatest_clamp (s : String) (o : Nat) :
    IsGreatest {b | isBoundary s b = true ∧ b ≤ min o s.utf8ByteSize} (clamp s o) := by
  constructor
  · have hzero : isBoundary s 0 = true := (before_zero s).isBoundary
    have hfound : isBoundary s (clamp s o) = true :=
      Nat.findGreatest_spec (P := fun b => isBoundary s b = true) (Nat.zero_le _) hzero
    exact ⟨hfound, Nat.findGreatest_le _⟩
  · intro b hb
    exact Nat.le_findGreatest hb.2 hb.1

/-- A boundary is not moved. -/
theorem clamp_of_isBoundary {s : String} {b : Nat} (h : isBoundary s b = true) :
    clamp s b = b := by
  have hsize := le_size_of_isBoundary h
  apply (isGreatest_clamp s b).unique
  constructor
  · exact ⟨h, by omega⟩
  · intro b' hb'
    have hle := hb'.2
    omega

/-- It ends behind the whole characters before `o`. -/
theorem clamp_eq_width (s : String) (o : Nat) : clamp s o = width (takeBytes o s.toList) := by
  apply (isGreatest_clamp s o).unique
  obtain ⟨rest, hrest⟩ := exists_takeBytes_append o s.toList
  constructor
  · -- the characters that are taken end at a boundary, not behind `o`
    have hbytes := width_takeBytes_le_bytes o s.toList
    have hsize := width_takeBytes_le o s.toList
    rw [width_toList] at hsize
    have hbefore : Before s (width (takeBytes o s.toList)) rest := ⟨_, hrest, rfl⟩
    exact ⟨hbefore.isBoundary, by omega⟩
  · -- a boundary stands behind whole characters, and all these are taken
    intro b hb
    obtain ⟨hboundary, hb⟩ := hb
    obtain ⟨cs, pre, hs, rfl⟩ := isBoundary_iff.1 hboundary
    have hpre : takeBytes (width pre) s.toList = pre := by rw [hs, takeBytes_width_append]
    have htaken := takeBytes_isPrefix_of_le (show width pre ≤ o by omega) s.toList
    rw [hpre] at htaken
    obtain ⟨more, hmore⟩ := htaken
    rw [← hmore, width_append]
    omega

/-- The same is taken up to the boundary as up to `o`. -/
theorem takeBytes_clamp (s : String) (o : Nat) :
    takeBytes (clamp s o) s.toList = takeBytes o s.toList := by
  obtain ⟨rest, hrest⟩ := exists_takeBytes_append o s.toList
  have htake := takeBytes_width_append (takeBytes o s.toList) rest
  rwa [← hrest, ← clamp_eq_width] at htake

/-- It is what stands before the boundary. -/
theorem slice?_clamp (s : String) (o : Nat) :
    slice? s 0 (clamp s o) = some (String.ofList (takeBytes o s.toList)) := by
  obtain ⟨rest, hrest⟩ := exists_takeBytes_append o s.toList
  have hbefore := before_zero s
  rw [hrest] at hbefore
  have hslice := slice?_eq_some hbefore
  rwa [Nat.zero_add, ← clamp_eq_width] at hslice

end Text

/-! ## Locations -/

namespace Location

variable {ending : LineEnding} {input : String} {l : Location} {o : Nat}

/-- A location is that of a meter which has come over the whole characters before the offset. -/
theorem exists_over_of_locate (h : locate ending input o = .ok l) :
    ∃ m, Meter.Over ending (Text.takeBytes o input.toList) m ∧ m.location = l := by
  obtain ⟨m, hm, hl⟩ := locate_eq_ok_iff.1 h
  exact ⟨m, (Meter.over_start ending).advance hm, hl⟩

/-- A location is at the last boundary that is not behind the offset. -/
theorem offset_eq_clamp (h : locate ending input o = .ok l) :
    l.offset.val = Text.clamp input o := by
  obtain ⟨m, hm, rfl⟩ := exists_over_of_locate h
  rw [hm.offset, Text.clamp_eq_width]

/-- A boundary of the text is located at itself. -/
theorem offset_of_locate (ho : Text.isBoundary input o = true)
    (hl : locate ending input o = .ok l) : l.offset.val = o := by
  rw [offset_eq_clamp hl, Text.clamp_of_isBoundary ho]

/-- A boundary and the offsets behind it, up to the next one, have the same location. -/
theorem locate_clamp (ending : LineEnding) (input : String) (o : Nat) :
    locate ending input (Text.clamp input o) = locate ending input o := by
  rw [locate, locate, Text.takeBytes_clamp]

/-- What every location says. It is at the last boundary of the text that is not behind the offset;
    the line counts the line endings in the text before that boundary, and the column counts the
    characters behind the last of them. The boundary has the same location as the offset.

    No count is too large, as the text is shorter than there are offsets. -/
theorem locate_counts (ending : LineEnding) (input : String) (hsize : input.utf8ByteSize < 2 ^ 64)
    (o : Offset) :
    ∃ (l : Location) (before : String),
      locate ending input o.val = .ok l ∧
      IsGreatest {b | Text.isBoundary input b = true ∧ b ≤ min o.val input.utf8ByteSize}
        l.offset.val ∧
      Text.slice? input 0 l.offset.val = some before ∧
      l.line.val = Text.occurrences ending.mark before.toList ∧
      l.column.val = (Text.behindLast ending.mark before.toList).length ∧
      locate ending input l.offset.val = .ok l := by
  obtain ⟨l, hl, -⟩ := locate_eq_ok ending hsize o.val
  have hoffset := offset_eq_clamp hl
  -- the meter has come over just the text before that boundary
  obtain ⟨m, hm, rfl⟩ := exists_over_of_locate hl
  refine ⟨m.location, String.ofList (Text.takeBytes o.val input.toList), hl, ?_⟩
  rw [hoffset, String.toList_ofList]
  exact ⟨Text.isGreatest_clamp input o.val, Text.slice?_clamp input o.val, hm.line, hm.column,
    by rw [locate_clamp, hl]⟩

/-- Before a place inside a wide character stand a lone line feed, a lone carriage return, and the
    two of them as one line ending. -/
theorem locate_counts_lone_and_paired :
    "\né\r\r\nxß".utf8ByteSize < 2 ^ 64 ∧
      ∃ before : String, Text.slice? "\né\r\r\nxß" 0 7 = some before ∧
        locate .crlf "\né\r\r\nxß" 8 = .ok ⟨7, 1, 1⟩ ∧
        Text.occurrences LineEnding.crlf.mark before.toList = 1 ∧
        (Text.behindLast LineEnding.crlf.mark before.toList).length = 1 := by
  have hsize : "\né\r\r\nxß".utf8ByteSize < 2 ^ 64 := by decide
  have hlocate : locate .crlf "\né\r\r\nxß" 8 = .ok ⟨7, 1, 1⟩ := by cbv
  obtain ⟨l, before, hl, -, hbefore, hline, hcolumn, -⟩ :=
    locate_counts .crlf "\né\r\r\nxß" hsize 8
  obtain rfl := Except.ok.inj (hl.symm.trans hlocate)
  exact ⟨hsize, before, hbefore, hlocate, hline.symm, hcolumn.symm⟩

end Location

end ParserKit
