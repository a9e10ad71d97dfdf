import ParserKit.Proofs.LocationMeaning

/-!
# The three line endings on one text

The same offset of a text may have three locations, one for each line ending. They differ by the
line feeds and carriage returns that stand alone: where the two stand together, a line ends with
either of them and with both.

Both comparisons go through the text character by character. Whether a line feed stands alone is
known where it stands (`Text.Feeds`). Of a carriage return it is known only with the next character,
and until then it is pending (`Text.Returns`).

## Key results

- `Text.feeds_of_text`: line feeds against both characters together
- `Text.returns_of_text`: carriage returns against both characters together
- `Meter.Over.location_eq_iff`: when two line endings give the same location
-/

namespace ParserKit

open LineEnding

namespace Text

variable {cs : List Char} {c x : Char}

/-- A character of a longer text is one of the text before, or the last. -/
theorem concat_eq_append_cons_iff {before after : List Char} :
    cs ++ [c] = before ++ x :: after ↔
      (∃ rest, cs = before ++ x :: rest ∧ after = rest ++ [c]) ∨
        cs = before ∧ c = x ∧ after = [] := by
  constructor
  · intro h
    -- the character is the last one exactly if nothing stands behind it
    by_cases hnil : after = []
    · right
      rw [hnil] at h
      obtain ⟨hcs, hc⟩ := List.append_inj' h rfl
      exact ⟨hcs, List.singleton_inj.1 hc, hnil⟩
    · left
      obtain ⟨rest, d, rfl⟩ := (List.eq_nil_or_concat' after).resolve_left hnil
      rw [← List.cons_append, ← List.append_assoc] at h
      obtain ⟨hcs, hc⟩ := List.append_inj' h rfl
      exact ⟨rest, hcs, by rw [hc]⟩
  · intro h
    obtain ⟨rest, rfl, rfl⟩ | ⟨rfl, rfl, rfl⟩ := h <;> simp

/-- Before every line feed of the text stands a carriage return. -/
def FeedsPaired (cs : List Char) : Prop :=
  ∀ before after, cs = before ++ '\n' :: after → before.getLast? = some '\r'

/-- Behind every carriage return of the text stands a line feed. -/
def ReturnsPaired (cs : List Char) : Prop :=
  ∀ before after, cs = before ++ '\r' :: after → after.head? = some '\n'

/-- Behind every carriage return of the text, but one at its end, stands a line feed. -/
def ReturnsPairedSoFar (cs : List Char) : Prop :=
  ∀ before after, cs = before ++ '\r' :: after → after = [] ∨ after.head? = some '\n'

/-- A line feed has to have a carriage return right before it. -/
theorem feedsPaired_concat :
    FeedsPaired (cs ++ [c]) ↔ FeedsPaired cs ∧ (c = '\n' → cs.getLast? = some '\r') := by
  simp only [FeedsPaired, concat_eq_append_cons_iff]
  constructor
  · intro h
    exact ⟨fun before rest hcs => h before (rest ++ [c]) (.inl ⟨rest, hcs, rfl⟩),
      fun hc => h cs [] (.inr ⟨rfl, hc, rfl⟩)⟩
  · intro h before after hsplit
    obtain ⟨rest, hcs, -⟩ | ⟨rfl, hc, -⟩ := hsplit
    · exact h.1 before rest hcs
    · exact h.2 hc

/-- Behind a carriage return at the end of the text, nothing but a line feed may follow. -/
theorem returnsPairedSoFar_concat :
    ReturnsPairedSoFar (cs ++ [c]) ↔
      ReturnsPairedSoFar cs ∧ (cs.getLast? = some '\r' → c = '\n') := by
  simp only [ReturnsPairedSoFar, concat_eq_append_cons_iff]
  constructor
  · intro h
    constructor
    · -- what is behind a carriage return of `cs` is behind it in the longer text, with `c`
      intro before rest hcs
      have hnext := h before (rest ++ [c]) (.inl ⟨rest, hcs, rfl⟩)
      cases rest with
      | nil => exact .inl rfl
      | cons d rest => simpa using hnext
    · intro hlast
      obtain ⟨before, rfl⟩ := List.getLast?_eq_some_iff.1 hlast
      simpa using h before [c] (.inl ⟨[], rfl, rfl⟩)
  · intro h before after hsplit
    -- a carriage return stands in `cs`, or it is the last character of all
    obtain ⟨rest, rfl, rfl⟩ | ⟨-, -, rfl⟩ := hsplit
    · right
      obtain rfl | hnext := h.1 before rest rfl
      · simp [h.2 (by simp)]
      · simp [hnext]
    · exact .inl rfl

/-- All carriage returns are paired if all but one at the end are, and there is none at the end. -/
theorem returnsPaired_iff :
    ReturnsPaired cs ↔ ReturnsPairedSoFar cs ∧ cs.getLast? ≠ some '\r' := by
  constructor
  · intro h
    refine ⟨fun before after hcs => .inr (h before after hcs), fun hlast => ?_⟩
    obtain ⟨before, hcs⟩ := List.getLast?_eq_some_iff.1 hlast
    simpa using h before [] hcs
  · intro h before after hcs
    obtain rfl | hnext := h.1 before after hcs
    · exact absurd (by simp [hcs]) h.2
    · exact hnext

/-! ## Both characters -/

/-- A line feed behind a carriage return ends a line. -/
theorem occurrences_crlf_concat_pos (hr : cs.getLast? = some '\r') :
    occurrences crlf.mark (cs ++ ['\n']) = occurrences crlf.mark cs + 1 := by
  simp [occurrences_mark_concat, endsLine, hr]

/-- Nothing else ends a line if it takes both characters. -/
theorem occurrences_crlf_concat_neg (h : ¬ (cs.getLast? = some '\r' ∧ c = '\n')) :
    occurrences crlf.mark (cs ++ [c]) = occurrences crlf.mark cs := by
  simp [occurrences_mark_concat, endsLine, h]

/-- Then nothing is behind the last line ending. -/
theorem behindLast_crlf_concat_pos (hr : cs.getLast? = some '\r') :
    behindLast crlf.mark (cs ++ ['\n']) = [] := by
  simp [behindLast_mark_concat, endsLine, hr]

/-- What ends no line is behind the last line ending. -/
theorem behindLast_crlf_concat_neg (h : ¬ (cs.getLast? = some '\r' ∧ c = '\n')) :
    behindLast crlf.mark (cs ++ [c]) = behindLast crlf.mark cs ++ [c] := by
  simp [behindLast_mark_concat, endsLine, h]

/-! ## Line feeds -/

/-- How often line feeds end lines, against how often they do behind a carriage return. -/
inductive Feeds (cs : List Char) : Prop
  /-- The same, and the last lines are the same. -/
  | paired (h : FeedsPaired cs) (lines : occurrences lf.mark cs = occurrences crlf.mark cs)
    (last : behindLast lf.mark cs = behindLast crlf.mark cs)
  /-- More often, as one stands alone. -/
  | lone (h : ¬ FeedsPaired cs) (lines : occurrences crlf.mark cs < occurrences lf.mark cs)

/-- With a line feed, one stands alone if one did before, or if this one does. -/
theorem Feeds.concat_feed (h : Feeds cs) : Feeds (cs ++ ['\n']) := by
  -- for line feeds alone a line ends in any case
  have hlf : occurrences lf.mark (cs ++ ['\n']) = occurrences lf.mark cs + 1 := by
    simp [occurrences_mark_concat, endsLine]
  have hlastLf : behindLast lf.mark (cs ++ ['\n']) = [] := by
    simp [behindLast_mark_concat, endsLine]
  by_cases hr : cs.getLast? = some '\r'
  · -- a line ends in both ways
    have hcrlf := occurrences_crlf_concat_pos hr
    have hlastCrlf := behindLast_crlf_concat_pos hr
    cases h with
    | paired h lines last =>
      exact .paired (feedsPaired_concat.2 ⟨h, fun _ => hr⟩) (by omega) (by rw [hlastLf, hlastCrlf])
    | lone h lines => exact .lone (fun hcs => h (feedsPaired_concat.1 hcs).1) (by omega)
  · -- a line ends by the line feed alone
    have hcrlf : occurrences crlf.mark (cs ++ ['\n']) = occurrences crlf.mark cs :=
      occurrences_crlf_concat_neg fun h => hr h.1
    have hlone : ¬ FeedsPaired (cs ++ ['\n']) := fun hcs => hr ((feedsPaired_concat.1 hcs).2 rfl)
    cases h with
    | paired h lines last => exact .lone hlone (by omega)
    | lone h lines => exact .lone hlone (by omega)

/-- With any other character no line ends. -/
theorem Feeds.concat_other (h : Feeds cs) (hc : c ≠ '\n') : Feeds (cs ++ [c]) := by
  have hlf : occurrences lf.mark (cs ++ [c]) = occurrences lf.mark cs := by
    simp [occurrences_mark_concat, endsLine, hc]
  have hlastLf : behindLast lf.mark (cs ++ [c]) = behindLast lf.mark cs ++ [c] := by
    simp [behindLast_mark_concat, endsLine, hc]
  have hnone : ¬ (cs.getLast? = some '\r' ∧ c = '\n') := fun h => hc h.2
  have hcrlf := occurrences_crlf_concat_neg hnone
  have hlastCrlf := behindLast_crlf_concat_neg hnone
  cases h with
  | paired h lines last =>
    exact .paired (feedsPaired_concat.2 ⟨h, fun h => absurd h hc⟩) (by omega)
      (by rw [hlastLf, hlastCrlf, last])
  | lone h lines => exact .lone (fun hcs => h (feedsPaired_concat.1 hcs).1) (by omega)

/-- Line feeds in any text. -/
theorem feeds_of_text (cs : List Char) : Feeds cs := by
  -- character by character from the left, as lines are counted
  induction cs using List.reverseRecOn with
  | nil =>
    apply Feeds.paired
    · intro before after hcs
      simp at hcs
    · simp [occurrences_nil, mark_ne_nil]
    · simp
  | append_singleton cs c ih =>
    by_cases hc : c = '\n'
    · rw [hc]
      exact ih.concat_feed
    · exact ih.concat_other hc

/-! ## Carriage returns -/

/-- How often carriage returns end lines, against how often line feeds do behind them. -/
inductive Returns (cs : List Char) : Prop
  /-- The same, and the last line begins one character earlier, at the line feed. -/
  | paired (h : ReturnsPairedSoFar cs) (hend : cs.getLast? ≠ some '\r')
    (lines : occurrences cr.mark cs = occurrences crlf.mark cs)
    (last : behindLast cr.mark cs =
      if occurrences crlf.mark cs = 0 then behindLast crlf.mark cs
      else '\n' :: behindLast crlf.mark cs)
  /-- Once more, at the end. -/
  | pending (h : ReturnsPairedSoFar cs) (hend : cs.getLast? = some '\r')
    (lines : occurrences cr.mark cs = occurrences crlf.mark cs + 1)
    (last : behindLast cr.mark cs = [])
  /-- More often, as one stands alone, and another perhaps is pending. -/
  | lone (h : ¬ ReturnsPairedSoFar cs)
    (lines : occurrences crlf.mark cs + (if cs.getLast? = some '\r' then 1 else 0) <
      occurrences cr.mark cs)

/-- With a carriage return one more is pending, and one that was pending stands alone. -/
theorem Returns.concat_return (h : Returns cs) : Returns (cs ++ ['\r']) := by
  have hend : (cs ++ ['\r']).getLast? = some '\r' := List.getLast?_concat
  have hcr : occurrences cr.mark (cs ++ ['\r']) = occurrences cr.mark cs + 1 := by
    simp [occurrences_mark_concat, endsLine]
  have hlastCr : behindLast cr.mark (cs ++ ['\r']) = [] := by
    simp [behindLast_mark_concat, endsLine]
  have hcrlf : occurrences crlf.mark (cs ++ ['\r']) = occurrences crlf.mark cs :=
    occurrences_crlf_concat_neg (by simp)
  -- a carriage return ends no line for both characters, so only one of the counts grows
  cases h with
  | paired h hlast lines last =>
    exact .pending (returnsPairedSoFar_concat.2 ⟨h, fun hr => absurd hr hlast⟩) hend (by omega)
      hlastCr
  | pending h hlast lines last =>
    -- the one that was pending has now something else behind it
    have hlone : ¬ ReturnsPairedSoFar (cs ++ ['\r']) := fun hcs =>
      absurd ((returnsPairedSoFar_concat.1 hcs).2 hlast) (by decide)
    apply Returns.lone hlone
    rw [if_pos hend]
    omega
  | lone h lines =>
    apply Returns.lone fun hcs => h (returnsPairedSoFar_concat.1 hcs).1
    rw [if_pos hend]
    omega

/-- With its line feed, a carriage return is no longer pending. -/
theorem Returns.concat_feed (h : Returns cs) (hr : cs.getLast? = some '\r') :
    Returns (cs ++ ['\n']) := by
  have hend : (cs ++ ['\n']).getLast? ≠ some '\r' := by simp
  have hcr : occurrences cr.mark (cs ++ ['\n']) = occurrences cr.mark cs := by
    simp [occurrences_mark_concat, endsLine]
  have hlastCr : behindLast cr.mark (cs ++ ['\n']) = behindLast cr.mark cs ++ ['\n'] := by
    simp [behindLast_mark_concat, endsLine]
  have hcrlf := occurrences_crlf_concat_pos hr
  have hlastCrlf := behindLast_crlf_concat_pos hr
  cases h with
  | paired h hlast lines last => exact absurd hr hlast
  | pending h hlast lines last =>
    refine .paired (returnsPairedSoFar_concat.2 ⟨h, fun _ => rfl⟩) hend (by omega) ?_
    -- only the line feed is behind the carriage return, and nothing behind both
    rw [if_neg (by omega), hlastCr, last, hlastCrlf, List.nil_append]
  | lone h lines =>
    rw [if_pos hr] at lines
    apply Returns.lone fun hcs => h (returnsPairedSoFar_concat.1 hcs).1
    rw [if_neg hend]
    omega

/-- With any other character, a carriage return that was pending stands alone. -/
theorem Returns.concat_other (h : Returns cs) (hc : c ≠ '\r')
    (hnone : ¬ (cs.getLast? = some '\r' ∧ c = '\n')) : Returns (cs ++ [c]) := by
  have hend : (cs ++ [c]).getLast? ≠ some '\r' := by simp [hc]
  have hcr : occurrences cr.mark (cs ++ [c]) = occurrences cr.mark cs := by
    simp [occurrences_mark_concat, endsLine, hc]
  have hlastCr : behindLast cr.mark (cs ++ [c]) = behindLast cr.mark cs ++ [c] := by
    simp [behindLast_mark_concat, endsLine, hc]
  have hcrlf := occurrences_crlf_concat_neg hnone
  have hlastCrlf := behindLast_crlf_concat_neg hnone
  -- neither count grows, but what was pending cannot be paired any more
  cases h with
  | paired h hlast lines last =>
    refine .paired (returnsPairedSoFar_concat.2 ⟨h, fun hr => absurd hr hlast⟩) hend (by omega) ?_
    rw [hlastCr, hlastCrlf, hcrlf, last]
    split <;> rfl
  | pending h hlast lines last =>
    have hlone : ¬ ReturnsPairedSoFar (cs ++ [c]) := fun hcs =>
      hnone ⟨hlast, (returnsPairedSoFar_concat.1 hcs).2 hlast⟩
    apply Returns.lone hlone
    rw [if_neg hend]
    omega
  | lone h lines =>
    apply Returns.lone fun hcs => h (returnsPairedSoFar_concat.1 hcs).1
    rw [if_neg hend]
    omega

/-- Carriage returns in any text. -/
theorem returns_of_text (cs : List Char) : Returns cs := by
  -- character by character from the left, as lines are counted
  induction cs using List.reverseRecOn with
  | nil =>
    apply Returns.paired
    · intro before after hcs
      simp at hcs
    · simp
    · simp [occurrences_nil, mark_ne_nil]
    · simp [occurrences_nil, mark_ne_nil]
  | append_singleton cs c ih =>
    by_cases hc : c = '\r'
    · rw [hc]
      exact ih.concat_return
    · by_cases hpair : cs.getLast? = some '\r' ∧ c = '\n'
      · rw [hpair.2]
        exact ih.concat_feed hpair.1
      · exact ih.concat_other hc hpair

end Text

/-! ## Locations -/

namespace Meter

variable {cs : List Char} {feed ret both : Meter}

/-- Over one text, two line endings lead to the same location if they end as many lines in it, and
    leave as many characters behind the last. -/
theorem Over.location_eq_iff {ending ending' : LineEnding} {m m' : Meter}
    (hm : m.Over ending cs) (hm' : m'.Over ending' cs) :
    m.location = m'.location ↔
      Text.occurrences ending.mark cs = Text.occurrences ending'.mark cs ∧
        (Text.behindLast ending.mark cs).length = (Text.behindLast ending'.mark cs).length := by
  -- the offset is the same whatever ends a line
  have hoffset : m.location.offset = m'.location.offset := Fin.ext (hm.offset.trans hm'.offset.symm)
  rw [← hm.line, ← hm.column, ← hm'.line, ← hm'.column]
  constructor
  · intro h
    simp [h]
  · intro h
    obtain ⟨⟨_, line, column⟩, _⟩ := m
    obtain ⟨⟨_, line', column'⟩, _⟩ := m'
    simp only [Location.mk.injEq]
    exact ⟨hoffset, Fin.ext h.1, Fin.ext h.2⟩

/-- A meter for line feeds beside one for both characters. -/
theorem Over.feeds (hfeed : feed.Over lf cs) (hboth : both.Over crlf cs) :
    both.location.line.val ≤ feed.location.line.val ∧
      (feed.location = both.location ↔ Text.FeedsPaired cs) := by
  rw [hfeed.location_eq_iff hboth, hfeed.line, hboth.line]
  cases Text.feeds_of_text cs with
  | paired h lines last => simp [h, lines, last]
  | lone h lines =>
    have hne := Nat.ne_of_gt lines
    simp [h, hne, lines.le]

/-- A meter for carriage returns beside one for both characters. -/
theorem Over.returns (hret : ret.Over cr cs) (hboth : both.Over crlf cs) :
    both.location.line.val ≤ ret.location.line.val ∧
      (ret.location.line = both.location.line ↔ Text.ReturnsPaired cs) ∧
      (ret.location.line = both.location.line →
        ret.location.column.val =
          if ret.location.line.val = 0 then both.location.column.val
          else both.location.column.val + 1) := by
  rw [Text.returnsPaired_iff, Fin.ext_iff, hret.line, hret.column, hboth.line, hboth.column]
  -- one case for each way in which the counts compare
  cases Text.returns_of_text cs with
  | paired h hend lines last =>
    refine ⟨lines.ge, by simp [h, hend, lines], fun _ => ?_⟩
    rw [last, lines]
    split <;> simp
  | pending h hend lines last =>
    -- the line of the last carriage return is not counted for both characters
    have hne : Text.occurrences cr.mark cs ≠ Text.occurrences crlf.mark cs := by omega
    exact ⟨by omega, by simp [hne, hend], fun heq => absurd heq hne⟩
  | lone h lines =>
    have hne : Text.occurrences cr.mark cs ≠ Text.occurrences crlf.mark cs := by omega
    exact ⟨by omega, by simp [hne, h], fun heq => absurd heq hne⟩

end Meter

namespace Location

/-- The three locations of one offset. Both characters together never end more lines than one of
    them does.

    Line feeds give the same location as both characters together exactly if each line feed before
    the offset has a carriage return before it. Carriage returns give the same line exactly if each
    of them has a line feed behind it that is still before the offset; then the column is the same
    on the first line, and one more on the others, which begin at the line feed. -/
theorem locate_endings_compared (input : String) (hsize : input.utf8ByteSize < 2 ^ 64)
    (o : Offset) :
    ∃ (feed ret both : Location) (before : String),
      locate .lf input o.val = .ok feed ∧ locate .cr input o.val = .ok ret ∧
      locate .crlf input o.val = .ok both ∧
      Text.slice? input 0 (Text.clamp input o.val) = some before ∧
      both.line.val ≤ feed.line.val ∧ both.line.val ≤ ret.line.val ∧
      (feed = both ↔ Text.FeedsPaired before.toList) ∧
      (ret.line = both.line ↔ Text.ReturnsPaired before.toList) ∧
      (ret.line = both.line →
        ret.column.val = if ret.line.val = 0 then both.column.val else both.column.val + 1) := by
  obtain ⟨_, hlf, -⟩ := locate_eq_ok lf hsize o.val
  obtain ⟨_, hcr, -⟩ := locate_eq_ok cr hsize o.val
  obtain ⟨_, hcrlf, -⟩ := locate_eq_ok crlf hsize o.val
  -- all three have come over one text, which is what stands before the boundary
  obtain ⟨feed, hfeed, rfl⟩ := exists_over_of_locate hlf
  obtain ⟨ret, hret, rfl⟩ := exists_over_of_locate hcr
  obtain ⟨both, hboth, rfl⟩ := exists_over_of_locate hcrlf
  obtain ⟨hfeedLine, hfeedEq⟩ := hfeed.feeds hboth
  obtain ⟨hretLine, hretEq, hretColumn⟩ := hret.returns hboth
  refine ⟨_, _, _, _, hlf, hcr, hcrlf, Text.slice?_clamp input o.val, ?_⟩
  rw [String.toList_ofList]
  exact ⟨hfeedLine, hretLine, hfeedEq, hretEq, hretColumn⟩

/-- Inside a wide character, behind two lines that both characters end. -/
theorem locate_endings_compared_paired :
    "a\r\nb\r\né".utf8ByteSize < 2 ^ 64 ∧
      ∃ before : String, Text.slice? "a\r\nb\r\né" 0 (Text.clamp "a\r\nb\r\né" 7) = some before ∧
        locate .lf "a\r\nb\r\né" 7 = .ok ⟨6, 2, 0⟩ ∧
        locate .cr "a\r\nb\r\né" 7 = .ok ⟨6, 2, 1⟩ ∧
        locate .crlf "a\r\nb\r\né" 7 = .ok ⟨6, 2, 0⟩ ∧
        Text.FeedsPaired before.toList ∧ Text.ReturnsPaired before.toList := by
  have hsize : "a\r\nb\r\né".utf8ByteSize < 2 ^ 64 := by decide
  have hlf : locate .lf "a\r\nb\r\né" 7 = .ok ⟨6, 2, 0⟩ := by cbv
  have hcr : locate .cr "a\r\nb\r\né" 7 = .ok ⟨6, 2, 1⟩ := by cbv
  have hcrlf : locate .crlf "a\r\nb\r\né" 7 = .ok ⟨6, 2, 0⟩ := by cbv
  obtain ⟨feed, ret, both, before, hfeed, hret, hboth, hbefore, -, -, hfeeds, hreturns, -⟩ :=
    locate_endings_compared "a\r\nb\r\né" hsize 7
  obtain rfl := Except.ok.inj (hfeed.symm.trans hlf)
  obtain rfl := Except.ok.inj (hret.symm.trans hcr)
  obtain rfl := Except.ok.inj (hboth.symm.trans hcrlf)
  exact ⟨hsize, before, hbefore, hlf, hcr, hcrlf, hfeeds.1 rfl, hreturns.1 rfl⟩

end Location

end ParserKit
