import ParserKit.Proofs.LocationOrder

/-!
# Measuring a text in pieces

A meter may be given a text at once or in any pieces, also such that a line ending is cut in two:
what it has to know of the piece before is the last character, and that it keeps. It comes to the
same location, or faults alike.

Where a meter starts only adds to what it measures. It comes to what a meter from the origin comes
to, with the start added: the lines and the bytes always, the columns as long as the text is still
on the line that it started on (`Meter.AheadBy`).

## Key results

- `Meter.foldlM_advance`: pieces are measured like the whole
- `Meter.exists_fault_of_foldlM` / `Meter.fault_of_step`: measuring breaks off at a character of a
  piece, where a count would be too large
- `Meter.AheadBy.step` / `Meter.AheadBy.advance`: a start is added to what is measured
-/

namespace ParserKit

/-- A sum faults only where it is too large. -/
theorem Offset.fault_of_add {a : Offset} {n : Nat} {f : Fault} (h : Offset.add a n = .error f) :
    f = .overflow := by
  unfold Offset.add at h
  split at h
  · cases h
  · cases h
    rfl

namespace Meter

variable {ending : LineEnding} {l : Location} {m m' m₀ : Meter} {s : List Char} {c : Char}
  {f : Fault}

/-! ## Pieces -/

/-- A meter moves over the pieces of a text as over all of it. -/
theorem foldlM_advance (ending : LineEnding) (m : Meter) (segments : List (List Char)) :
    segments.foldlM (advance ending) m = advance ending m segments.flatten := by
  induction segments generalizing m with
  | nil => rfl
  | cons s segments ih =>
    rw [List.foldlM_cons, List.flatten_cons, advance_append]
    exact congrArg (advance ending m s >>= ·) (funext ih)

/-- A character is not moved over only where a count would be too large. -/
theorem fault_of_step (h : step ending m c = .error f) : f = .overflow := by
  simp only [step, bind, Except.bind, pure, Except.pure] at h
  -- a step is made of additions, and each of them can only be too large
  split at h
  · rename_i hoffset
    cases h
    exact Offset.fault_of_add hoffset
  · split at h
    · split at h
      · rename_i hline
        cases h
        exact Offset.fault_of_add hline
      · cases h
    · split at h
      · rename_i hcolumn
        cases h
        exact Offset.fault_of_add hcolumn
      · cases h

/-- Where measuring a text breaks off, there is a character that is not moved over. -/
theorem exists_fault_of_advance (h : advance ending m s = .error f) :
    ∃ before c after m', s = before ++ c :: after ∧ advance ending m before = .ok m' ∧
      step ending m' c = .error f := by
  -- the character is the first one, or it stands in the rest
  induction s generalizing m with
  | nil => cases h
  | cons c s ih =>
    rw [advance, List.foldlM_cons] at h
    cases hstep : step ending m c with
    | error g =>
      rw [hstep] at h
      cases h
      exact ⟨[], c, s, m, rfl, rfl, hstep⟩
    | ok m₁ =>
      rw [hstep] at h
      obtain ⟨before, d, after, m', rfl, hbefore, hfault⟩ := ih h
      exact ⟨c :: before, d, after, m', rfl, advance_cons_eq_ok.2 ⟨m₁, hstep, hbefore⟩, hfault⟩

/-- Where measuring the pieces of a text breaks off, there is such a character in one of them. -/
theorem exists_fault_of_foldlM {segments : List (List Char)}
    (h : segments.foldlM (advance ending) m = .error f) :
    ∃ before s c t after m', segments = before ++ (s ++ c :: t) :: after ∧
      (before ++ [s]).foldlM (advance ending) m = .ok m' ∧ step ending m' c = .error f := by
  -- the first piece is measured, or measuring breaks off in it
  induction segments generalizing m with
  | nil => cases h
  | cons s segments ih =>
    rw [List.foldlM_cons] at h
    cases hs : advance ending m s with
    | error g =>
      rw [hs] at h
      cases h
      -- the character is in the first piece
      obtain ⟨before, c, after, m', rfl, hbefore, hfault⟩ := exists_fault_of_advance hs
      have hfirst : [before].foldlM (advance ending) m = .ok m' := by
        rw [List.foldlM_cons, hbefore]
        rfl
      exact ⟨[], before, c, after, segments, m', rfl, hfirst, hfault⟩
    | ok m₁ =>
      rw [hs] at h
      obtain ⟨before, t, c, u, after, m', rfl, hbefore, hfault⟩ := ih h
      have hall : (s :: before ++ [t]).foldlM (advance ending) m = .ok m' := by
        rw [List.cons_append, List.foldlM_cons, hs]
        exact hbefore
      exact ⟨s :: before, t, c, u, after, m', rfl, hall, hfault⟩

/-! ## Starts -/

/-- A meter that was started at `l` is where `m₀` is, which was started at the origin. -/
structure AheadBy (l : Location) (m m₀ : Meter) : Prop where
  previous : m.previous = m₀.previous
  offset : m.location.offset.val = l.offset.val + m₀.location.offset.val
  line : m.location.line.val = l.line.val + m₀.location.line.val
  column : m.location.column.val =
    if 0 < m₀.location.line.val then m₀.location.column.val
    else l.column.val + m₀.location.column.val

/-- Before anything is measured, a start is added to nothing. -/
theorem aheadBy_start (l : Location) : AheadBy l (start l) (start Location.origin) where
  previous := rfl
  offset := rfl
  line := rfl
  column := rfl

/-- If a character is moved over from `l`, it is from the origin, where no count is larger. -/
theorem AheadBy.exists_step (hm : AheadBy l m m₀) (h : Meter.step ending m c = .ok m') :
    ∃ m₀', Meter.step ending m₀ c = .ok m₀' := by
  obtain ⟨-, hoffset, hcount⟩ := step_cases h
  -- each count that `m` adds to has room, and that of `m₀` is not larger
  have hlt := m'.location.offset.isLt
  have hoffset₀ := hm.offset
  apply Meter.exists_step
  · omega
  · intro hends
    rw [← hm.previous] at hends
    obtain ⟨-, hline, -⟩ | ⟨hstays, -, -⟩ := hcount
    · have hlt := m'.location.line.isLt
      have hline₀ := hm.line
      omega
    · rw [hends] at hstays
      cases hstays
  · intro hstays
    rw [← hm.previous] at hstays
    obtain ⟨hends, -, -⟩ | ⟨-, -, hcolumn⟩ := hcount
    · rw [hends] at hstays
      cases hstays
    · have hlt := m'.location.column.isLt
      have hcolumn₀ := hm.column
      split at hcolumn₀ <;> omega

/-- With a character, a start is added as before, to the columns only until a line ends. -/
theorem AheadBy.step (hm : AheadBy l m m₀) (h : Meter.step ending m c = .ok m') :
    ∃ m₀', Meter.step ending m₀ c = .ok m₀' ∧ AheadBy l m' m₀' := by
  obtain ⟨m₀', hstep₀⟩ := hm.exists_step h
  obtain ⟨hprevious, hoffset, hcount⟩ := step_cases h
  obtain ⟨hprevious₀, hoffset₀, hcount₀⟩ := step_cases hstep₀
  rw [← hm.previous] at hcount₀
  -- the offsets grow alike; lines and columns depend on whether a line ends
  have hoffset' : m'.location.offset.val = l.offset.val + m₀'.location.offset.val := by
    rw [hoffset, hoffset₀, hm.offset, Nat.add_assoc]
  have hline := hm.line
  have hcolumn := hm.column
  obtain ⟨hends, hline', hcolumn'⟩ | ⟨hstays, hline', hcolumn'⟩ := hcount
  · obtain ⟨-, hline₀', hcolumn₀'⟩ | ⟨hstays, -, -⟩ := hcount₀
    · -- both end a line, and with it what the start adds to the columns
      refine ⟨m₀', hstep₀, hprevious.trans hprevious₀.symm, hoffset', by omega, ?_⟩
      rw [if_pos (by omega), hcolumn', hcolumn₀']
    · rw [hends] at hstays
      cases hstays
  · obtain ⟨hends, -, -⟩ | ⟨-, hline₀', hcolumn₀'⟩ := hcount₀
    · rw [hends] at hstays
      cases hstays
    · -- both stay on their lines and count one more column
      refine ⟨m₀', hstep₀, hprevious.trans hprevious₀.symm, hoffset', ?_, ?_⟩
      · rw [hline', hline₀', hline]
      · rw [hline₀', hcolumn', hcolumn₀', hcolumn]
        split <;> omega

/-- If a text is moved over from `l`, it is from the origin. -/
theorem AheadBy.advance (hm : AheadBy l m m₀) (h : Meter.advance ending m s = .ok m') :
    ∃ m₀', Meter.advance ending m₀ s = .ok m₀' ∧ AheadBy l m' m₀' := by
  induction h using advance_induction generalizing m₀ with
  | nil m => exact ⟨m₀, rfl, hm⟩
  | cons hstep hrest ih =>
    obtain ⟨m₁₀, hstep₀, hm₁⟩ := hm.step hstep
    obtain ⟨m₀', hrest₀, hm'⟩ := ih hm₁
    exact ⟨m₀', advance_cons_eq_ok.2 ⟨m₁₀, hstep₀, hrest₀⟩, hm'⟩

/-- What a meter measures does not depend on how a text is cut, and on where it starts only by a
    sum.

    Over any pieces of a text, empty ones and such that end inside a line ending among them, it
    comes to the same location as over the whole text, or breaks off with the same fault. The fault
    is that a count is too large, and both ways it is met at the same character, behind the same
    text measured alike. If nothing breaks off, then neither does a meter that starts at the origin,
    and the start is added to what that one measures: to the columns only if it counts no line. -/
theorem advance_segments (ending : LineEnding) (l : Location) (segments : List (List Char)) :
    segments.foldlM (advance ending) (start l) = advance ending (start l) segments.flatten ∧
    (∀ f, segments.foldlM (advance ending) (start l) = .error f →
      f = .overflow ∧ ∃ before s c t after m,
        segments = before ++ (s ++ c :: t) :: after ∧
        (before ++ [s]).foldlM (advance ending) (start l) = .ok m ∧
        advance ending (start l) (before.flatten ++ s) = .ok m ∧
        step ending m c = .error f) ∧
    ∀ m, segments.foldlM (advance ending) (start l) = .ok m →
      ∃ m₀, advance ending (start Location.origin) segments.flatten = .ok m₀ ∧
        m.location.offset.val = l.offset.val + m₀.location.offset.val ∧
        m.location.line.val = l.line.val + m₀.location.line.val ∧
        m.location.column.val =
          if 0 < m₀.location.line.val then m₀.location.column.val
          else l.column.val + m₀.location.column.val := by
  constructor
  · exact foldlM_advance ending (start l) segments
  constructor
  · intro f hf
    -- the text before the character is measured alike in pieces and as a whole
    obtain ⟨before, s, c, t, after, m, hsegments, hpieces, hfault⟩ := exists_fault_of_foldlM hf
    have hwhole := hpieces
    rw [foldlM_advance, List.flatten_append, List.flatten_singleton] at hwhole
    exact ⟨fault_of_step hfault, before, s, c, t, after, m, hsegments, hpieces, hwhole, hfault⟩
  · intro m hm
    rw [foldlM_advance] at hm
    -- the other meter keeps up with this one over the whole text
    obtain ⟨m₀, hm₀, hahead⟩ := (aheadBy_start l).advance hm
    exact ⟨m₀, hm₀, hahead.offset, hahead.line, hahead.column⟩

/-- From within a line, over a line ending that is cut in two by an empty piece. -/
theorem advance_segments_split_ending :
    [['a', '\r'], [], ['\n', 'b']].foldlM (advance .crlf) (start ⟨10, 4, 5⟩) =
        .ok ⟨⟨14, 5, 1⟩, some 'b'⟩ ∧
      ∃ m₀, advance .crlf (start Location.origin) ['a', '\r', '\n', 'b'] = .ok m₀ ∧
        m₀.location.offset.val = 4 ∧ m₀.location.line.val = 1 ∧ m₀.location.column.val = 1 := by
  have hm : [['a', '\r'], [], ['\n', 'b']].foldlM (advance .crlf) (start ⟨10, 4, 5⟩) =
      .ok ⟨⟨14, 5, 1⟩, some 'b'⟩ := by cbv
  obtain ⟨m₀, hm₀, hoffset, hline, hcolumn⟩ := (advance_segments .crlf ⟨10, 4, 5⟩ _).2.2 _ hm
  have hoffset₀ : 14 = 10 + m₀.location.offset.val := hoffset
  have hline₀ : 5 = 4 + m₀.location.line.val := hline
  have hcolumn₀ : m₀.location.column.val = 1 := by
    rw [if_pos (by omega)] at hcolumn
    exact hcolumn.symm
  exact ⟨hm, m₀, hm₀, by omega, by omega, hcolumn₀⟩

end Meter

end ParserKit
