import ParserKit.Location.Rejection
import ParserKit.Proofs.TextPosition

/-!
# Locating never overflows

A meter counts bytes, lines and columns in numbers below `2 ^ 64`. Lines and columns never pass the
bytes (`Location.Bounded`), so a meter that begins at the start of a text can be moved over all of
it, as long as the text itself is of such a size.

## Key results

- `Meter.step_cases` / `Meter.exists_step`: all that a meter can do with a character, and when
- `Meter.advance_eq_ok`: a meter moves over what there is room for
- `Location.locate_eq_ok`: every offset of a text is located
- `Rejection.locate_eq_ok`: so is every failure
-/

namespace ParserKit

/-- What a sum comes to, if it fits. -/
theorem Offset.val_of_add {a b : Offset} {n : Nat} (h : Offset.add a n = .ok b) :
    b.val = a.val + n := by
  unfold Offset.add at h
  split at h
  · rename_i hsum
    cases h
    exact Offset.add?_eq_some.1 hsum
  · cases h

namespace Text

/-- What is taken stands at the start. -/
theorem exists_takeBytes_append (n : Nat) (cs : List Char) :
    ∃ rest, cs = takeBytes n cs ++ rest := by
  induction cs generalizing n with
  | nil => exact ⟨[], by simp [takeBytes]⟩
  | cons c cs ih =>
    by_cases hfits : c.utf8Size ≤ n
    · obtain ⟨rest, hrest⟩ := ih (n - c.utf8Size)
      refine ⟨rest, ?_⟩
      rw [takeBytes, if_pos hfits, List.cons_append, ← hrest]
    · exact ⟨c :: cs, by rw [takeBytes, if_neg hfits, List.nil_append]⟩

/-- No more is taken than there is. -/
theorem width_takeBytes_le (n : Nat) (cs : List Char) : width (takeBytes n cs) ≤ width cs := by
  obtain ⟨rest, hrest⟩ := exists_takeBytes_append n cs
  have hw := congrArg width hrest
  rw [width_append] at hw
  omega

end Text

/-- No more lines and columns have been counted than bytes. -/
def Location.Bounded (l : Location) : Prop :=
  l.line.val ≤ l.offset.val ∧ l.column.val ≤ l.offset.val

namespace Meter

variable {ending : LineEnding} {m m' : Meter} {c : Char}

/-- All that a meter can do with a character: it moves on by its bytes, and either ends a line with
    it or counts one more column. -/
theorem step_cases (h : step ending m c = .ok m') :
    m'.previous = some c ∧ m'.location.offset.val = m.location.offset.val + c.utf8Size ∧
      (ending.endsLine m.previous c = true ∧ m'.location.line.val = m.location.line.val + 1 ∧
          m'.location.column.val = 0 ∨
        ending.endsLine m.previous c = false ∧ m'.location.line = m.location.line ∧
          m'.location.column.val = m.location.column.val + 1) := by
  simp only [step, bind, Except.bind, pure, Except.pure] at h
  -- a split for each sum that may not fit, and one for whether the character ends a line
  split at h
  · cases h
  · rename_i offset hoffset
    split at h
    · rename_i hends
      split at h
      · cases h
      · rename_i line hline
        cases h
        exact ⟨rfl, Offset.val_of_add hoffset, .inl ⟨hends, Offset.val_of_add hline, rfl⟩⟩
    · rename_i hends
      split at h
      · cases h
      · rename_i column hcolumn
        cases h
        have hends' := Bool.eq_false_iff.2 hends
        exact ⟨rfl, Offset.val_of_add hoffset, .inr ⟨hends', rfl, Offset.val_of_add hcolumn⟩⟩

/-- A meter moves over a character if there is room in the counts that it adds to. -/
theorem exists_step (hoffset : m.location.offset.val + c.utf8Size < 2 ^ 64)
    (hline : ending.endsLine m.previous c = true → m.location.line.val + 1 < 2 ^ 64)
    (hcolumn : ending.endsLine m.previous c = false → m.location.column.val + 1 < 2 ^ 64) :
    ∃ m', step ending m c = .ok m' := by
  simp only [step, Offset.add_eq_ok hoffset, bind, Except.bind, pure, Except.pure]
  by_cases hends : ending.endsLine m.previous c = true
  · simp [hends, Offset.add_eq_ok (hline hends)]
  · have hends' := Bool.eq_false_iff.2 hends
    simp [hends', Offset.add_eq_ok (hcolumn hends')]

/-- A meter with room for a character moves over it. -/
theorem step_eq_ok (ending : LineEnding) {m : Meter} (hm : m.location.Bounded) {c : Char}
    (hroom : m.location.offset.val + c.utf8Size < 2 ^ 64) :
    ∃ m', step ending m c = .ok m' ∧ m'.location.Bounded ∧
      m'.location.offset.val = m.location.offset.val + c.utf8Size := by
  have hc := c.utf8Size_pos
  obtain ⟨hline, hcolumn⟩ := hm
  -- a character counts as one line or one column, and takes at least one byte
  obtain ⟨m', hstep⟩ : ∃ m', step ending m c = .ok m' :=
    exists_step hroom (fun _ => by omega) (fun _ => by omega)
  obtain ⟨-, hoffset, ⟨-, hline', hcolumn'⟩ | ⟨-, hline', hcolumn'⟩⟩ := step_cases hstep
  · exact ⟨m', hstep, ⟨by omega, by omega⟩, hoffset⟩
  · rw [← hline'] at hline
    exact ⟨m', hstep, ⟨by omega, by omega⟩, hoffset⟩

/-- A meter with room for a piece of text moves over it. -/
theorem advance_eq_ok (ending : LineEnding) {m : Meter} (hm : m.location.Bounded)
    {segment : List Char} (hroom : m.location.offset.val + Text.width segment < 2 ^ 64) :
    ∃ m', advance ending m segment = .ok m' ∧ m'.location.Bounded ∧
      m'.location.offset.val = m.location.offset.val + Text.width segment := by
  induction segment generalizing m with
  | nil => exact ⟨m, rfl, hm, by simp⟩
  | cons c segment ih =>
    rw [Text.width_cons] at hroom ⊢
    obtain ⟨m₁, hstep, hm₁, hoffset₁⟩ := step_eq_ok ending hm (c := c) (by omega)
    obtain ⟨m₂, hadvance, hm₂, hoffset₂⟩ := ih hm₁ (by omega)
    refine ⟨m₂, ?_, hm₂, by omega⟩
    rw [advance, List.foldlM_cons, hstep]
    exact hadvance

end Meter

variable {input : String}

/-- Every offset of a text is located, past the end and inside a character as well: at the end of
    the whole characters before it. -/
theorem Location.locate_eq_ok (ending : LineEnding) (hsize : input.utf8ByteSize < 2 ^ 64)
    (offset : Nat) :
    ∃ l, Location.locate ending input offset = .ok l ∧ l.Bounded ∧
      l.offset.val = Text.width (Text.takeBytes offset input.toList) := by
  have hstart : (Meter.start origin).location.Bounded := ⟨Nat.le_refl _, Nat.le_refl _⟩
  have hzero : (Meter.start origin).location.offset.val = 0 := rfl
  -- what is measured is a beginning of the text, so no count comes to be too large
  have hroom : Text.width (Text.takeBytes offset input.toList) < 2 ^ 64 := by
    have hle := Text.width_takeBytes_le offset input.toList
    rw [Text.width_toList] at hle
    omega
  obtain ⟨m, hm, hbounded, hoffset⟩ :=
    Meter.advance_eq_ok ending hstart (by rwa [hzero, Nat.zero_add])
  rw [hzero, Nat.zero_add] at hoffset
  exact ⟨m.location, by rw [Location.locate, hm]; rfl, hbounded, hoffset⟩

/-- A rejection is a failure with the locations of its two offsets. -/
theorem Rejection.locate_eq_ok_iff {ending : LineEnding} {f : Failure} {r : Rejection} :
    Rejection.locate ending input f = .ok r ↔
      r.failure = f ∧ Location.locate ending input f.blamed.val = .ok r.blamed ∧
        Location.locate ending input f.furthest.val = .ok r.furthest := by
  obtain ⟨failure, blamed, furthest⟩ := r
  rw [Rejection.locate]
  cases Location.locate ending input f.blamed.val <;>
    cases Location.locate ending input f.furthest.val <;>
      simp [bind, Except.bind, pure, Except.pure, eq_comm]

/-- Every failure is located. -/
theorem Rejection.locate_eq_ok (ending : LineEnding) (hsize : input.utf8ByteSize < 2 ^ 64)
    (f : Failure) : ∃ r, Rejection.locate ending input f = .ok r ∧ r.failure = f := by
  obtain ⟨blamed, hblamed, -⟩ := Location.locate_eq_ok ending hsize f.blamed.val
  obtain ⟨furthest, hfurthest, -⟩ := Location.locate_eq_ok ending hsize f.furthest.val
  exact ⟨⟨f, blamed, furthest⟩, Rejection.locate_eq_ok_iff.2 ⟨rfl, hblamed, hfurthest⟩, rfl⟩

end ParserKit
