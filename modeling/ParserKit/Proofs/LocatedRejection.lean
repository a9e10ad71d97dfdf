import ParserKit.Proofs.LocationMeaning
import ParserKit.Proofs.OffsetSafety
import ParserKit.Proofs.Reading

/-!
# Rejections agree with their failures

A rejection says twice where a parse failed: by the offsets of its failure, and by the locations of
these offsets. The two never disagree. The failures of a grammar without custom parsers name
boundaries, which are located at themselves; any other failure is located at the boundaries before
its offsets, in the same order. So the two sentences, of the failure and of the rejection, mention a
furthest position together.

## Key results

- `Location.text_eq_ok`: line and column of a located offset can be counted from one
- `Rejection.message_of_locate`: the sentence of a rejection, which is never a fault
- `Rejection.locate_order`: how the two locations of any failure stand to each other
- `Rulebook.isBoundary_of_run_failed`: a failed run from the start of a text names its boundaries

What this says of the rejections of a parse is stated last.
-/

namespace ParserKit

variable {ι κ : Type} {ending : LineEnding} {input : String}

/-! ## Sentences -/

/-- The sentence of a failure without its furthest offset. -/
def Failure.sentence [Text.Visibility] (f : Failure) : String :=
  s!"expected {f.expected.text} at offset {f.blamed.val}"

/-- What is added to the sentence where the furthest offset is mentioned. -/
def Failure.suffix (f : Failure) : String := s!" (reached offset {f.furthest.val})"

/-- The furthest offset of a failure is mentioned where it is further on than the blamed one. -/
theorem Failure.text_eq [Text.Visibility] (f : Failure) :
    f.text = if f.blamed.val < f.furthest.val then f.sentence ++ f.suffix else f.sentence := by
  unfold Failure.text sentence suffix
  split
  · rfl
  · exact String.append_empty

/-- Line and column from one, as text. -/
def Location.label (l : Location) : String := s!"{l.line.val + 1}:{l.column.val + 1}"

/-- Where a count of lines and columns has room for one more, it is written down. -/
theorem Location.text_eq_ok {l : Location} (hl : l.Bounded) (hroom : l.offset.val + 1 < 2 ^ 64) :
    l.text = .ok l.label := by
  obtain ⟨hline, hcolumn⟩ := hl
  have hline' : l.line.val + 1 < 2 ^ 64 := by omega
  have hcolumn' : l.column.val + 1 < 2 ^ 64 := by omega
  simp [text, label, Offset.add_eq_ok hline', Offset.add_eq_ok hcolumn', bind, Except.bind, pure,
    Except.pure]

/-- A located offset is written down as its line and column. -/
theorem Location.text_of_locate (hsize : input.utf8ByteSize + 1 < 2 ^ 64) {o : Nat} {l : Location}
    (hl : Location.locate ending input o = .ok l) : l.text = .ok l.label := by
  have hsize' : input.utf8ByteSize < 2 ^ 64 := by omega
  obtain ⟨l', hl', hbounded, hoffset⟩ := Location.locate_eq_ok ending hsize' o
  rw [hl'] at hl
  cases hl
  -- a location stands within the text, and no text is as large as the largest offset
  have hle := Text.width_takeBytes_le o input.toList
  rw [Text.width_toList] at hle
  exact Location.text_eq_ok hbounded (by omega)

namespace Rejection

variable {f : Failure} {r : Rejection}

/-- The sentence of a rejection without its furthest location. -/
def sentence [Text.Visibility] (r : Rejection) : String :=
  s!"expected {r.failure.expected.text} at {r.blamed.label}"

/-- What is added to the sentence where the furthest location is mentioned. -/
def suffix (r : Rejection) : String := s!" (furthest {r.furthest.label})"

/-- The sentence of a located failure. Neither line nor column is too large to be written. -/
theorem message_of_locate [Text.Visibility] (hsize : input.utf8ByteSize + 1 < 2 ^ 64)
    (hr : locate ending input f = .ok r) :
    r.message =
      .ok (if r.blamed.offset.val < r.furthest.offset.val then r.sentence ++ r.suffix
        else r.sentence) := by
  obtain ⟨-, hblamed, hfurthest⟩ := locate_eq_ok_iff.1 hr
  have hblamed' := Location.text_of_locate hsize hblamed
  have hfurthest' := Location.text_of_locate hsize hfurthest
  simp only [message, hblamed', hfurthest', bind, Except.bind]
  split
  · simp [sentence, suffix, Except.map, pure, Except.pure, toString]
  · simp [sentence, pure, Except.pure, toString]

/-- The two locations of a failure are one, or the furthest is further on in the text and further
    down or to the right, and the sentence mentions it. -/
theorem locate_order [Text.Visibility] (hsize : input.utf8ByteSize + 1 < 2 ^ 64)
    (hr : locate ending input f = .ok r) :
    r.blamed = r.furthest ∧ r.message = .ok r.sentence ∨
      r.blamed.offset.val < r.furthest.offset.val ∧ r.blamed.place < r.furthest.place ∧
        r.message = .ok (r.sentence ++ r.suffix) := by
  obtain ⟨-, hblamed, hfurthest⟩ := locate_eq_ok_iff.1 hr
  have hmessage := message_of_locate hsize hr
  -- the blamed offset is not behind the furthest one
  rcases Location.locate_order hblamed hfurthest f.blamed_le_furthest with heq | ⟨hlt, hplace⟩
  · left
    refine ⟨heq, ?_⟩
    simpa [heq] using hmessage
  · right
    rw [if_pos hlt] at hmessage
    exact ⟨hlt, hplace, hmessage⟩

end Rejection

/-! ## Failures of a parse -/

namespace Rulebook

variable {book : Rulebook ι κ} {g : Grammar ι κ}

/-- The failure of a run from the start of a text names boundaries of the text. -/
theorem isBoundary_of_run_failed (hg : book.CustomFree g) (hsize : input.utf8ByteSize < 2 ^ 64)
    {f : Failure} (hf : (book.run g (Cursor.start input)).ending = .ok (.failed f)) :
    Text.isBoundary input f.blamed.val = true ∧ Text.isBoundary input f.furthest.val = true := by
  have hwithin := (runWith_within hg hsize _).outcome hf
  -- the start is a boundary, and from a boundary a parse comes to boundaries only
  have hstart : Text.isBoundary input (Cursor.start input).offset.val = true :=
    (Text.before_zero input).isBoundary
  have hto {o : Offset} (ho : Text.Leads input (Cursor.start input).offset o) :
      Text.isBoundary input o.val = true := by
    rcases ho with heq | ⟨-, -, ho⟩
    · rw [← heq]
      exact hstart
    · exact ho
  exact ⟨hto hwithin.1, hto hwithin.2⟩

/-- Where the parse of a text failed, told by offsets and by locations, whatever ends a line.

    A rejection holds the failure of the run from the start of the text, of a grammar that passed
    its check. Unless custom parsers took part it is located where it was met: no offset had to be
    moved to a boundary before it. The furthest location is not before the blamed one, and it is
    further down or to the right exactly if its offset is further on. Then both sentences mention
    it, and otherwise neither of them does.

    Any failure at all can be located in a text. Its offsets may then be moved to boundaries before
    them, but still the furthest location is not before the blamed one, and the sentence mentions
    it exactly if the two stand at different offsets.

    The text is shorter than the largest offset, since lines and columns are written counting from
    one. Which characters show between quotes makes no difference to any of it. -/
theorem parseText_locates [Text.Visibility] (ι κ : Type) (ending : LineEnding) (input : String)
    (hsize : input.utf8ByteSize + 1 < 2 ^ 64) :
    (∀ (book : Rulebook ι κ) (g : Grammar ι κ), book.CustomFree g → ∀ r : Rejection,
      (book.parseText ending g input).ending = .ok (.error (.rejected r)) →
      (book.check Visited.empty g).ending = .ok () ∧
      (book.run g (Cursor.start input)).ending = .ok (.failed r.failure) ∧
      r.blamed.offset = r.failure.blamed ∧ r.furthest.offset = r.failure.furthest ∧
      r.blamed.place ≤ r.furthest.place ∧
      (r.blamed.place < r.furthest.place ↔ r.failure.blamed.val < r.failure.furthest.val) ∧
      (r.failure.blamed = r.failure.furthest ∧
          r.failure.text = r.failure.sentence ∧ r.message = .ok r.sentence ∨
        r.failure.blamed.val < r.failure.furthest.val ∧
          r.failure.text = r.failure.sentence ++ r.failure.suffix ∧
          r.message = .ok (r.sentence ++ r.suffix))) ∧
    (∀ f : Failure, ∃ r : Rejection, Rejection.locate ending input f = .ok r ∧ r.failure = f ∧
      r.blamed.offset.val ≤ r.furthest.offset.val ∧ r.blamed.place ≤ r.furthest.place ∧
      (r.blamed.offset = r.furthest.offset ∧ r.message = .ok r.sentence ∨
        r.blamed.offset ≠ r.furthest.offset ∧ r.message = .ok (r.sentence ++ r.suffix))) := by
  constructor
  · intro book g hg r hr
    obtain ⟨hparse, hlocate⟩ := parseText_eq_rejected_iff.1 hr
    -- a rejection comes from a parse that ran, and so from a check that passed
    obtain ⟨hcheck, hrun⟩ := parse_eq_ok_iff.1 hparse
    obtain ⟨hblamedBoundary, hfurthestBoundary⟩ := isBoundary_of_run_failed hg (by omega) hrun
    obtain ⟨-, hblamed, hfurthest⟩ := Rejection.locate_eq_ok_iff.1 hlocate
    have hblamed' : r.blamed.offset = r.failure.blamed :=
      Fin.ext (Location.offset_of_locate hblamedBoundary hblamed)
    have hfurthest' : r.furthest.offset = r.failure.furthest :=
      Fin.ext (Location.offset_of_locate hfurthestBoundary hfurthest)
    refine ⟨hcheck, hrun, hblamed', hfurthest', ?_⟩
    -- so the order of the locations is that of the offsets of the failure
    rw [← hblamed', ← hfurthest', r.failure.text_eq, ← hblamed', ← hfurthest']
    rcases Rejection.locate_order hsize hlocate with ⟨heq, hmessage⟩ | ⟨hlt, hplace, hmessage⟩
    · rw [heq]
      simp [hmessage]
    · simp [hlt, hplace, hplace.le, hmessage]
  · intro f
    have hsize' : input.utf8ByteSize < 2 ^ 64 := by omega
    obtain ⟨r, hlocate, hf⟩ := Rejection.locate_eq_ok ending hsize' f
    refine ⟨r, hlocate, hf, ?_⟩
    -- of any failure only the order of its two locations is known
    rcases Rejection.locate_order hsize hlocate with ⟨heq, hmessage⟩ | ⟨hlt, hplace, hmessage⟩
    · rw [heq]
      simp [hmessage]
    · have hne : r.blamed.offset ≠ r.furthest.offset := by
        rw [Fin.ne_iff_vne]
        omega
      simp [hlt.le, hplace.le, hne, hmessage]

/-- A line break, a wide character and a question mark. -/
def questionOnSecondLine : Grammar Empty Unit :=
  .either [.sequence [.symbol '\n', .symbol 'é', .symbol '?']]

/-- On the second line, behind a wide character, no question mark stands. -/
theorem parseText_locates_second_line :
    "\né!".utf8ByteSize + 1 < 2 ^ 64 ∧ noRules.CustomFree questionOnSecondLine ∧
      ∃ r : Rejection,
        (noRules.parseText .lf questionOnSecondLine "\né!").ending = .ok (.error (.rejected r)) ∧
        r.failure = ⟨0, 3, .alternative, by decide⟩ ∧ r.blamed.place < r.furthest.place ∧
        @Rejection.message .ascii r =
          .ok "expected one of the alternatives at 1:1 (furthest 2:2)" := by
  have hsize : "\né!".utf8ByteSize + 1 < 2 ^ 64 := by decide
  have hfree : noRules.CustomFree questionOnSecondLine :=
    customFree_of_all (by intro i; cases i) rfl
  -- the rejection is given, and that it is the answer is computed
  let r : Rejection := ⟨⟨0, 3, .alternative, by decide⟩, ⟨0, 0, 0⟩, ⟨3, 1, 1⟩⟩
  have hrun : (noRules.runWith 0 questionOnSecondLine (Cursor.start "\né!")).ending =
      .ok (.failed r.failure) := by cbv
  have hparse : (noRules.parse questionOnSecondLine (Cursor.start "\né!")).ending =
      .ok (.ok (.failed r.failure)) := parse_eq_ok_iff.2 ⟨by cbv, ending_run_eq_ok hrun⟩
  have hrejected : (noRules.parseText .lf questionOnSecondLine "\né!").ending =
      .ok (.error (.rejected r)) := parseText_eq_rejected_iff.2 ⟨hparse, by cbv⟩
  obtain ⟨-, -, -, -, -, hplace, hmessage⟩ :=
    (@parseText_locates .ascii Empty Unit .lf "\né!" hsize).1 _ _ hfree r hrejected
  refine ⟨hsize, hfree, r, hrejected, rfl, hplace.2 (by decide), ?_⟩
  rcases hmessage with ⟨heq, -⟩ | ⟨-, -, hmessage⟩
  · cases heq
  · rw [hmessage]
    decide +kernel

end Rulebook

end ParserKit
