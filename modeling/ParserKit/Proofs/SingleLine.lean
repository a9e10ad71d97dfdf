import ParserKit.Proofs.HonestFailure
import ParserKit.Proofs.LocatedRejection

/-!
# Messages of one line

A report gives a line to each text, so what it puts there must not break the line
(`Text.OneLine`), whatever the text is. Quoting sees to that: a line feed within quotes is written
with a backslash, whichever characters show. Counts are digits. So the message of a rejection is of
one line unless the failure has words of its own, which only parsers of one's own can give it.

## Key results

- `Text.oneLine_quoteWith`: what is quoted is of one line
- `Rulebook.expected_ne_custom`: what is expected where no parser of one's own takes part
- `Rejection.oneLine_of_message`: so its message is of one line
-/

namespace ParserKit

namespace Text

/-- The text has no line feed. -/
def OneLine (s : String) : Prop := '\n' ∉ s.toList

instance (s : String) : Decidable (OneLine s) := inferInstanceAs (Decidable ('\n' ∉ s.toList))

/-- Texts put one behind the other are of one line if each of them is. -/
@[simp] theorem oneLine_append {s t : String} : OneLine (s ++ t) ↔ OneLine s ∧ OneLine t := by
  simp only [OneLine, String.toList_append, List.mem_append, not_or]

/-- A plain character is no line feed. -/
theorem oneLine_of_plain {s : String} (h : ∀ c ∈ s.toList, Plain c) : OneLine s :=
  fun hline => (h _ hline).ne_of_lt (by decide) rfl

/-- Digits to any base are written with digits and letters. -/
theorem newline_not_mem_toDigits {b : Nat} (hb : 1 < b) (n : Nat) : '\n' ∉ Nat.toDigits b n := by
  have hdigit (k : Nat) : '\n' ≠ Nat.digitChar k := (Nat.digitChar_ne '\n' (by decide)).symm
  -- the digits before the last one are those of a smaller number
  induction n using Nat.strongRecOn with
  | ind n ih =>
    rw [Nat.toDigits_eq_if hb]
    split
    · simp [hdigit]
    · have hless : n / b < n := Nat.div_lt_self (by omega) hb
      simp [hdigit, ih _ hless]

/-- A count is written in one line. -/
@[simp] theorem oneLine_toString (n : Nat) : OneLine (toString n) := by
  rw [OneLine, Nat.toString_eq_ofList_toDigits, String.toList_ofList]
  exact newline_not_mem_toDigits (by decide) n

section Quoted

variable [Visibility]

/-- A line feed within quotes is written with a backslash and a letter. -/
theorem newline_not_mem_escape (quote c : Char) : '\n' ∉ escape quote c := by
  unfold escape
  -- the four characters with a name of their own, among them the line feed
  split
  · decide
  split
  · decide
  split
  · decide
  split
  · decide
  rename_i hc
  -- from here on `c` is not the line feed, and is written as it is or with its number
  split
  · simp [Ne.symm hc]
  split
  · simp [Ne.symm hc]
  · have hdigits := newline_not_mem_toDigits (b := 16) (by decide) c.toNat
    simp [numericEscape, hdigits]

/-- Whatever is quoted is of one line, as only the quotes around it are not escaped. -/
theorem oneLine_quoteWith {quote : Char} (hquote : quote ≠ '\n') (s : List Char) :
    OneLine (quoteWith quote s) := by
  simp [OneLine, quoteWith, hquote.symm, newline_not_mem_escape]

/-- A quoted character is of one line, also if it is the line feed. -/
@[simp] theorem oneLine_quoteChar (c : Char) : OneLine (quoteChar c) :=
  oneLine_quoteWith (by decide) [c]

/-- A quoted text is of one line, however many lines the text has. -/
@[simp] theorem oneLine_quoteString (s : String) : OneLine (quoteString s) :=
  oneLine_quoteWith (by decide) s.toList

end Quoted

end Text

open Text (OneLine)

/-- Of all expectations only words of one's own may break the line. -/
theorem Expectation.oneLine_text [Text.Visibility] {e : Expectation}
    (h : ∀ text, e ≠ .custom text) : OneLine e.text := by
  -- the words around what is quoted are fixed, so they can be looked through
  cases e with
  | endOfInput =>
    show OneLine "end of input"
    decide
  | symbol c =>
    show OneLine ("symbol " ++ Text.quoteChar c)
    exact Text.oneLine_append.2 ⟨by decide, Text.oneLine_quoteChar c⟩
  | range lo hi =>
    show OneLine ("a character in " ++ Text.quoteChar lo ++ "..=" ++ Text.quoteChar hi)
    have hlo : OneLine ("a character in " ++ Text.quoteChar lo) :=
      Text.oneLine_append.2 ⟨by decide, Text.oneLine_quoteChar lo⟩
    have hdots : OneLine ("a character in " ++ Text.quoteChar lo ++ "..=") :=
      Text.oneLine_append.2 ⟨hlo, by decide⟩
    exact Text.oneLine_append.2 ⟨hdots, Text.oneLine_quoteChar hi⟩
  | word w =>
    show OneLine ("word " ++ Text.quoteString w)
    exact Text.oneLine_append.2 ⟨by decide, Text.oneLine_quoteString w⟩
  | alternative =>
    show OneLine "one of the alternatives"
    decide
  | custom text => exact absurd rfl (h text)

/-- A place in the text is written with two counts and a colon. -/
theorem Location.oneLine_label (l : Location) : OneLine l.label := by
  have hcolon : OneLine ":" := by decide
  simp only [label, Text.oneLine_append, Text.oneLine_toString, true_and]
  exact ⟨hcolon, trivial⟩

/-- The message of a rejection is of one line if what was expected is not in words of one's own. -/
theorem Rejection.oneLine_of_message [Text.Visibility] {ending : LineEnding} {input : String}
    {f : Failure} {r : Rejection} {m : String} (hsize : input.utf8ByteSize + 1 < 2 ^ 64)
    (hr : locate ending input f = .ok r) (hf : ∀ text, f.expected ≠ .custom text)
    (hm : r.message = .ok m) : OneLine m := by
  obtain ⟨hfailure, -, -⟩ := locate_eq_ok_iff.1 hr
  -- locating a failure leaves what was expected as it is
  have hexpected : OneLine r.failure.expected.text := by
    rw [hfailure]
    exact Expectation.oneLine_text hf
  have hsentence : OneLine r.sentence := by
    have hwords : OneLine "expected " ∧ OneLine " at " := by decide
    simp only [sentence, Text.oneLine_append]
    exact ⟨⟨⟨hwords.1, hexpected⟩, hwords.2⟩, r.blamed.oneLine_label⟩
  have hsuffix : OneLine r.suffix := by
    have hwords : OneLine " (furthest " ∧ OneLine ")" := by decide
    simp only [suffix, Text.oneLine_append]
    exact ⟨⟨hwords.1, r.furthest.oneLine_label⟩, hwords.2⟩
  rw [message_of_locate hsize hr] at hm
  -- the suffix stands there only if the parse came further than what is blamed
  split at hm
  · cases hm
    exact Text.oneLine_append.2 ⟨hsentence, hsuffix⟩
  · cases hm
    exact hsentence

/-- Where no parser of one's own takes part, nothing is expected in words of one's own. -/
theorem Rulebook.expected_ne_custom {ι κ : Type} {book : Rulebook ι κ} {g : Grammar ι κ}
    {input : String} (hfree : book.CustomFree g) (hbranches : book.HasBranches g)
    (hsize : input.utf8ByteSize < 2 ^ 64) {o : Offset} {f : Failure}
    (hf : (book.run g ⟨input, o⟩).ending = .ok (.failed f)) (text : String) :
    f.expected ≠ .custom text := by
  intro hcustom
  -- what is expected is what some node expects that failed
  obtain ⟨t, hexpects, -, -⟩ := (honest_of_runWith hsize _ g hfree hbranches o f hf).blame
  rw [hcustom] at hexpects
  cases t with
  | endOfInput | symbol | range | word | either | oneOf => cases hexpects
  | sequence | many | map | rule | watch | custom => cases hexpects

end ParserKit
