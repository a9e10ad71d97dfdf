import ParserKit.Proofs.FuelIndependence
import ParserKit.Proofs.OffsetSafety

/-!
# Rounds of a repetition

The rounds of a repetition are described as a relation (`Parser.Repeats`): each round is a match of
the item at the end of the match before, and the last one either fails, or reads a value and leads
no further. A repetition succeeds exactly if there are such rounds, and then with their values and
from where it began to where they end (`Parser.manyFrom_eq_done_iff`).

Where the rounds end, the item either fails or reads a value from nothing, and reads it again when
it is asked again. So another repetition that is begun there takes at most one value, from nothing
(`Parser.Repeats.settled`), and a repetition of a repetition makes exactly one such round after the
first one, unless the first one has already read nothing.

## Key results

- `Parser.manyFrom_eq_done_iff`: the loop and its rounds
- `Parser.Repeats.settled`: what the rounds are that begin where others have ended
- `Rulebook.run_many_eq_done_iff`: the rounds of a grammar

What a repetition of a repetition reads is stated last.
-/

namespace ParserKit

variable {α ι κ : Type}

namespace Parser

/-- `p.Repeats input o vs e`: the rounds of a repetition of `p` from the offset `o` of `input` on
    read the values `vs` and end at `e`. -/
inductive Repeats (p : Parser α) (input : String) : Offset → List α → Offset → Prop
  /-- The item fails, and the round counts for nothing. -/
  | stop {o : Offset} {f : Failure} :
      (p ⟨input, o⟩).ending = .ok (.failed f) → Repeats p input o [] o
  /-- The item leads no further. Its value is kept. -/
  | last {o : Offset} {v : α} {s : Span} :
      (p ⟨input, o⟩).ending = .ok (.done v s) → ¬ o.val < s.stop.val →
      Repeats p input o [v] s.stop
  /-- The item leads further, and there is another round. -/
  | next {o e : Offset} {v : α} {s : Span} {vs : List α} :
      (p ⟨input, o⟩).ending = .ok (.done v s) → o.val < s.stop.val →
      Repeats p input s.stop vs e → Repeats p input o (v :: vs) e

variable {p : Parser α} {input : String} {start o e : Offset} {vs : List α} {sp : Span}

/-- A repetition that began before succeeds exactly if there are rounds of it, with their values,
    and comes to where they end. -/
theorem manyFrom_eq_done_iff :
    (manyFrom p start ⟨input, o⟩).ending = .ok (.done vs sp) ↔
      sp.begin = start ∧ Repeats p input o vs sp.stop := by
  constructor
  · intro h
    -- only a round that leads further has another one behind it
    induction o using Offset.forward_induction generalizing vs with
    | further o ih =>
      rw [manyFrom] at h
      obtain ⟨x, hx, h⟩ := Run.andThen_eq_ok.1 h
      cases x with
      | failed f =>
        obtain ⟨hbetween, rfl⟩ := Run.doneAt_eq_done.1 h
        obtain ⟨hbegin, hstop⟩ := Span.between_eq_ok.1 hbetween
        exact ⟨hbegin, hstop ▸ .stop hx⟩
      | done v s =>
        dsimp only at h
        split at h
        · rename_i hmoves
          obtain ⟨ws, hrest, rfl⟩ := Run.mapValue_eq_done.1 h
          obtain ⟨hbegin, hrounds⟩ := ih s.stop hmoves hrest
          exact ⟨hbegin, .next hx hmoves hrounds⟩
        · rename_i hstays
          obtain ⟨hbetween, rfl⟩ := Run.doneAt_eq_done.1 h
          obtain ⟨hbegin, hstop⟩ := Span.between_eq_ok.1 hbetween
          exact ⟨hbegin, hstop ▸ .last hx hstays⟩
  · rintro ⟨hbegin, h⟩
    generalize hstop : sp.stop = e at h
    have hbetween : Span.between start e = .ok sp := Span.between_eq_ok.2 ⟨hbegin, hstop⟩
    -- round by round; the loop is unfolded once for each
    induction h with
    | stop hp =>
      rw [manyFrom]
      exact Run.andThen_eq_ok.2 ⟨_, hp, Run.doneAt_eq_done.2 ⟨hbetween, rfl⟩⟩
    | last hp hstays =>
      rw [manyFrom]
      refine Run.andThen_eq_ok.2 ⟨_, hp, ?_⟩
      dsimp only
      rw [if_neg hstays]
      exact Run.doneAt_eq_done.2 ⟨hbetween, rfl⟩
    | next hp hmoves _ ih =>
      rw [manyFrom]
      refine Run.andThen_eq_ok.2 ⟨_, hp, ?_⟩
      dsimp only
      rw [if_pos hmoves]
      exact Run.mapValue_eq_done.2 ⟨_, ih hstop hbetween, rfl⟩

/-- What the item of a repetition does where the rounds end, and which rounds there would be from
    there on: it fails, and there are none, or it reads a value from nothing, and there is one. -/
def SettledAt (p : Parser α) (input : String) (e : Offset) (ys : List α) : Prop :=
  (∃ f, (p ⟨input, e⟩).ending = .ok (.failed f)) ∧ ys = [] ∨
    ∃ v, (p ⟨input, e⟩).ending = .ok (.done v (Span.point e)) ∧ ys = [v]

/-- Where the rounds have settled, a repetition makes them once. -/
theorem SettledAt.repeats {ys : List α} (h : SettledAt p input e ys) : Repeats p input e ys e := by
  rcases h with ⟨⟨f, hp⟩, rfl⟩ | ⟨v, hp, rfl⟩
  · exact .stop hp
  · exact .last hp (Nat.lt_irrefl _)

/-- A span of an offset-safe parser that leads no further covers nothing. -/
theorem OffsetSafe.eq_point (hp : OffsetSafe p) (hsize : input.utf8ByteSize < 2 ^ 64) {v : α}
    {s : Span} (h : (p ⟨input, o⟩).ending = .ok (.done v s)) (hstays : ¬ o.val < s.stop.val) :
    s = Span.point o := by
  obtain ⟨hbegin, hstop⟩ := (hp ⟨input, o⟩ hsize).outcome h
  have hle := hstop.le
  obtain ⟨b, t, _⟩ := s
  obtain rfl : b = o := hbegin
  obtain rfl : t = b := Fin.ext (by dsimp only at hle hstays; omega)
  rfl

/-- Where the rounds of a repetition have ended, it is settled what further rounds would do. -/
theorem Repeats.settled (hp : OffsetSafe p) (hsize : input.utf8ByteSize < 2 ^ 64)
    (h : Repeats p input o vs e) : ∃ ys, SettledAt p input e ys := by
  induction h with
  | stop hfails => exact ⟨[], .inl ⟨⟨_, hfails⟩, rfl⟩⟩
  | last hreads hstays =>
    obtain rfl := hp.eq_point hsize hreads hstays
    exact ⟨_, .inr ⟨_, hreads, rfl⟩⟩
  | next _ _ _ ih => exact ih

end Parser

namespace Rulebook

variable {book : Rulebook ι κ} {p : Grammar ι κ} {input : String} {o : Offset} {sp : Span}

/-- A grammar is repeated in rounds. -/
theorem run_many_eq_done_iff {w : Value κ} :
    (book.run (.many p) ⟨input, o⟩).ending = .ok (.done w sp) ↔
      ∃ vs, w = .many vs ∧ sp.begin = o ∧ (book.run p).Repeats input o vs sp.stop := by
  rw [run_many, Parser.map, Run.mapValue_eq_done]
  simp only [Parser.many, Parser.manyFrom_eq_done_iff]
  constructor
  · rintro ⟨vs, hrounds, rfl⟩
    exact ⟨vs, rfl, hrounds⟩
  · rintro ⟨vs, rfl, hrounds⟩
    exact ⟨vs, hrounds, rfl⟩

/-- A grammar without custom parsers is repeated, and the repetition is repeated, both from the same
    offset on, whatever it is. If the repetition reads the values `xs` from a span `sp`, the
    repeated one reads from the same span

    - if the span is empty: the values `xs`, once;
    - otherwise: the values `xs`, and then what the repetition reads at the end of the span, from
      nothing. This is no value if the grammar fails there, and one if it succeeds, which it does
      without leading further. -/
theorem run_many_many (book : Rulebook ι κ) (p : Grammar ι κ) (hp : book.CustomFree p)
    (input : String) (hsize : input.utf8ByteSize < 2 ^ 64) (o : Offset) (xs : List (Value κ))
    (sp : Span) (hmany : (book.run (.many p) ⟨input, o⟩).ending = .ok (.done (.many xs) sp)) :
    (sp.isEmpty = true →
      (book.run (.many (.many p)) ⟨input, o⟩).ending = .ok (.done (.many [.many xs]) sp)) ∧
    (sp.isEmpty = false →
      ∃ ys, (book.run (.many (.many p)) ⟨input, o⟩).ending =
          .ok (.done (.many [.many xs, .many ys]) sp) ∧
        (book.run (.many p) ⟨input, sp.stop⟩).ending =
          .ok (.done (.many ys) (Span.point sp.stop)) ∧
        ((∃ f, (book.run p ⟨input, sp.stop⟩).ending = .ok (.failed f)) ∧ ys = [] ∨
          ∃ v, (book.run p ⟨input, sp.stop⟩).ending = .ok (.done v (Span.point sp.stop)) ∧
            ys = [v])) := by
  obtain ⟨_, ⟨⟩, hbegin, hrounds⟩ := run_many_eq_done_iff.1 hmany
  constructor
  · -- the first round of the outer repetition leads no further, so it is the last one
    intro hempty
    have hstays : ¬ o.val < sp.stop.val := by
      simp only [Span.isEmpty, decide_eq_true_eq, hbegin] at hempty
      rw [← hempty]
      exact Nat.lt_irrefl _
    exact run_many_eq_done_iff.2 ⟨_, rfl, hbegin, .last hmany hstays⟩
  · intro hcovers
    have hmoves : o.val < sp.stop.val := by
      have hle := sp.begin_le_stop
      simp only [Span.isEmpty, decide_eq_false_iff_not, hbegin, Fin.ext_iff] at hcovers hle
      omega
    have hsafe : Parser.OffsetSafe (book.run p) := fun c hc => runWith_within hp hc _
    -- the second round begins where the rounds of the first one have ended
    obtain ⟨ys, hsettled⟩ := hrounds.settled hsafe hsize
    have hagain : (book.run (.many p) ⟨input, sp.stop⟩).ending =
        .ok (.done (.many ys) (Span.point sp.stop)) :=
      run_many_eq_done_iff.2 ⟨ys, rfl, rfl, hsettled.repeats⟩
    have hlast : (book.run (.many p)).Repeats input sp.stop [.many ys] (Span.point sp.stop).stop :=
      .last hagain (Nat.lt_irrefl _)
    have houter := run_many_eq_done_iff.2 ⟨_, rfl, hbegin, .next hmany hmoves hlast⟩
    exact ⟨ys, houter, hagain, hsettled⟩

/-- Of two characters and the empty word, the latter is read behind the characters, and once more in
    a further round of the outer repetition. -/
theorem run_many_many_letters :
    (noRules : Rulebook Empty Unit).CustomFree (.either [.symbol 'a', .word ""]) ∧
      "aab".utf8ByteSize < 2 ^ 64 ∧
      ((noRules : Rulebook Empty Unit).run (.many (.either [.symbol 'a', .word ""]))
        ⟨"aab", 0⟩).ending =
        .ok (.done (.many [.char 'a', .char 'a', .word ""]) ⟨0, 2, by decide⟩) ∧
      ((noRules : Rulebook Empty Unit).run (.many (.many (.either [.symbol 'a', .word ""])))
        ⟨"aab", 0⟩).ending =
        .ok (.done (.many [.many [.char 'a', .char 'a', .word ""], .many [.word ""]])
          ⟨0, 2, by decide⟩) := by
  have hp : (noRules : Rulebook Empty Unit).CustomFree (.either [.symbol 'a', .word ""]) :=
    customFree_of_all (fun i => i.elim) rfl
  have hsize : "aab".utf8ByteSize < 2 ^ 64 := by decide
  have hmany : ((noRules : Rulebook Empty Unit).run (.many (.either [.symbol 'a', .word ""]))
      ⟨"aab", 0⟩).ending =
      .ok (.done (.many [.char 'a', .char 'a', .word ""]) ⟨0, 2, by decide⟩) := by cbv
  have hitem : ((noRules : Rulebook Empty Unit).run (.either [.symbol 'a', .word ""])
      ⟨"aab", 2⟩).ending = .ok (.done (.word "") (Span.point 2)) := by cbv
  obtain ⟨ys, hagain, -, hys⟩ := (run_many_many noRules _ hp _ hsize 0 _ _ hmany).2 rfl
  rcases hys with ⟨⟨f, hfails⟩, -⟩ | ⟨v, hreads, rfl⟩
  · rw [hitem] at hfails
    cases hfails
  · rw [hitem] at hreads
    cases hreads
    exact ⟨hp, hsize, hmany, hagain⟩

end Rulebook

end ParserKit
