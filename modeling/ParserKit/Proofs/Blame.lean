import ParserKit.Proofs.HonestFailure

/-!
# Failures by characters

What a parser that fails says of the characters that are left, whatever stands before them:
`Parser.Blames input p cs e blamed furthest` says that `p`, wherever `cs` is left of `input`, fails
for want of `e`, that it blames the offset where `blamed` is left, and that it came as far as where
`furthest` is left. As with `Parser.Reads` and `Parser.Fails` there is one rule for each kind of
node, and none of them speaks of an offset or of fuel.

## Key results

- `sequence_blames`: a sequence hands on the failure of the first part that fails
- `choiceFrom_blames`: a choice blames its start, and came as far as one of its parsers
- `Rulebook.failure_of_blames`: where the rejection of a whole text puts the blame
-/

namespace ParserKit

variable {α β : Type} {input : String}

/-- The failure expects `e` at byte `blamed`, and came as far as byte `furthest`. -/
def Failure.Says (f : Failure) (e : Expectation) (blamed furthest : Nat) : Prop :=
  f.expected = e ∧ f.blamed.val = blamed ∧ f.furthest.val = furthest

/-- A failure blamed on the byte that the parse came to says so of its offsets. -/
theorem Failure.Says.furthest_eq_blamed {f : Failure} {e : Expectation} {byte : Nat}
    (h : f.Says e byte byte) : f.furthest = f.blamed := by
  obtain ⟨-, hblamed, hfurthest⟩ := h
  apply Fin.ext
  omega

namespace Parser

/-- Wherever `cs` is left of `input`, `p` fails: it expects `e` where `blamed` is left, and came as
    far as where `furthest` is left. -/
def Blames (input : String) (p : Parser α) (cs : List Char) (e : Expectation)
    (blamed furthest : List Char) : Prop :=
  ∀ o : Offset, Text.Before input o.val cs →
    ∃ f, (p ⟨input, o⟩).ending = .ok (.failed f) ∧ f.expected = e ∧
      Text.Before input f.blamed.val blamed ∧ Text.Before input f.furthest.val furthest

variable {p q : Parser α} {cs blamed furthest : List Char} {e : Expectation}

/-- Parsers that end alike blame alike. -/
theorem Blames.of_ending (h : Blames input p cs e blamed furthest)
    (hpq : ∀ c, (q c).ending = (p c).ending) : Blames input q cs e blamed furthest := by
  intro o ho
  obtain ⟨f, hf⟩ := h o ho
  exact ⟨f, by rwa [hpq]⟩

/-- A conversion of the value hands the failure on. -/
theorem Blames.map (h : Blames input p cs e blamed furthest) (g : α → β) :
    Blames input (Parser.map g p) cs e blamed furthest := by
  intro o ho
  obtain ⟨f, hend, hf⟩ := h o ho
  exact ⟨f, Run.mapValue_eq_failed.2 hend, hf⟩

/-- What is named hands on the failure of what it names. -/
theorem Blames.named (h : Blames input p cs e blamed furthest) (name : String) (action : α → β) :
    Blames input (Parser.named name action p) cs e blamed furthest := by
  intro o ho
  obtain ⟨f, hend, hf⟩ := h o ho
  refine ⟨f, ?_, hf⟩
  rw [Parser.named, Run.ending_after, Run.ending_andThen, hend]
  rfl

/-! ## Terminals -/

/-- A parser whose failures all expect `e` right at the cursor blames the cursor. -/
theorem Fails.blames (h : Fails input p cs)
    (hp : ∀ {c f}, (p c).ending = .ok (.failed f) → f = .expecting e c.offset) :
    Blames input p cs e cs cs := by
  intro o ho
  obtain ⟨f, hf⟩ := h o ho
  obtain rfl := hp hf
  exact ⟨_, hf, rfl, ho, ho⟩

/-- The end is blamed where something is left. -/
theorem endOfInput_blames (h : cs ≠ []) : Blames input endOfInput cs .endOfInput cs cs :=
  (endOfInput_fails h).blames endOfInput_eq_failed

/-- A symbol is blamed where another character is left first, or none. -/
theorem symbol_blames {x : Char} (h : cs.head? ≠ some x) :
    Blames input (symbol x) cs (.symbol x) cs cs :=
  (symbol_fails h).blames symbol_eq_failed

/-- A range is blamed where the first character that is left is outside of it, or none is left. -/
theorem range_blames {lo hi : Char} (h : ∀ x, cs.head? = some x → ¬ (lo ≤ x ∧ x ≤ hi)) :
    Blames input (range lo hi) cs (.range lo hi) cs cs :=
  (range_fails h).blames range_eq_failed

/-! ## Sequences -/

/-- The parsers read one after the other until one of them fails, and it says why. -/
inductive BlamesSome (input : String) :
    List (Parser α) → List Char → Expectation → List Char → List Char → Prop
  | here {p : Parser α} {ps : List (Parser α)} {cs blamed furthest : List Char}
      {e : Expectation} :
      Blames input p cs e blamed furthest → BlamesSome input (p :: ps) cs e blamed furthest
  | later {p : Parser α} {ps : List (Parser α)} {cs mid blamed furthest : List Char}
      {e : Expectation} {v : α} :
      Reads input p cs v mid → BlamesSome input ps mid e blamed furthest →
      BlamesSome input (p :: ps) cs e blamed furthest

/-- A sequence that began anywhere hands on the failure of the first part that fails. -/
theorem sequenceFrom_blames {ps : List (Parser α)} (h : BlamesSome input ps cs e blamed furthest)
    (start : Offset) {o : Offset} (ho : Text.Before input o.val cs) :
    ∃ f, (sequenceFrom start ps ⟨input, o⟩).ending = .ok (.failed f) ∧ f.expected = e ∧
      Text.Before input f.blamed.val blamed ∧ Text.Before input f.furthest.val furthest := by
  -- on the parts that read before the one that fails
  induction h generalizing o with
  | here hp =>
    obtain ⟨f, hend, hf⟩ := hp o ho
    exact ⟨f, Run.andThen_eq_ok.2 ⟨_, hend, rfl⟩, hf⟩
  | later hp _ ih =>
    obtain ⟨s, hend, -, hs⟩ := hp o ho
    obtain ⟨f, hend', hf⟩ := ih hs
    exact ⟨f, Run.andThen_eq_ok.2 ⟨_, hend, Run.mapValue_eq_failed.2 hend'⟩, hf⟩

/-- A sequence hands on the failure of the first part that fails. -/
theorem sequence_blames {ps : List (Parser α)} (h : BlamesSome input ps cs e blamed furthest) :
    Blames input (sequence ps) cs e blamed furthest := fun o ho => sequenceFrom_blames h o ho

/-! ## Choices -/

/-- A choice all of whose parsers fail, none further than `target` and one of them there, comes as
    far as `target`. -/
theorem choiceFrom_furthest {c : Cursor} {ps : List (Parser α)} {target reached : Offset}
    (hall : ∀ p ∈ ps, ∃ f, (p c).ending = .ok (.failed f) ∧ f.furthest.val ≤ target.val)
    (hsome : Offset.max c.offset reached = target ∨
      ∃ p ∈ ps, ∃ f, (p c).ending = .ok (.failed f) ∧ f.furthest = target)
    (hstart : c.offset.val ≤ target.val) (hreached : reached.val ≤ target.val) :
    ∃ f, (choiceFrom c reached ps).ending = .ok (.failed f) ∧ f.expected = .alternative ∧
      f.blamed = c.offset ∧ f.furthest = target := by
  -- on the parsers; how far the choice has come grows with each failure, but never beyond the
  -- target
  induction ps generalizing reached with
  | nil =>
    refine ⟨noAlternative c reached, rfl, rfl, rfl, ?_⟩
    rcases hsome with hmax | ⟨p, hp, -⟩
    · exact hmax
    · cases hp
  | cons p ps ih =>
    obtain ⟨f, hf, hle⟩ := hall p List.mem_cons_self
    have hmax := Offset.val_max reached f.furthest
    rw [choiceFrom, Run.ending_andThen, hf]
    apply ih (fun q hq => hall q (List.mem_cons_of_mem p hq))
    · -- the one that came to the target is `p`, or it is among the others, or it came before
      simp only [Fin.ext_iff, Offset.val_max] at hsome hmax ⊢
      rcases hsome with hbefore | ⟨q, hq, f', hf', htarget⟩
      · left
        omega
      · rcases List.mem_cons.1 hq with rfl | hq
        · rw [hf] at hf'
          cases hf'
          left
          omega
        · exact .inr ⟨q, hq, f', hf', htarget⟩
    · omega

/-- Of two rests, more is left at the earlier offset. -/
private theorem le_of_width_le {o t : Nat} {cs ds : List Char} (ho : Text.Before input o cs)
    (ht : Text.Before input t ds) (h : Text.width ds ≤ Text.width cs) : o ≤ t := by
  have hsum := ho.add_width
  have hsum' := ht.add_width
  omega

/-- A choice all of whose parsers fail expects one of its alternatives at its start. It came as far
    as the parser that left least. -/
theorem choiceFrom_blames {ps : List (Parser α)} {o : Offset}
    (hall : ∀ p ∈ ps, ∃ e blamed rest, Blames input p cs e blamed rest ∧
      Text.width furthest ≤ Text.width rest)
    (hsome : ∃ p ∈ ps, ∃ e blamed, Blames input p cs e blamed furthest)
    (hle : Text.width furthest ≤ Text.width cs) (ho : Text.Before input o.val cs) :
    ∃ f, (choiceFrom ⟨input, o⟩ o ps).ending = .ok (.failed f) ∧ f.expected = .alternative ∧
      Text.Before input f.blamed.val cs ∧ Text.Before input f.furthest.val furthest := by
  obtain ⟨p, hp, e, blamed, hblames⟩ := hsome
  -- less is left further on, so `f` names the furthest offset of all
  obtain ⟨f, hf, -, -, htarget⟩ := hblames o ho
  -- no branch came further, as none left less
  have hfurthest : ∀ q ∈ ps, ∃ f', (q ⟨input, o⟩).ending = .ok (.failed f') ∧
      f'.furthest.val ≤ f.furthest.val := by
    intro q hq
    obtain ⟨e', blamed', rest, hblames', hless⟩ := hall q hq
    obtain ⟨f', hf', -, -, hrest⟩ := hblames' o ho
    exact ⟨f', hf', le_of_width_le hrest htarget hless⟩
  have hstart : o.val ≤ f.furthest.val := le_of_width_le ho htarget hle
  obtain ⟨g, hg, hexpected, hblamed, hreached⟩ :=
    choiceFrom_furthest hfurthest (.inr ⟨p, hp, f, hf, rfl⟩) hstart hstart
  refine ⟨g, hg, hexpected, ?_, ?_⟩
  · rw [hblamed]
    exact ho
  · rw [hreached]
    exact htarget

end Parser

/-! ## Grammars -/

namespace Rulebook

open ParserKit.Parser (Blames BlamesSome)

variable {ι κ : Type} {book : Rulebook ι κ} {cs blamed furthest : List Char} {e : Expectation}

/-- The rules for terminals again, for the nodes of a grammar. -/
theorem blames_endOfInput (h : cs ≠ []) :
    Blames input (book.run .endOfInput) cs .endOfInput cs cs :=
  (Parser.endOfInput_blames h).map fun _ => Value.eof

theorem blames_symbol {x : Char} (h : cs.head? ≠ some x) :
    Blames input (book.run (.symbol x)) cs (.symbol x) cs cs :=
  (Parser.symbol_blames h).map Value.char

theorem blames_range {lo hi : Char} (h : ∀ x, cs.head? = some x → ¬ (lo ≤ x ∧ x ≤ hi)) :
    Blames input (book.run (.range lo hi)) cs (.range lo hi) cs cs :=
  (Parser.range_blames h).map Value.char

/-- A sequence of grammars hands on the failure of the first item that fails. -/
theorem blames_sequence {items : List (Grammar ι κ)}
    (h : BlamesSome input (items.map book.run) cs e blamed furthest) :
    Blames input (book.run (.sequence items)) cs e blamed furthest := by
  rw [run_sequence]
  exact (Parser.sequence_blames h).map Value.seq

/-- A choice that forgets its tags expects one of its alternatives at its start. It came as far as
    the branch that left least. -/
theorem blames_unified {types : List String} {branches : List (Grammar ι κ)}
    (hlen : types.length = branches.length)
    (hall : ∀ g ∈ branches, ∃ e blamed rest, Blames input (book.run g) cs e blamed rest ∧
      Text.width furthest ≤ Text.width rest)
    (hsome : ∃ g ∈ branches, ∃ e blamed, Blames input (book.run g) cs e blamed furthest)
    (hle : Text.width furthest ≤ Text.width cs) :
    Blames input (book.run (.oneOf .unified types branches)) cs .alternative cs furthest := by
  intro o ho
  rw [run_oneOf, Parser.ending_unified (by simpa using hlen)]
  exact Parser.choiceFrom_blames (by simpa using hall) (by simpa using hsome) hle ho

/-- A rule fails with the failure of its body. -/
theorem blames_rule (book : Rulebook ι κ) (i : ι)
    (h : Blames input (book.run (book.rule i).body) cs e blamed furthest) :
    Blames input (book.run (.rule i)) cs e blamed furthest :=
  (h.named (book.rule i).name (book.rule i).action).of_ending (ending_run_rule i)

/-- The rejection of a whole text puts the blame where the grammar puts it. -/
theorem failure_of_blames {g : Grammar ι κ} {ending : LineEnding} {r : Rejection}
    (h : Blames input (book.run g) input.toList e blamed furthest)
    (hr : (book.parseText ending g input).ending = .ok (.error (.rejected r)))
    {pre pre' : List Char} (hblamed : input.toList = pre ++ blamed)
    (hfurthest : input.toList = pre' ++ furthest) :
    r.failure.Says e (Text.width pre) (Text.width pre') := by
  obtain ⟨f, hf, hexpected, hf₁, hf₂⟩ := h Offset.zero (Text.before_zero input)
  -- the rejection carries the failure of the run from the start
  have hrun := (parse_eq_ok_iff.1 (parseText_eq_rejected_iff.1 hr).1).2
  rw [Cursor.start, hf] at hrun
  cases hrun
  exact ⟨hexpected, hf₁.eq_width hblamed, hf₂.eq_width hfurthest⟩

end Rulebook

end ParserKit
