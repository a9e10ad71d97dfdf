import ParserKit.Proofs.LinkedMatches
import ParserKit.Proofs.OffsetSafety

/-!
# Left factoring

A choice whose branches begin with the same grammar may be factored: the grammar is read once, and
the choice is made behind it. Unfactored, a choice goes back to its start and reads the grammar once
more for each branch. Without parsers of one's own both forms succeed at the same cursors, with the
same value from the same span, and fail at the same cursors, having come as far.

Only the blame differs. The unfactored form is a choice and blames its start. The factored one is a
sequence: it hands on the failure of its first part, or it blames the place behind it where the
choice is made. That both come as far needs a bound from below: no grammar fails before it has come
to where it was begun.

## Key results

- `Failure.furthestOf_eq_of_le`: the start of a choice does not count beside what is further on
- `Rulebook.run_pair_congr`: second grammars behind the same first one
- `Rulebook.factored_cases`: how the two forms end

What they have in common and where they differ is stated last.
-/

namespace ParserKit

variable {ι κ : Type}

/-- Failures that all came as far as `b` at least come as far when counted from `a` before it. -/
theorem Failure.furthestOf_eq_of_le {a b : Offset} {es : List Failure} (hne : es ≠ [])
    (hab : a.val ≤ b.val) (hes : ∀ e ∈ es, b.val ≤ e.furthest.val) :
    furthestOf a es = furthestOf b es := by
  obtain ⟨e, he⟩ := List.exists_mem_of_ne_nil es hne
  have hb : b.val ≤ (furthestOf a es).val := (hes e he).trans (le_furthestOf_of_mem he a)
  have ha : a.val ≤ (furthestOf b es).val := hab.trans (le_furthestOf b es)
  apply Fin.ext
  exact Nat.le_antisymm (furthestOf_le ha fun e he => le_furthestOf_of_mem he b)
    (furthestOf_le hb fun e he => le_furthestOf_of_mem he a)

namespace Grammar

/-- The grammar `a`, and behind it one of the branches. -/
def factored (a : Grammar ι κ) (branches : List (Grammar ι κ)) : Grammar ι κ :=
  .sequence [a, .either branches]

/-- One of the branches, each with the grammar `a` before it. -/
def unfactored (a : Grammar ι κ) (branches : List (Grammar ι κ)) : Grammar ι κ :=
  .either (branches.map fun b => .sequence [a, b])

end Grammar

namespace Rulebook

open ParserKit.Parser (Linked FailEach)

variable {book : Rulebook ι κ} {a b g : Grammar ι κ} {branches : List (Grammar ι κ)}
  {input : String} {o : Offset} {v w : Value κ} {s t : Span} {f e : Failure}
  {x : Except Stop Failure}

/-! ## Two grammars one after the other -/

/-- A pair ends with its first grammar if that does not read. -/
theorem run_pair_of_first (ha : (book.run a ⟨input, o⟩).ending = x.map .failed)
    (b : Grammar ι κ) : (book.run (.sequence [a, b]) ⟨input, o⟩).ending = x.map .failed :=
  (run_sequence_of_breaks (.here ha)).1

/-- Behind the match of the first grammar, a pair ends with the second if that does not read. -/
theorem run_pair_of_second (ha : (book.run a ⟨input, o⟩).ending = .ok (.done v t))
    (hb : (book.run b ⟨input, t.stop⟩).ending = x.map .failed) :
    (book.run (.sequence [a, b]) ⟨input, o⟩).ending = x.map .failed :=
  (run_sequence_of_breaks (.later ha (.here hb))).1

/-- A pair reads what both of its grammars read, one after the other. -/
theorem run_pair_of_both (ha : (book.run a ⟨input, o⟩).ending = .ok (.done v t))
    (hb : (book.run b ⟨input, t.stop⟩).ending = .ok (.done w s)) :
    (book.run (.sequence [a, b]) ⟨input, o⟩).ending =
      (Run.doneAt (.seq [v, w]) (Span.between o s.stop)).ending := by
  have hlinked : Linked input ([a, b].map book.run) o [(v, t), (w, s)] _ s.stop :=
    .cons ha (.cons hb (.nil s.stop))
  exact (run_sequence_of_linked hlinked).1

/-- Behind the same first grammar, second ones that end alike make no difference. -/
theorem run_pair_congr (ha : (book.run a ⟨input, o⟩).ending = .ok (.done v t))
    (hb : (book.run b ⟨input, t.stop⟩).ending = (book.run g ⟨input, t.stop⟩).ending) :
    (book.run (.sequence [a, b]) ⟨input, o⟩).ending =
      (book.run (.sequence [a, g]) ⟨input, o⟩).ending := by
  rcases Parser.done_or_breaks (book.run g) ⟨input, t.stop⟩ with ⟨w, u, hg⟩ | ⟨x, hg⟩
  · rw [run_pair_of_both ha hg, run_pair_of_both ha (hb.trans hg)]
  · rw [run_pair_of_second ha hg, run_pair_of_second ha (hb.trans hg)]

/-- Where the second grammar does not fail, the pair does not either. -/
theorem run_pair_ne_failed (ha : (book.run a ⟨input, o⟩).ending = .ok (.done v t))
    (hb : ∀ e, (book.run b ⟨input, t.stop⟩).ending ≠ .ok (.failed e)) :
    (book.run (.sequence [a, b]) ⟨input, o⟩).ending ≠ .ok (.failed f) := by
  rcases Parser.done_or_breaks (book.run b) ⟨input, t.stop⟩ with ⟨w, u, hw⟩ | ⟨x, hx⟩
  · rw [run_pair_of_both ha hw]
    exact Run.doneAt_ne_failed
  · cases x with
    | error stop =>
      rw [run_pair_of_second ha hx]
      nofun
    | ok e => exact absurd hx (hb e)

/-! ## The two forms -/

/-- How the factored form ends, and the unfactored one beside it. -/
inductive FactoredEnds (book : Rulebook ι κ) (a : Grammar ι κ) (branches : List (Grammar ι κ))
    (input : String) (o : Offset) : Prop
  /-- Neither fails, and they end alike. -/
  | alike :
      (∀ f, (book.run (a.factored branches) ⟨input, o⟩).ending ≠ .ok (.failed f)) →
      (book.run (a.unfactored branches) ⟨input, o⟩).ending =
        (book.run (a.factored branches) ⟨input, o⟩).ending → FactoredEnds book a branches input o
  /-- The first part fails. -/
  | first {f f' : Failure} :
      (book.run a ⟨input, o⟩).ending = .ok (.failed f) →
      (book.run (a.factored branches) ⟨input, o⟩).ending = .ok (.failed f) →
      (book.run (a.unfactored branches) ⟨input, o⟩).ending = .ok (.failed f') →
      f'.blamed = o → f'.expected = .alternative → f'.furthest = f.furthest →
      FactoredEnds book a branches input o
  /-- All branches fail behind the first part. -/
  | behind {f f' : Failure} {v : Value κ} {t : Span} :
      (book.run a ⟨input, o⟩).ending = .ok (.done v t) →
      (book.run (a.factored branches) ⟨input, o⟩).ending = .ok (.failed f) →
      (book.run (a.unfactored branches) ⟨input, o⟩).ending = .ok (.failed f') →
      f.blamed = t.stop → f.expected = .alternative →
      f'.blamed = o → f'.expected = .alternative → f'.furthest = f.furthest →
      FactoredEnds book a branches input o

/-- The unfactored form fails with all of its branches. -/
theorem run_unfactored_of_failEach {es : List Failure}
    (h : FailEach ⟨input, o⟩ (branches.map fun b => book.run (.sequence [a, b])) es) :
    (book.run (a.unfactored branches) ⟨input, o⟩).ending =
      .ok (.failed (Parser.noAlternative ⟨input, o⟩ (Failure.furthestOf o es))) := by
  rw [Grammar.unfactored, run_either, List.map_map]
  exact Parser.choice_eq_failed_iff.2 ⟨es, h, rfl⟩

/-- The first part stops, and with it both forms. -/
theorem factored_of_stop (hne : branches ≠ []) {stop : Stop}
    (ha : (book.run a ⟨input, o⟩).ending = .error stop) :
    FactoredEnds book a branches input o := by
  obtain ⟨b, last, rfl⟩ := List.exists_cons_of_ne_nil hne
  have hstops : ∀ h : Grammar ι κ,
      (book.run (.sequence [a, h]) ⟨input, o⟩).ending = .error stop :=
    run_pair_of_first (x := .error stop) ha
  have hfactored : (book.run (a.factored (b :: last)) ⟨input, o⟩).ending = .error stop := hstops _
  have hb : ∀ e, (book.run (.sequence [a, b]) ⟨input, o⟩).ending ≠ .ok (.failed e) := by
    rw [hstops b]
    nofun
  refine .alike (by rw [hfactored]; nofun) ?_
  rw [hfactored, ← hstops b, Grammar.unfactored, run_either, List.map_map, List.map_cons]
  -- in the unfactored form the first branch stops, with no branch before it
  have hnone : ∀ q ∈ ([] : List (Parser (Value κ))),
      ∃ e, (q ⟨input, o⟩).ending = .ok (.failed e) := List.forall_mem_nil _
  exact Parser.ending_choice_of_first hnone hb _

/-- The first part fails, and all branches of the unfactored form hand on its failure. -/
theorem factored_of_failed (hne : branches ≠ []) (ha : book.CustomFree a)
    (hsize : input.utf8ByteSize < 2 ^ 64)
    (hfails : (book.run a ⟨input, o⟩).ending = .ok (.failed f)) :
    FactoredEnds book a branches input o := by
  have hpair : ∀ h : Grammar ι κ,
      (book.run (.sequence [a, h]) ⟨input, o⟩).ending = .ok (.failed f) :=
    run_pair_of_first (x := .ok f) hfails
  have heach : FailEach ⟨input, o⟩ (branches.map fun b => book.run (.sequence [a, b]))
      (branches.map fun _ => f) :=
    List.forall₂_map_left_iff.2 (List.forall₂_map_right_iff.2
      (List.forall₂_same.2 fun b _ => hpair b))
  -- the largest of equal offsets is that offset, which is not before the start
  refine .first hfails (hpair _) (run_unfactored_of_failEach heach) rfl rfl ?_
  have hstart : o.val ≤ f.furthest.val :=
    (le_blamed_of_run ha hsize hfails).trans f.blamed_le_furthest
  obtain ⟨b, hb⟩ := List.exists_mem_of_ne_nil branches hne
  have hmem : f ∈ branches.map fun _ => f := List.mem_map.2 ⟨b, hb, rfl⟩
  rw [Parser.furthest_noAlternative (Failure.le_furthestOf _ _)]
  apply Fin.ext
  refine Nat.le_antisymm (Failure.furthestOf_le hstart ?_) (Failure.le_furthestOf_of_mem hmem o)
  exact List.forall_mem_map.2 fun _ _ => Nat.le_refl _

/-- The first part reads and all branches fail behind it. Each of them with the first part before
    it fails likewise. -/
theorem factored_of_failEach (hne : branches ≠ []) (ha : book.CustomFree a)
    (hfree : ∀ b ∈ branches, book.CustomFree b) (hsize : input.utf8ByteSize < 2 ^ 64)
    (hreads : (book.run a ⟨input, o⟩).ending = .ok (.done v t)) {es : List Failure}
    (hes : FailEach ⟨input, t.stop⟩ (branches.map book.run) es) :
    FactoredEnds book a branches input o := by
  have hchoice : (book.run (.either branches) ⟨input, t.stop⟩).ending =
      .ok (.failed (Parser.noAlternative ⟨input, t.stop⟩ (Failure.furthestOf t.stop es))) := by
    rw [run_either]
    exact Parser.choice_eq_failed_iff.2 ⟨es, hes, rfl⟩
  have hfactored := run_pair_of_second (x := .ok _) hreads hchoice
  have hbranches := List.forall₂_map_left_iff.1 hes
  have heach : FailEach ⟨input, o⟩ (branches.map fun b => book.run (.sequence [a, b])) es :=
    List.forall₂_map_left_iff.2 (hbranches.imp fun b e hb =>
      run_pair_of_second (x := .ok e) hreads hb)
  -- one form counts from the start, the other from behind the first part
  refine .behind hreads hfactored (run_unfactored_of_failEach heach) rfl rfl rfl rfl ?_
  have hreach : ∀ e ∈ es, t.stop.val ≤ e.furthest.val := by
    refine hes.forall_mem fun p hp e hfails => ?_
    obtain ⟨b, hb, rfl⟩ := List.mem_map.1 hp
    exact (le_blamed_of_run (hfree b hb) hsize hfails).trans e.blamed_le_furthest
  -- to each branch belongs a failure
  have hsome : es ≠ [] := by
    rintro rfl
    exact hne (List.forall₂_nil_right_iff.1 hbranches)
  rw [Parser.furthest_noAlternative (Failure.le_furthestOf _ _),
    Parser.furthest_noAlternative (Failure.le_furthestOf _ _)]
  exact Failure.furthestOf_eq_of_le hsome (le_stop_of_run ha hsize hreads) hreach

/-- The branch that decides behind the first part decides with the first part before it. -/
theorem factored_of_decided (hreads : (book.run a ⟨input, o⟩).ending = .ok (.done v t))
    {first last : List (Grammar ι κ)}
    (hfirst : ∀ b ∈ first, ∃ e, (book.run b ⟨input, t.stop⟩).ending = .ok (.failed e))
    (hb : ∀ e, (book.run b ⟨input, t.stop⟩).ending ≠ .ok (.failed e)) :
    FactoredEnds book a (first ++ b :: last) input o := by
  have hchoice : (book.run (.either (first ++ b :: last)) ⟨input, t.stop⟩).ending =
      (book.run b ⟨input, t.stop⟩).ending := by
    rw [run_either, List.map_append, List.map_cons]
    exact Parser.ending_choice_of_first (List.forall_mem_map.2 hfirst) hb _
  -- the branch that decides makes the same pair as the whole choice
  have hsame : (book.run (.sequence [a, b]) ⟨input, o⟩).ending =
      (book.run (a.factored (first ++ b :: last)) ⟨input, o⟩).ending :=
    run_pair_congr hreads hchoice.symm
  have hpair : ∀ e, (book.run (.sequence [a, b]) ⟨input, o⟩).ending ≠ .ok (.failed e) :=
    fun e => run_pair_ne_failed hreads hb
  have hbefore : ∀ b' ∈ first,
      ∃ e, (book.run (.sequence [a, b']) ⟨input, o⟩).ending = .ok (.failed e) := by
    intro b' hb'
    obtain ⟨e, he⟩ := hfirst b' hb'
    exact ⟨e, run_pair_of_second (x := .ok e) hreads he⟩
  refine .alike (fun f => hsame ▸ hpair f) ?_
  rw [← hsame, Grammar.unfactored, run_either, List.map_map, List.map_append, List.map_cons]
  exact Parser.ending_choice_of_first (List.forall_mem_map.2 hbefore) hpair _

/-- How both forms end is settled by the first part, and behind it by the first branch that does not
    fail. -/
theorem factored_cases (hne : branches ≠ []) (ha : book.CustomFree a)
    (hfree : ∀ b ∈ branches, book.CustomFree b) (hsize : input.utf8ByteSize < 2 ^ 64)
    (o : Offset) : FactoredEnds book a branches input o := by
  rcases hend : (book.run a ⟨input, o⟩).ending with stop | ⟨v, t⟩ | f
  · exact factored_of_stop hne hend
  · rcases Parser.choice_cases (branches.map book.run) ⟨input, t.stop⟩ with
      ⟨es, hes, -⟩ | ⟨before, p, after, hsplit, hbefore, hp, -⟩
    · exact factored_of_failEach hne ha hfree hsize hend hes
    · obtain ⟨first, rest, rfl, rfl, hrest⟩ := List.map_eq_append_iff.1 hsplit
      obtain ⟨b, last, rfl, rfl, rfl⟩ := List.map_eq_cons_iff.1 hrest
      exact factored_of_decided hend (fun b hb => hbefore _ (List.mem_map_of_mem hb)) hp
  · exact factored_of_failed hne ha hsize hend

/-- A grammar that is read once before a choice, or once in each of its branches, all of them
    without custom parsers and run anywhere in a text.

    - Both forms read the same value from the same span, or neither reads anything.
    - Both stop for the same reason, or neither stops.
    - Both fail, or neither fails. They come as far. The unfactored form blames its start, where it
      expected one of its alternatives. The factored form blames no offset before it: it hands on
      the failure of the first grammar, or else blames the end of its match, where it expected one
      of the alternatives. -/
theorem run_left_factored (book : Rulebook ι κ) (a : Grammar ι κ) (branches : List (Grammar ι κ))
    (hne : branches ≠ []) (ha : book.CustomFree a) (hfree : ∀ b ∈ branches, book.CustomFree b)
    (input : String) (hsize : input.utf8ByteSize < 2 ^ 64) (o : Offset) :
    (∀ v s, (book.run (a.factored branches) ⟨input, o⟩).ending = .ok (.done v s) ↔
      (book.run (a.unfactored branches) ⟨input, o⟩).ending = .ok (.done v s)) ∧
    (∀ stop, (book.run (a.factored branches) ⟨input, o⟩).ending = .error stop ↔
      (book.run (a.unfactored branches) ⟨input, o⟩).ending = .error stop) ∧
    ((∃ f, (book.run (a.factored branches) ⟨input, o⟩).ending = .ok (.failed f)) ↔
      ∃ f', (book.run (a.unfactored branches) ⟨input, o⟩).ending = .ok (.failed f')) ∧
    (∀ f f', (book.run (a.factored branches) ⟨input, o⟩).ending = .ok (.failed f) →
      (book.run (a.unfactored branches) ⟨input, o⟩).ending = .ok (.failed f') →
      f'.furthest = f.furthest ∧ f'.blamed = o ∧ f'.expected = .alternative ∧
      o.val ≤ f.blamed.val ∧
      (∀ e, (book.run a ⟨input, o⟩).ending = .ok (.failed e) → f = e) ∧
      (∀ v t, (book.run a ⟨input, o⟩).ending = .ok (.done v t) →
        f.blamed = t.stop ∧ f.expected = .alternative)) := by
  -- what ends alike satisfies all of it; else both fail, and no reading or stopping is left
  cases factored_cases hne ha hfree hsize o with
  | alike hnot hsame =>
    simp only [hsame, implies_true, true_and]
    exact fun f _ hf => absurd hf (hnot f)
  | first hfails hfactored hunfactored hblamed hexpected hfurthest =>
    have hle := le_blamed_of_run ha hsize hfails
    rw [hfactored, hunfactored, hfails]
    refine ⟨fun v s => ⟨nofun, nofun⟩, fun stop => ⟨nofun, nofun⟩,
      ⟨fun _ => ⟨_, rfl⟩, fun _ => ⟨_, rfl⟩⟩, ?_⟩
    rintro _ _ ⟨⟩ ⟨⟩
    refine ⟨hfurthest, hblamed, hexpected, hle, ?_, nofun⟩
    rintro _ ⟨⟩
    rfl
  | behind hreads hfactored hunfactored hblamed hexpected hblamed' hexpected' hfurthest =>
    have hle := le_stop_of_run ha hsize hreads
    rw [hfactored, hunfactored, hreads]
    refine ⟨fun v s => ⟨nofun, nofun⟩, fun stop => ⟨nofun, nofun⟩,
      ⟨fun _ => ⟨_, rfl⟩, fun _ => ⟨_, rfl⟩⟩, ?_⟩
    rintro _ _ ⟨⟩ ⟨⟩
    refine ⟨hfurthest, hblamed', hexpected', hblamed ▸ hle, nofun, ?_⟩
    rintro _ _ ⟨⟩
    exact ⟨hblamed, hexpected⟩

/-- Behind a word, a blank with a letter or a bracket. Both forms read the word with the bracket.
    Where another letter follows the blank, the factored form blames the end of the word and the
    other one its start, and both have come to the letter. -/
theorem run_left_factored_let :
    [Grammar.sequence [.symbol ' ', .symbol 'x'], .symbol '('] ≠
        ([] : List (Grammar Empty Unit)) ∧
      (noRules : Rulebook Empty Unit).CustomFree (.word "let") ∧
      (∀ b ∈ [Grammar.sequence [.symbol ' ', .symbol 'x'], .symbol '('],
        (noRules : Rulebook Empty Unit).CustomFree b) ∧
      "let(".utf8ByteSize < 2 ^ 64 ∧ "let y".utf8ByteSize < 2 ^ 64 ∧
      ((noRules : Rulebook Empty Unit).run ((Grammar.word "let").unfactored
        [.sequence [.symbol ' ', .symbol 'x'], .symbol '(']) ⟨"let(", 0⟩).ending =
        .ok (.done (.seq [.word "let", .char '(']) ⟨0, 4, by decide⟩) ∧
      ((noRules : Rulebook Empty Unit).run ((Grammar.word "let").factored
        [.sequence [.symbol ' ', .symbol 'x'], .symbol '(']) ⟨"let y", 0⟩).ending =
        .ok (.failed ⟨3, 4, .alternative, by decide⟩) ∧
      ∃ f', ((noRules : Rulebook Empty Unit).run ((Grammar.word "let").unfactored
        [.sequence [.symbol ' ', .symbol 'x'], .symbol '(']) ⟨"let y", 0⟩).ending =
        .ok (.failed f') ∧ f'.blamed = 0 ∧ f'.furthest = 4 := by
  have hne : [Grammar.sequence [.symbol ' ', .symbol 'x'], .symbol '('] ≠
      ([] : List (Grammar Empty Unit)) := nofun
  have ha : (noRules : Rulebook Empty Unit).CustomFree (.word "let") :=
    customFree_of_all (fun i => i.elim) rfl
  have hfree : ∀ b ∈ [Grammar.sequence [.symbol ' ', .symbol 'x'], .symbol '('],
      (noRules : Rulebook Empty Unit).CustomFree b := by
    simp only [List.forall_mem_cons]
    exact ⟨customFree_of_all (fun i => i.elim) rfl, customFree_of_all (fun i => i.elim) rfl, nofun⟩
  have hsize : "let(".utf8ByteSize < 2 ^ 64 := by decide
  have hsize' : "let y".utf8ByteSize < 2 ^ 64 := by decide
  -- the factored form is computed, and the other one follows from it
  have hreads : ((noRules : Rulebook Empty Unit).run ((Grammar.word "let").factored
      [.sequence [.symbol ' ', .symbol 'x'], .symbol '(']) ⟨"let(", 0⟩).ending =
      .ok (.done (.seq [.word "let", .char '(']) ⟨0, 4, by decide⟩) := by cbv
  have hfails : ((noRules : Rulebook Empty Unit).run ((Grammar.word "let").factored
      [.sequence [.symbol ' ', .symbol 'x'], .symbol '(']) ⟨"let y", 0⟩).ending =
      .ok (.failed ⟨3, 4, .alternative, by decide⟩) := by cbv
  obtain ⟨hdone, -⟩ := run_left_factored noRules _ _ hne ha hfree _ hsize 0
  obtain ⟨-, -, hboth, hblame⟩ := run_left_factored noRules _ _ hne ha hfree _ hsize' 0
  obtain ⟨f', hf'⟩ := hboth.1 ⟨_, hfails⟩
  obtain ⟨hfurthest, hblamed, -⟩ := hblame _ _ hfails hf'
  exact ⟨hne, ha, hfree, hsize, hsize', (hdone _ _).1 hreads, hfails, f', hf', hblamed, hfurthest⟩

end Rulebook

end ParserKit
