import ParserKit.Proofs.Blame
import ParserKit.Proofs.OrderedChoice

/-!
# Repeating a class of characters

A repetition of a range goes on character by character until one does not lie in the range or the
text ends. So it takes the longest beginning of what is left that lies in the range
(`Text.LongestIn`), whatever the widths of the characters are, and stops where the first character
outside begins. A range that is the wrong way round holds nothing, and nothing is taken.

What comes behind the repetition meets that character. If it asks for the end of the text, it fails
there, so that a text of a class is recognized exactly, and the blame is on the first character that
does not belong to it.

## Key results

- `Text.longestIn_takeWhile`: taking while a condition holds takes the longest beginning
- `Rulebook.readsMany_range`: the rounds of the repetition
- `Rulebook.run_many_range`: the characters it takes, and where it stops
- `Rulebook.run_many_range_end_of_nil` / `run_many_range_end_of_cons`: what becomes of the end asked
  for behind it

That both are so at every boundary of a text is stated last.
-/

namespace ParserKit

/-! ## Longest beginnings -/

/-- `run` is the longest beginning of `cs` of which every character is in the class `P`. -/
structure Text.LongestIn (P : Char → Prop) (run cs : List Char) : Prop where
  begins : run <+: cs
  within : ∀ x ∈ run, P x
  longest : ∀ ws, ws <+: cs → (∀ x ∈ ws, P x) → ws <+: run

variable {P : Char → Prop} {run cs : List Char}

/-- What is taken while it lies in the class is the longest beginning that does. -/
theorem Text.longestIn_takeWhile (P : Char → Prop) [DecidablePred P] (cs : List Char) :
    LongestIn P (cs.takeWhile fun x => P x) cs where
  begins := cs.takeWhile_prefix _
  within x hx := by simpa using List.mem_takeWhile_imp hx
  longest := by
    -- another beginning in the class is followed along, as it starts with the same characters
    induction cs with
    | nil =>
      intro ws hws _
      simpa using hws
    | cons x cs ih =>
      intro ws hws hall
      cases ws with
      | nil => exact List.nil_prefix
      | cons y ws =>
        obtain ⟨rfl, hbegin⟩ := List.cons_prefix_cons.1 hws
        obtain ⟨hy, hall⟩ := List.forall_mem_cons.1 hall
        rw [List.takeWhile_cons_of_pos (by simpa using hy)]
        exact List.cons_prefix_cons.2 ⟨rfl, ih ws hbegin hall⟩

/-- All of the characters are in the class if none is left behind the longest beginning. -/
theorem Text.LongestIn.eq_iff (h : LongestIn P run cs) : run = cs ↔ ∀ x ∈ cs, P x := by
  constructor
  · rintro rfl
    exact h.within
  · intro hall
    have hcs : cs <+: run := h.longest cs (List.prefix_refl cs) hall
    exact List.IsPrefix.eq_of_length_le h.begins hcs.length_le

/-- What comes right behind the longest beginning is not in the class. -/
theorem Text.LongestIn.not_next (h : LongestIn P run cs) {x : Char} {rest : List Char}
    (hcs : cs = run ++ x :: rest) : ¬ P x := by
  intro hx
  -- with the character the beginning would be longer
  have hlonger : run ++ [x] <+: run := by
    apply h.longest
    · rw [hcs]
      exact ⟨rest, by simp⟩
    · intro y hy
      rcases List.mem_append.1 hy with hy | hy
      · exact h.within y hy
      · rw [List.mem_singleton.1 hy]
        exact hx
  have hlength := hlonger.length_le
  rw [List.length_append, List.length_singleton] at hlength
  omega

namespace Rulebook

open ParserKit.Parser (Reads ReadsMany ReadsEach BlamesSome SucceedsAt)

variable {ι κ : Type} {book : Rulebook ι κ} {input : String} {lo hi : Char} {o : Offset}

/-! ## The repetition -/

/-- A repetition of a range reads character by character while they are in the range. -/
theorem readsMany_range (hsize : input.utf8ByteSize < 2 ^ 64) {run rest : List Char}
    (hrun : ∀ x ∈ run, lo ≤ x ∧ x ≤ hi) (hrest : ∀ x, rest.head? = some x → ¬ (lo ≤ x ∧ x ≤ hi)) :
    ReadsMany input (book.run (.range lo hi)) (run ++ rest) (run.map .char) rest := by
  induction run with
  | nil => exact .stop (fails_range hrest)
  | cons x run ih =>
    obtain ⟨hx, hrun⟩ := List.forall_mem_cons.1 hrun
    have hless : Text.width (run ++ rest) < Text.width (x :: (run ++ rest)) := by
      have hpos := x.utf8Size_pos
      rw [Text.width_cons]
      omega
    exact .next (reads_range hsize hx) hless (ih hrun)

/-- The repetition reads the longest beginning in the range, and leaves the rest. -/
theorem reads_many_range (hsize : input.utf8ByteSize < 2 ^ 64) {run rest : List Char}
    (hrun : Text.LongestIn (fun x => lo ≤ x ∧ x ≤ hi) run (run ++ rest)) :
    Reads input (book.run (.many (.range lo hi))) (run ++ rest) (.many (run.map .char)) rest := by
  apply reads_many
  apply readsMany_range hsize hrun.within
  intro x hx
  obtain ⟨back, rfl⟩ := List.head?_eq_some_iff.1 hx
  exact hrun.not_next rfl

/-- Behind a part of what is left, the offset is further on by the width of this part. -/
private theorem eq_add_width {p : Nat} {front back : List Char}
    (ho : Text.Before input o.val (front ++ back)) (hp : Text.Before input p back) :
    p = o.val + Text.width front := by
  have hsum := ho.advance_append.add_width
  have hsum' := hp.add_width
  omega

/-- What the repetition takes covers the bytes of the longest beginning in the range. -/
theorem run_many_range (hsize : input.utf8ByteSize < 2 ^ 64) {run rest : List Char}
    (hrun : Text.LongestIn (fun x => lo ≤ x ∧ x ≤ hi) run (run ++ rest))
    (ho : Text.Before input o.val (run ++ rest)) :
    ∃ s : Span, (book.run (.many (.range lo hi)) ⟨input, o⟩).ending =
        .ok (.done (.many (run.map .char)) s) ∧
      s.begin = o ∧ s.stop.val = o.val + Text.width run := by
  have hreads : Reads input (book.run (.many (.range lo hi))) (run ++ rest)
      (.many (run.map .char)) rest := reads_many_range hsize hrun
  obtain ⟨s, hend, hbegin, hstop⟩ := hreads o ho
  exact ⟨s, hend, hbegin, eq_add_width ho hstop⟩

/-! ## The end behind the repetition -/

/-- Where nothing is left behind the repetition, the end is read. -/
theorem run_many_range_end_of_nil (book : Rulebook ι κ) (hsize : input.utf8ByteSize < 2 ^ 64)
    {run : List Char} (hrun : Text.LongestIn (fun x => lo ≤ x ∧ x ≤ hi) run (run ++ []))
    (ho : Text.Before input o.val (run ++ [])) :
    ∃ s : Span, (book.run (.sequence [.many (.range lo hi), .endOfInput]) ⟨input, o⟩).ending =
        .ok (.done (.seq [.many (run.map .char), .eof]) s) ∧
      s.begin = o ∧ s.stop.val = input.utf8ByteSize := by
  have heach : ReadsEach input ([.many (.range lo hi), .endOfInput].map book.run) (run ++ [])
      [.many (run.map .char), .eof] [] :=
    .cons (reads_many_range hsize hrun) (.cons reads_endOfInput (.nil []))
  obtain ⟨s, hend, hbegin, hstop⟩ := reads_sequence heach o ho
  have hsum := hstop.add_width
  rw [Text.width_nil, Nat.add_zero] at hsum
  exact ⟨s, hend, hbegin, hsum⟩

/-- Where a character is left behind the repetition, the end is missed there. -/
theorem run_many_range_end_of_cons (book : Rulebook ι κ) (hsize : input.utf8ByteSize < 2 ^ 64)
    {run rest : List Char} {x : Char}
    (hrun : Text.LongestIn (fun x => lo ≤ x ∧ x ≤ hi) run (run ++ x :: rest))
    (ho : Text.Before input o.val (run ++ x :: rest)) :
    ∃ p : Offset, p.val = o.val + Text.width run ∧
      (book.run (.sequence [.many (.range lo hi), .endOfInput]) ⟨input, o⟩).ending =
        .ok (.failed (Failure.expecting .endOfInput p)) := by
  have hsome : BlamesSome input ([.many (.range lo hi), .endOfInput].map book.run)
      (run ++ x :: rest) .endOfInput (x :: rest) (x :: rest) :=
    .later (reads_many_range hsize hrun) (.here (blames_endOfInput (List.cons_ne_nil x rest)))
  obtain ⟨f, hend, hexpected, hblamed, hfurthest⟩ := blames_sequence hsome o ho
  refine ⟨f.blamed, eq_add_width ho hblamed, ?_⟩
  -- the same is left at both offsets of the failure
  have hsame : f.furthest = f.blamed :=
    Fin.ext ((eq_add_width ho hfurthest).trans (eq_add_width ho hblamed).symm)
  obtain ⟨blamed, furthest, expected, hle⟩ := f
  obtain rfl : expected = .endOfInput := hexpected
  obtain rfl : furthest = blamed := hsame
  exact hend

/-! ## Both, at any boundary -/

/-- Take any range, any text and any boundary of it, the end included. A repetition of the range
    takes the longest beginning of what is left that lies in the range, in order, and ends as many
    bytes further on as it takes; of a range that is the wrong way round that is nothing. With the
    end of the text asked for behind it, this succeeds exactly if all that is left lies in the
    range, and otherwise the end is missed where the first character outside the range begins. -/
theorem run_many_range_longest (book : Rulebook ι κ) (input : String)
    (hsize : input.utf8ByteSize < 2 ^ 64) (lo hi : Char) (o : Offset)
    (ho : Text.isBoundary input o.val = true) :
    ∃ run : List Char,
      Text.LongestIn (fun x => lo ≤ x ∧ x ≤ hi) run (Cursor.remaining ⟨input, o⟩).toList ∧
      (hi < lo → run = []) ∧
      (∃ s : Span, (book.run (.many (.range lo hi)) ⟨input, o⟩).ending =
          .ok (.done (.many (run.map .char)) s) ∧
        s.begin = o ∧ s.stop.val = o.val + Text.width run) ∧
      (SucceedsAt (book.run (.sequence [.many (.range lo hi), .endOfInput])) ⟨input, o⟩ ↔
        ∀ x ∈ (Cursor.remaining ⟨input, o⟩).toList, lo ≤ x ∧ x ≤ hi) ∧
      ((¬ ∀ x ∈ (Cursor.remaining ⟨input, o⟩).toList, lo ≤ x ∧ x ≤ hi) →
        ∃ x rest, (Cursor.remaining ⟨input, o⟩).toList = run ++ x :: rest ∧ ¬ (lo ≤ x ∧ x ≤ hi) ∧
          ∃ p : Offset, p.val = o.val + Text.width run ∧
            (book.run (.sequence [.many (.range lo hi), .endOfInput]) ⟨input, o⟩).ending =
              .ok (.failed (Failure.expecting .endOfInput p))) := by
  obtain ⟨cs, hcs⟩ := Text.isBoundary_iff.1 ho
  have hleft : (Cursor.remaining ⟨input, o⟩).toList = cs := Text.toList_dropTo hcs
  rw [hleft]
  have hrun := Text.longestIn_takeWhile (fun x => lo ≤ x ∧ x ≤ hi) cs
  obtain ⟨rest, hrest⟩ := hrun.begins
  generalize cs.takeWhile (fun x => lo ≤ x ∧ x ≤ hi) = run at hrun hrest
  subst hrest
  refine ⟨run, hrun, ?_, run_many_range hsize hrun hcs, ?_, ?_⟩
  · intro hlt
    -- a character in the range would put `lo` before `hi`
    apply List.eq_nil_iff_forall_not_mem.2
    intro x hx
    obtain ⟨hlo, hhi⟩ := hrun.within x hx
    exact absurd hlt (Char.not_lt.2 (Char.le_trans hlo hhi))
  · rw [← hrun.eq_iff]
    -- all lies in the class exactly if nothing is left behind the run
    cases rest with
    | nil =>
      obtain ⟨s, hend, -, -⟩ := run_many_range_end_of_nil book hsize hrun hcs
      simp only [List.append_nil, iff_true]
      exact ⟨_, s, hend⟩
    | cons x rest =>
      obtain ⟨p, -, hend⟩ := run_many_range_end_of_cons book hsize hrun hcs
      constructor
      · rintro ⟨v, s, hv⟩
        rw [hend] at hv
        cases hv
      · intro h
        simp at h
  · rw [← hrun.eq_iff]
    intro hne
    cases rest with
    | nil => exact absurd (List.append_nil run).symm hne
    | cons x rest =>
      exact ⟨x, rest, rfl, hrun.not_next rfl, run_many_range_end_of_cons book hsize hrun hcs⟩

/-- Behind the first character of `ab€cd`, a repetition of the letters does not come to the end, as
    there is a sign on the way. -/
theorem run_many_range_longest_letters :
    "ab€cd".utf8ByteSize < 2 ^ 64 ∧ Text.isBoundary "ab€cd" 1 = true ∧
      ∃ p, ((noRules (κ := Unit)).run (.sequence [.many (.range 'a' 'z'), .endOfInput])
        ⟨"ab€cd", 1⟩).ending = .ok (.failed (Failure.expecting .endOfInput p)) := by
  have hsize : "ab€cd".utf8ByteSize < 2 ^ 64 := by decide
  have hbefore : Text.Before "ab€cd" 1 ['b', '€', 'c', 'd'] := ⟨['a'], by decide, by decide⟩
  obtain ⟨run, -, -, -, -, hmissed⟩ :=
    run_many_range_longest (noRules (κ := Unit)) "ab€cd" hsize 'a' 'z' 1 hbefore.isBoundary
  have hleft : (Cursor.remaining ⟨"ab€cd", 1⟩).toList = ['b', '€', 'c', 'd'] :=
    Text.toList_dropTo hbefore
  have hsign : ¬ ∀ x ∈ (Cursor.remaining ⟨"ab€cd", 1⟩).toList, 'a' ≤ x ∧ x ≤ 'z' := by
    rw [hleft]
    intro hall
    exact absurd (hall '€' (by simp)).2 (by decide)
  obtain ⟨_, _, -, -, p, -, hp⟩ := hmissed hsign
  exact ⟨hsize, hbefore.isBoundary, p, hp⟩

end Rulebook

end ParserKit
