import ParserKit.Proofs.GrammarInduction
import ParserKit.Proofs.TextPosition
import ParserKit.Sample.Brackets

/-!
# Offset safety

Where a parse may come to. A parser that looks at the text only through terminals either stays at
its cursor or moves on from one character boundary to another (`Text.Leads`); the spans and
failures it reports name no other offsets, and no sum or span on the way is a fault. Every
terminal is such a parser and every combinator makes one of such parsers, so every grammar without
custom parsers is one, at whatever offset it is started.

## Key results

- `Text.Leads`: the order of the offsets that a parse may come to, a preorder closed under maxima
- `sequenceFrom_within`, `choiceFrom_within`, `taggedFrom_within`, `manyFrom_within`: one invariant
  for each loop
- `compositional_offsetSafe`: every kind of node keeps offset safety
- `Rulebook.le_stop_of_run`, `Rulebook.le_blamed_of_run`: a run leads to no offset before its cursor

What this says of the spans and failures of a grammar without custom parsers is stated last.
-/

namespace ParserKit

variable {α β ι κ : Type}

/-! ## Where a parse may come to -/

/-- A parse that is at offset `a` of `s` may come to offset `b`: it stays where it is, or it moves
    on from one boundary to another. -/
def Text.Leads (s : String) (a b : Offset) : Prop :=
  a = b ∨ a.val < b.val ∧ Text.isBoundary s a.val = true ∧ Text.isBoundary s b.val = true

namespace Text.Leads

variable {s : String} {a b c : Offset}

theorem refl (a : Offset) : Text.Leads s a a := .inl rfl

/-- A parse never goes back. -/
theorem le (h : Text.Leads s a b) : a.val ≤ b.val := by
  rcases h with rfl | ⟨hlt, -, -⟩
  · exact Nat.le_refl _
  · exact Nat.le_of_lt hlt

/-- What leads on from where a parse came to is led to from the start. -/
theorem trans (hab : Text.Leads s a b) (hbc : Text.Leads s b c) : Text.Leads s a c := by
  rcases hab with rfl | ⟨hab, ha, hb⟩
  · exact hbc
  · rcases hbc with rfl | ⟨hbc, -, hc⟩
    · exact .inr ⟨hab, ha, hb⟩
    · exact .inr ⟨Nat.lt_trans hab hbc, ha, hc⟩

/-- The furthest of two offsets a parse may come to is one of them. -/
theorem max (hb : Text.Leads s a b) (hc : Text.Leads s a c) :
    Text.Leads s a (Offset.max b c) := by
  unfold Offset.max
  split
  · exact hc
  · exact hb

/-- A move that leads further goes from boundary to boundary. -/
theorem isBoundary (h : Text.Leads s a b) (hlt : a.val < b.val) :
    Text.isBoundary s a.val = true ∧ Text.isBoundary s b.val = true := by
  rcases h with rfl | ⟨-, ha, hb⟩
  · exact absurd hlt (Nat.lt_irrefl _)
  · exact ⟨ha, hb⟩

/-- Off the boundaries a parse stays where it is. -/
theorem eq_of_not_isBoundary (h : Text.Leads s a b) (ha : Text.isBoundary s a.val = false) :
    b = a := by
  rcases h with rfl | ⟨-, ha', -⟩
  · rfl
  · rw [ha] at ha'
    cases ha'

end Text.Leads

/-! ## Outcomes and runs within bounds -/

/-- The offsets in an outcome are such as a parse from `c` may come to, and a span begins at
    `c`. -/
def Outcome.Within (c : Cursor) : Outcome α → Prop
  | .done _ s => s.begin = c.offset ∧ Text.Leads c.input c.offset s.stop
  | .failed f =>
    Text.Leads c.input c.offset f.blamed ∧ Text.Leads c.input c.offset f.furthest

/-- A run without a fault whose outcome, if it comes to one, is within bounds. -/
def Run.Within (c : Cursor) (r : Run (Outcome α)) : Prop :=
  match r.ending with
  | .ok o => o.Within c
  | .error stop => stop = .outOfFuel

namespace Run

variable {c d : Cursor} {r : Run (Outcome α)}

/-- Only the ending of a run counts, not its trace. -/
theorem within_of_ending {r' : Run (Outcome α)} (h : r.Within c) (he : r'.ending = r.ending) :
    r'.Within c := by
  unfold Within
  rw [he]
  exact h

theorem within_done {v : α} {s : Span} (h : (Outcome.done v s).Within c) :
    (Run.done v s).Within c := h

theorem within_failed {f : Failure} (h : (Outcome.failed f : Outcome α).Within c) :
    (Run.failed f : Run (Outcome α)).Within c := h

/-- An outcome of a run within bounds is within bounds. -/
theorem Within.outcome (h : r.Within c) {o : Outcome α} (hr : r.ending = .ok o) : o.Within c := by
  unfold Within at h
  rw [hr] at h
  exact h

/-- All that can keep such a run from an outcome is the bound on its nesting. -/
theorem Within.eq_outOfFuel (h : r.Within c) {stop : Stop} (hr : r.ending = .error stop) :
    stop = .outOfFuel := by
  unfold Within at h
  rw [hr] at h
  exact h

/-- What follows is asked only for outcomes within bounds. It may be judged from another cursor. -/
theorem Within.andThen {k : Outcome α → Run (Outcome β)} (h : r.Within c)
    (hk : ∀ o, o.Within c → (k o).Within d) : (r.andThen k).Within d := by
  unfold Within at h ⊢
  rw [ending_andThen]
  cases hr : r.ending with
  | error stop =>
    rw [hr] at h
    exact h
  | ok o =>
    rw [hr] at h
    exact hk o h

/-- A conversion of the value moves no offset. -/
theorem Within.mapValue (h : r.Within c) (f : α → β) : (r.mapValue f).Within c := by
  unfold Within at h ⊢
  rw [Run.mapValue, ending_map]
  cases hr : r.ending with
  | error stop =>
    rw [hr] at h
    exact h
  | ok o =>
    rw [hr] at h
    cases o <;> exact h

/-- The span from where a parse began to where it came to. -/
theorem within_doneAt {v : α} (h : Text.Leads c.input c.offset d.offset) :
    (Run.doneAt v (Span.between c.offset d.offset)).Within c := by
  have hle := h.le
  simp only [Span.between, hle, ↓reduceDIte, doneAt]
  exact within_done ⟨rfl, h⟩

end Run

/-! ## Parsers -/

namespace Parser

/-- Run anywhere in a text whose size is an offset, the parser stays within bounds. -/
def OffsetSafe (p : Parser α) : Prop :=
  ∀ c : Cursor, c.input.utf8ByteSize < 2 ^ 64 → (p c).Within c

variable {p : Parser α}

/-- A conversion of the value keeps a parser within bounds. -/
theorem OffsetSafe.map (hp : OffsetSafe p) (f : α → β) : OffsetSafe (Parser.map f p) :=
  fun c hc => (hp c hc).mapValue f

/-! ### Terminals -/

/-- A failure at the cursor itself names no other offset. -/
theorem expected_within (e : Expectation) (c : Cursor) :
    (expected e c : Run (Outcome α)).Within c := ⟨.refl _, .refl _⟩

/-- Reading `ws` where it stands is no fault and leads behind it. -/
theorem reads_within {c : Cursor} (v : α) {ws cs : List Char}
    (h : Text.Before c.input c.offset.val (ws ++ cs)) (hc : c.input.utf8ByteSize < 2 ^ 64) :
    (reads v (Text.width ws) c).Within c := by
  have hstop := h.advance_append.add_width
  have hlt : c.offset.val + Text.width ws < 2 ^ 64 := by omega
  rw [reads, Span.ofLength_eq_ok hlt]
  refine Run.within_done ⟨rfl, ?_⟩
  -- to read nothing is to stay; else the move is between two boundaries
  rcases Nat.eq_zero_or_pos (Text.width ws) with hw | hw
  · exact .inl (Fin.ext (by simp [hw]))
  · refine .inr ⟨?_, h.isBoundary, h.advance_append.isBoundary⟩
    show c.offset.val < c.offset.val + Text.width ws
    omega

/-- The end of the text is met without moving. -/
theorem endOfInput_offsetSafe : OffsetSafe endOfInput := by
  intro c _
  unfold endOfInput
  split
  · exact Run.within_done ⟨rfl, .refl _⟩
  · exact expected_within _ c

/-- A character that stands at the cursor may be read. -/
theorem reads_peek_within {c : Cursor} {x : Char} (h : c.peek = some x)
    (hc : c.input.utf8ByteSize < 2 ^ 64) : (reads x x.utf8Size c).Within c := by
  obtain ⟨cs, hcs⟩ := Text.charAt?_eq_some_iff.1 h
  have hx : Text.Before c.input c.offset.val ([x] ++ cs) := hcs
  simpa using reads_within x hx hc

/-- A symbol that stands at the cursor is read, or the cursor is blamed. -/
theorem symbol_offsetSafe (x : Char) : OffsetSafe (symbol x) := by
  intro c hc
  unfold symbol
  split
  · rename_i y hy
    split
    · exact reads_peek_within hy hc
    · exact expected_within _ c
  · exact expected_within _ c

/-- A character of a range that stands at the cursor is read, or the cursor is blamed. -/
theorem range_offsetSafe (lo hi : Char) : OffsetSafe (range lo hi) := by
  intro c hc
  unfold range
  split
  · rename_i y hy
    split
    · exact reads_peek_within hy hc
    · exact expected_within _ c
  · exact expected_within _ c

/-- A word that stands at the cursor is read, or the cursor is blamed. -/
theorem word_offsetSafe (w : String) : OffsetSafe (word w) := by
  intro c hc
  unfold word
  split
  · rename_i hw
    rcases Text.startsWithAt_iff.1 hw with hnil | ⟨cs, hcs⟩
    · -- the empty word moves nowhere, so it is read even where nothing stands
      have hsize : w.utf8ByteSize = 0 := by rw [← Text.width_toList, hnil, Text.width_nil]
      rw [hsize, reads, Span.ofLength_eq_ok c.offset.isLt]
      exact Run.within_done ⟨rfl, .refl _⟩
    · rw [← Text.width_toList]
      exact reads_within w hcs hc
  · exact expected_within _ c

/-! ### Combinators -/

/-- The invariant of a sequence: what was read so far leads from the start to the rest. -/
theorem sequenceFrom_within {ps : List (Parser α)} (hps : ∀ p ∈ ps, OffsetSafe p) (c : Cursor)
    (hc : c.input.utf8ByteSize < 2 ^ 64) (rest : Offset)
    (hrest : Text.Leads c.input c.offset rest) :
    (sequenceFrom c.offset ps (c.moveTo rest)).Within c := by
  -- the invariant is about the rest, and each match leads it on
  induction ps generalizing rest with
  | nil => exact Run.within_doneAt (d := c.moveTo rest) hrest
  | cons p ps ih =>
    rw [sequenceFrom]
    refine (hps p List.mem_cons_self (c.moveTo rest) hc).andThen fun o ho => ?_
    cases o with
    | done v s =>
      have hstop : Text.Leads c.input c.offset s.stop := hrest.trans ho.2
      exact (ih (fun q hq => hps q (List.mem_cons_of_mem p hq)) s.stop hstop).mapValue _
    | failed f => exact Run.within_failed ⟨hrest.trans ho.1, hrest.trans ho.2⟩

/-- All alternatives failed, the furthest at an offset that a parse may come to. -/
theorem noAlternative_within {c : Cursor} {furthest : Offset}
    (h : Text.Leads c.input c.offset furthest) :
    (Run.failed (noAlternative c furthest) : Run (Outcome α)).Within c :=
  Run.within_failed ⟨.refl _, (Text.Leads.refl _).max h⟩

/-- The invariant of a choice: the furthest offset so far is one a parse may come to. -/
theorem choiceFrom_within {ps : List (Parser α)} (hps : ∀ p ∈ ps, OffsetSafe p) (c : Cursor)
    (hc : c.input.utf8ByteSize < 2 ^ 64) (furthest : Offset)
    (h : Text.Leads c.input c.offset furthest) : (choiceFrom c furthest ps).Within c := by
  induction ps generalizing furthest with
  | nil => exact noAlternative_within h
  | cons p ps ih =>
    rw [choiceFrom]
    refine (hps p List.mem_cons_self c hc).andThen fun o ho => ?_
    cases o with
    | done v s => exact Run.within_done ho
    | failed f => exact ih (fun q hq => hps q (List.mem_cons_of_mem p hq)) _ (h.max ho.2)

/-- A choice stays within bounds if its branches do. -/
theorem choice_offsetSafe {ps : List (Parser α)} (hps : ∀ p ∈ ps, OffsetSafe p) :
    OffsetSafe (choice ps) := by
  intro c hc
  -- the first branch is tried apart from the loop, which starts with how far that one came
  cases ps with
  | nil => exact noAlternative_within (.refl _)
  | cons p ps =>
    rw [choice]
    refine (hps p List.mem_cons_self c hc).andThen fun o ho => ?_
    cases o with
    | done v s => exact Run.within_done ho
    | failed f =>
      exact choiceFrom_within (fun q hq => hps q (List.mem_cons_of_mem p hq)) c hc _ ho.2

/-- The invariant of a tagged choice is that of a choice; the tag does not matter. -/
theorem taggedFrom_within {alternatives : List (String × Parser α)}
    (hps : ∀ a ∈ alternatives, OffsetSafe a.2) (c : Cursor)
    (hc : c.input.utf8ByteSize < 2 ^ 64) (furthest : Offset)
    (h : Text.Leads c.input c.offset furthest) :
    (taggedFrom c furthest alternatives).Within c := by
  induction alternatives generalizing furthest with
  | nil => exact noAlternative_within h
  | cons a alternatives ih =>
    obtain ⟨t, p⟩ := a
    rw [taggedFrom]
    refine (hps (t, p) List.mem_cons_self c hc).andThen fun o ho => ?_
    cases o with
    | done v s => exact Run.within_done ho
    | failed f =>
      exact (ih (fun a ha => hps a (List.mem_cons_of_mem _ ha)) _ (h.max ho.2)).mapValue _

/-- The invariant of a repetition is that of a sequence. -/
theorem manyFrom_within (hp : OffsetSafe p) (c : Cursor) (hc : c.input.utf8ByteSize < 2 ^ 64)
    (rest : Offset) (hrest : Text.Leads c.input c.offset rest) :
    (manyFrom p c.offset (c.moveTo rest)).Within c := by
  -- a round that leads further is followed by others from further on
  induction rest using Offset.forward_induction with
  | further rest ih =>
    rw [manyFrom]
    refine (hp (c.moveTo rest) hc).andThen fun o ho => ?_
    cases o with
    | done v s =>
      have hstop : Text.Leads c.input c.offset s.stop := hrest.trans ho.2
      dsimp only
      split
      · rename_i hmoves
        exact (ih s.stop hmoves hstop).mapValue _
      · exact Run.within_doneAt (d := c.moveTo s.stop) hstop
    | failed f => exact Run.within_doneAt (d := c.moveTo rest) hrest

/-- A conversion with an event keeps a parser within bounds. -/
theorem mapped_offsetSafe (hp : OffsetSafe p) (f : α → β) : OffsetSafe (mapped f p) := by
  refine fun c hc => (hp c hc).andThen fun o ho => ?_
  cases o <;> exact ho

/-- A rule stays within bounds if its body does. -/
theorem named_offsetSafe (hp : OffsetSafe p) (name : String) (action : α → β) :
    OffsetSafe (named name action p) := by
  intro c hc
  refine Run.within_of_ending ((hp c hc).andThen fun o ho => ?_) rfl
  cases o <;> exact ho

end Parser

/-! ## Grammars -/

namespace Rulebook

variable {book : Rulebook ι κ}

/-- Every kind of node keeps offset safety. -/
theorem compositional_offsetSafe : book.Compositional fun _ p => p.OffsetSafe where
  outOfFuel _ := fun _ _ => rfl
  endOfInput := Parser.endOfInput_offsetSafe.map _
  symbol x := (Parser.symbol_offsetSafe x).map _
  range lo hi := (Parser.range_offsetSafe lo hi).map _
  word w := (Parser.word_offsetSafe w).map _
  -- a loop over parts stays within what its start was, which is the cursor itself
  sequence items run h := by
    refine Parser.OffsetSafe.map (fun c hc => ?_) _
    exact Parser.sequenceFrom_within (List.forall_mem_map.2 h) c hc c.offset (.refl _)
  either branches run h := Parser.choice_offsetSafe (List.forall_mem_map.2 h)
  oneOf form types branches run h := by
    refine Parser.OffsetSafe.map (fun c hc => ?_) _
    refine Parser.taggedFrom_within (fun a ha => ?_) c hc c.offset (.refl _)
    exact List.forall_mem_map.2 h a.2 (List.of_mem_zip ha).2
  many item p h := by
    refine Parser.OffsetSafe.map (fun c hc => ?_) _
    exact Parser.manyFrom_within h c hc c.offset (.refl _)
  map f inner p h := Parser.mapped_offsetSafe h f
  rule i p h := Parser.named_offsetSafe h _ _
  watch label inner p h := fun c hc => Run.within_of_ending (h c hc) rfl

/-- A run of a grammar without custom parsers is no fault and stays within bounds. -/
theorem runWith_within {g : Grammar ι κ} (hg : book.CustomFree g) {c : Cursor}
    (hsize : c.input.utf8ByteSize < 2 ^ 64) (fuel : Nat) :
    (book.runWith fuel g c).Within c :=
  runWith_induction_of_customFree compositional_offsetSafe fuel hg c hsize

section

variable {g : Grammar ι κ} {input : String} {o : Offset} {v : Value κ} {s : Span} {f : Failure}

/-- A match begins at the cursor. -/
theorem begin_eq_of_run (hg : book.CustomFree g) (hsize : input.utf8ByteSize < 2 ^ 64)
    (h : (book.run g ⟨input, o⟩).ending = .ok (.done v s)) : s.begin = o :=
  ((runWith_within hg hsize _).outcome h).1

/-- A match ends at the cursor or further on. -/
theorem le_stop_of_run (hg : book.CustomFree g) (hsize : input.utf8ByteSize < 2 ^ 64)
    (h : (book.run g ⟨input, o⟩).ending = .ok (.done v s)) : o.val ≤ s.stop.val :=
  ((runWith_within hg hsize _).outcome h).2.le

/-- A failure blames the cursor or an offset further on. -/
theorem le_blamed_of_run (hg : book.CustomFree g) (hsize : input.utf8ByteSize < 2 ^ 64)
    (h : (book.run g ⟨input, o⟩).ending = .ok (.failed f)) : o.val ≤ f.blamed.val :=
  ((runWith_within hg hsize _).outcome h).1.le

end

/-- The offsets that a grammar without custom parsers reports, started anywhere in a text and with
    any bound on the nesting of rules. No run is a fault. A span begins at the cursor, and if it
    covers anything, both its ends are boundaries of the text. A failure blames no offset before
    the cursor, and if it came further than the cursor, all three offsets are boundaries. So off
    the boundaries, and past the end, nothing is ever read. -/
theorem runWith_offset_safety (book : Rulebook ι κ) (g : Grammar ι κ) (hg : book.CustomFree g)
    (input : String) (hinput : input.utf8ByteSize < 2 ^ 64) (pos : Offset) (fuel : Nat) :
    (∀ fault, (book.runWith fuel g ⟨input, pos⟩).ending ≠ .error (.fault fault)) ∧
    (∀ v s, (book.runWith fuel g ⟨input, pos⟩).ending = .ok (.done v s) →
      s.begin = pos ∧ pos.val ≤ s.stop.val ∧
      (pos.val < s.stop.val →
        Text.isBoundary input pos.val = true ∧ Text.isBoundary input s.stop.val = true ∧
        s.stop.val ≤ input.utf8ByteSize)) ∧
    (∀ f, (book.runWith fuel g ⟨input, pos⟩).ending = .ok (.failed f) →
      pos.val ≤ f.blamed.val ∧ f.blamed.val ≤ f.furthest.val ∧
      (pos.val < f.furthest.val →
        Text.isBoundary input pos.val = true ∧ Text.isBoundary input f.blamed.val = true ∧
        Text.isBoundary input f.furthest.val = true ∧
        f.furthest.val ≤ input.utf8ByteSize)) ∧
    (Text.isBoundary input pos.val = false ∨ input.utf8ByteSize < pos.val →
      (∀ v s, (book.runWith fuel g ⟨input, pos⟩).ending = .ok (.done v s) → s = Span.point pos) ∧
      (∀ f, (book.runWith fuel g ⟨input, pos⟩).ending = .ok (.failed f) →
        f.blamed = pos ∧ f.furthest = pos)) := by
  -- all is read off the bounds of the one run
  have hrun : (book.runWith fuel g ⟨input, pos⟩).Within ⟨input, pos⟩ :=
    runWith_induction_of_customFree compositional_offsetSafe fuel hg ⟨input, pos⟩ hinput
  unfold Run.Within at hrun
  refine ⟨?_, ?_, ?_, ?_⟩
  · intro fault h
    rw [h] at hrun
    cases hrun
  · intro v s h
    rw [h] at hrun
    obtain ⟨hbegin, hstop⟩ := hrun
    refine ⟨hbegin, hstop.le, fun hlt => ?_⟩
    obtain ⟨hpos, hb⟩ := hstop.isBoundary hlt
    exact ⟨hpos, hb, Text.le_size_of_isBoundary hb⟩
  · intro f h
    rw [h] at hrun
    obtain ⟨hblamed, hfurthest⟩ := hrun
    refine ⟨hblamed.le, f.blamed_le_furthest, fun hlt => ?_⟩
    obtain ⟨hpos, hb⟩ := hfurthest.isBoundary hlt
    refine ⟨hpos, ?_, hb, Text.le_size_of_isBoundary hb⟩
    -- the blamed offset may be the cursor itself
    rcases hblamed with heq | ⟨-, -, hb'⟩
    · rw [← heq]
      exact hpos
    · exact hb'
  · intro hoff
    -- past the end there are no boundaries either
    have hnot : Text.isBoundary input pos.val = false := by
      rcases hoff with hoff | hpast
      · exact hoff
      · by_contra hb
        have hle := Text.le_size_of_isBoundary (Bool.not_eq_false _ ▸ hb)
        omega
    constructor
    · intro v s h
      rw [h] at hrun
      have hstop := hrun.2.eq_of_not_isBoundary hnot
      -- a span that begins and ends at the cursor is the point there
      obtain ⟨b, e, hle⟩ := s
      obtain rfl : b = pos := hrun.1
      obtain rfl : e = b := hstop
      rfl
    · intro f h
      rw [h] at hrun
      exact ⟨hrun.1.eq_of_not_isBoundary hnot, hrun.2.eq_of_not_isBoundary hnot⟩

/-- Inside a character a pair of brackets is looked for in vain, and behind it one is read. -/
theorem runWith_offset_safety_brackets :
    Sample.BracketRule.book.CustomFree (.rule .paren) ∧ "é(\x7b\x7d)".utf8ByteSize < 2 ^ 64 ∧
      Text.isBoundary "é(\x7b\x7d)" 1 = false ∧
      (Failure.expecting .alternative 1).blamed = 1 ∧
      Text.isBoundary "é(\x7b\x7d)" 2 = true ∧ Text.isBoundary "é(\x7b\x7d)" 6 = true ∧
      6 ≤ "é(\x7b\x7d)".utf8ByteSize := by
  have hfree : Sample.BracketRule.book.CustomFree (.rule .paren) :=
    customFree_of_all (by intro i; cases i <;> rfl) rfl
  have hsize : "é(\x7b\x7d)".utf8ByteSize < 2 ^ 64 := by decide
  have hinside : Text.isBoundary "é(\x7b\x7d)" 1 = false := by cbv
  have hfails : (Sample.BracketRule.book.runWith 3 (.rule .paren) ⟨"é(\x7b\x7d)", 1⟩).ending =
      .ok (.failed (Failure.expecting .alternative 1)) := by cbv
  have hreads : (Sample.BracketRule.book.runWith 6 (.rule .paren) ⟨"é(\x7b\x7d)", 2⟩).ending =
      .ok (.done (.made (.round [.curly []])) ⟨2, 6, by decide⟩) := by cbv
  have off := (runWith_offset_safety _ _ hfree _ hsize 1 3).2.2.2 (.inl hinside)
  have on := (runWith_offset_safety _ _ hfree _ hsize 2 6).2.1 _ _ hreads
  exact ⟨hfree, hsize, hinside, (off.2 _ hfails).1, on.2.2 (by decide)⟩

end Rulebook

end ParserKit
