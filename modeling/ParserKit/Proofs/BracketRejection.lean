import ParserKit.Proofs.Blame
import ParserKit.Proofs.BracketLanguage

/-!
# What the bracket grammar says of other texts

A text that is not a document is rejected in one of three ways. Where nothing opens, neither kind of
pair is read, and the parse came nowhere. Where something opens but no pair stands, the pair is
missed at its closing bracket: the repetition inside it has read all the pairs that stand there and
has forgotten how the next one failed, however deep. Where a pair stands, the text goes on behind
it.

That the repetition reads as many pairs as there are at all rests on the pairs being free of
prefixes: one text begins with at most one pair (`Bracket.charsOnto_inj`), so pairs side by side
that cannot be continued are at least as many as any others there (`Bracket.isPrefix_of_run`).

## Key results

- `Bracket.charsOnto_inj`: a text begins with at most one pair
- `Bracket.exists_run` / `Bracket.isPrefix_of_run`: the longest run of pairs
- `blames_paren_of_opening`: an opening bracket without a pair is blamed on the start
- `parseText_document_rejected`: what is said of a text that is not a document
-/

namespace ParserKit.Sample

namespace Bracket

/-! ## One pair at most -/

/-- A bracket opens. -/
def Opens (cs : List Char) : Prop := cs.head? = some '(' ∨ cs.head? = some '\x7b'

/-- A pair begins with an opening bracket. -/
theorem opens_charsOnto (b : Bracket) (rest : List Char) : Opens (b.charsOnto rest) := by
  cases b <;> simp [charsOnto, Opens]

/-- Where a bracket closes, none opens. -/
theorem not_opens_of_closing {closing : Char} (h : closing = ')' ∨ closing = '\x7d')
    (rest : List Char) : ¬ Opens (closing :: rest) := by
  rcases h with rfl | rfl <;> simp [Opens]

mutual

/-- A text begins with at most one pair. -/
theorem charsOnto_inj {b b' : Bracket} {rest rest' : List Char}
    (h : b.charsOnto rest = b'.charsOnto rest') : b = b' ∧ rest = rest' := by
  -- the first bracket tells the kind, and where the pairs inside end, none opens
  cases b with
  | round inside =>
    cases b' with
    | round inside' =>
      simp only [charsOnto, List.cons.injEq, true_and] at h
      obtain ⟨rfl, htail⟩ := charsOfOnto_inj (not_opens_of_closing (.inl rfl) rest)
        (not_opens_of_closing (.inl rfl) rest') h
      simpa using htail
    | curly inside' => simp [charsOnto] at h
  | curly inside =>
    cases b' with
    | round inside' => simp [charsOnto] at h
    | curly inside' =>
      simp only [charsOnto, List.cons.injEq, true_and] at h
      obtain ⟨rfl, htail⟩ := charsOfOnto_inj (not_opens_of_closing (.inr rfl) rest)
        (not_opens_of_closing (.inr rfl) rest') h
      simpa using htail

/-- Pairs side by side, up to where nothing opens, are the only ones. -/
theorem charsOfOnto_inj {bs bs' : List Bracket} {rest rest' : List Char} (hrest : ¬ Opens rest)
    (hrest' : ¬ Opens rest') (h : charsOfOnto bs rest = charsOfOnto bs' rest') :
    bs = bs' ∧ rest = rest' := by
  -- no list can end before the other: the other would open a bracket there
  cases bs with
  | nil =>
    cases bs' with
    | nil => exact ⟨rfl, h⟩
    | cons b' bs' =>
      rw [charsOfOnto, charsOfOnto] at h
      rw [h] at hrest
      exact absurd (b'.opens_charsOnto _) hrest
  | cons b bs =>
    cases bs' with
    | nil =>
      rw [charsOfOnto, charsOfOnto] at h
      rw [← h] at hrest'
      exact absurd (b.opens_charsOnto _) hrest'
    | cons b' bs' =>
      rw [charsOfOnto, charsOfOnto] at h
      obtain ⟨rfl, htail⟩ := charsOnto_inj h
      obtain ⟨rfl, hend⟩ := charsOfOnto_inj hrest hrest' htail
      exact ⟨rfl, hend⟩

end

/-! ## Runs of pairs -/

variable {cs rest rest' : List Char}

/-- Pairs side by side as characters. -/
def charsOf (bs : List Bracket) : List Char := charsOfOnto bs []

/-- Pairs side by side before `rest` are their characters before `rest`. -/
theorem charsOfOnto_eq (bs : List Bracket) (rest : List Char) :
    charsOfOnto bs rest = charsOf bs ++ rest := by
  rw [charsOf, ← charsOfOnto_append, List.nil_append]

/-- Pairs side by side are written one after the other. -/
theorem charsOf_append (bs more : List Bracket) :
    charsOf (bs ++ more) = charsOf bs ++ charsOf more := by
  induction bs with
  | nil => rfl
  | cons b bs ih =>
    have ih' : charsOfOnto (bs ++ more) [] = charsOf bs ++ charsOf more := ih
    rw [charsOf, charsOf, List.cons_append, charsOfOnto, charsOfOnto, ih', charsOnto_append]
    rfl

/-- A pair begins a text if the text is the pair before something. -/
theorem chars_isPrefix_iff {b : Bracket} : b.chars <+: cs ↔ ∃ rest, cs = b.charsOnto rest := by
  simp only [charsOnto_eq]
  exact ⟨fun ⟨rest, h⟩ => ⟨rest, h.symm⟩, fun ⟨rest, h⟩ => ⟨rest, h.symm⟩⟩

/-- Every text is some pairs side by side, perhaps none, up to where no pair stands. -/
theorem exists_run (cs : List Char) :
    ∃ bs rest, cs = charsOfOnto bs rest ∧ ∀ b : Bracket, ¬ b.chars <+: rest := by
  -- on the length: behind a pair less is left
  induction hn : cs.length using Nat.strongRecOn generalizing cs with
  | ind n ih =>
    by_cases hpair : ∃ b : Bracket, b.chars <+: cs
    · obtain ⟨b, hb⟩ := hpair
      obtain ⟨mid, rfl⟩ := chars_isPrefix_iff.1 hb
      have hless := b.length_lt_length_charsOnto mid
      obtain ⟨bs, rest, rfl, hnone⟩ := ih mid.length (by omega) mid rfl
      exact ⟨b :: bs, rest, rfl, hnone⟩
    · exact ⟨[], cs, rfl, not_exists.1 hpair⟩

/-- Where pairs side by side cannot be continued, any others there are the first of them. -/
theorem isPrefix_of_run {bs bs' : List Bracket} (hnone : ∀ b : Bracket, ¬ b.chars <+: rest)
    (h : charsOfOnto bs rest = charsOfOnto bs' rest') : bs' <+: bs := by
  induction bs' generalizing bs with
  | nil => exact List.nil_prefix
  | cons b' bs' ih =>
    cases bs with
    | nil => exact absurd (chars_isPrefix_iff.2 ⟨_, h⟩) (hnone b')
    | cons b bs =>
      rw [charsOfOnto, charsOfOnto] at h
      obtain ⟨rfl, htail⟩ := charsOnto_inj h
      rw [List.cons_prefix_cons]
      exact ⟨rfl, ih htail⟩

/-- The pairs stand side by side at the start of the text, and no longer run of pairs does. -/
def IsLongestRun (bs : List Bracket) (cs : List Char) : Prop :=
  charsOf bs <+: cs ∧ ∀ bs', charsOf bs' <+: cs → (charsOf bs').length ≤ (charsOf bs).length

/-- Pairs side by side that cannot be continued are the longest run. -/
theorem isLongestRun_of_run {bs : List Bracket} (hnone : ∀ b : Bracket, ¬ b.chars <+: rest) :
    IsLongestRun bs (charsOfOnto bs rest) := by
  refine ⟨⟨rest, (charsOfOnto_eq bs rest).symm⟩, ?_⟩
  rintro bs' ⟨rest', h⟩
  rw [← charsOfOnto_eq] at h
  -- any other run is the first part of this one
  obtain ⟨more, rfl⟩ := isPrefix_of_run hnone h.symm
  rw [charsOf_append, List.length_append]
  omega

/-! ### Bytes -/

mutual

/-- Every bracket is one byte. -/
theorem width_charsOnto (b : Bracket) (rest : List Char) :
    Text.width (b.charsOnto rest) + rest.length = (b.charsOnto rest).length + Text.width rest := by
  -- stated without a difference: bytes and characters of what follows cancel each other
  cases b with
  | round inside =>
    have hopen : '('.utf8Size = 1 := rfl
    have hclose : ')'.utf8Size = 1 := rfl
    have hinside := width_charsOfOnto inside (')' :: rest)
    simp only [charsOnto, Text.width_cons, List.length_cons] at hinside ⊢
    omega
  | curly inside =>
    have hopen : '\x7b'.utf8Size = 1 := rfl
    have hclose : '\x7d'.utf8Size = 1 := rfl
    have hinside := width_charsOfOnto inside ('\x7d' :: rest)
    simp only [charsOnto, Text.width_cons, List.length_cons] at hinside ⊢
    omega

/-- Every bracket of several pairs is one byte. -/
theorem width_charsOfOnto (bs : List Bracket) (rest : List Char) :
    Text.width (charsOfOnto bs rest) + rest.length =
      (charsOfOnto bs rest).length + Text.width rest := by
  cases bs with
  | nil =>
    rw [charsOfOnto]
    omega
  | cons b bs =>
    have hb := width_charsOnto b (charsOfOnto bs rest)
    have hbs := width_charsOfOnto bs rest
    rw [charsOfOnto]
    omega

end

/-- A pair takes as many bytes as it has brackets. -/
theorem width_chars (b : Bracket) : Text.width b.chars = b.chars.length := by
  simpa [chars] using b.width_charsOnto []

/-- Pairs side by side take as many bytes as they have brackets. -/
theorem width_charsOf (bs : List Bracket) : Text.width (charsOf bs) = (charsOf bs).length := by
  simpa [charsOf] using width_charsOfOnto bs []

end Bracket

namespace BracketRule

open ParserKit.Parser (Reads Fails ReadsMany Blames)
open ParserKit.Sample.Bracket (charsOfOnto charsOf Opens IsLongestRun)

variable {input : String} {cs rest rest' blamed blamed' : List Char} {e e' : Expectation}
  {vs : List (Value Bracket)}

/-! ## Who is blamed -/

/-- Without its opening bracket a pair is missed at once. -/
theorem blames_enclosed_of_opening {opening closing : Char} (h : cs.head? ≠ some opening) :
    Blames input (book.run (enclosed opening closing)) cs (.symbol opening) cs cs :=
  Rulebook.blames_sequence (.here (Rulebook.blames_symbol h))

/-- Without its closing bracket a pair is missed behind the pairs inside it. -/
theorem blames_enclosed_of_closing (hsize : input.utf8ByteSize < 2 ^ 64) {opening closing : Char}
    (h : ReadsMany input (book.run (.rule .paren)) cs vs rest) (hrest : rest.head? ≠ some closing) :
    Blames input (book.run (enclosed opening closing)) (opening :: cs) (.symbol closing) rest
      rest :=
  Rulebook.blames_sequence (.later (Rulebook.reads_symbol hsize opening)
    (.later (Rulebook.reads_many h) (.here (Rulebook.blames_symbol hrest))))

/-- A round pair is missed at once where no round bracket stands. -/
theorem blames_round_of_head (h : cs.head? ≠ some '(') :
    Blames input (book.run (.rule .round)) cs (.symbol '(') cs cs :=
  book.blames_rule .round (blames_enclosed_of_opening h)

/-- A curly pair is missed at once where no curly bracket stands. -/
theorem blames_curly_of_head (h : cs.head? ≠ some '\x7b') :
    Blames input (book.run (.rule .curly)) cs (.symbol '\x7b') cs cs :=
  book.blames_rule .curly (blames_enclosed_of_opening h)

/-- A pair that is neither round nor curly is missed at its start, and the parse came as far as the
    kind that came further. -/
theorem blames_paren (hround : Blames input (book.run (.rule .round)) cs e blamed rest)
    (hcurly : Blames input (book.run (.rule .curly)) cs e' blamed' rest')
    (hle : Text.width rest ≤ Text.width cs) (hle' : Text.width rest' ≤ Text.width cs) :
    Blames input (book.run (.rule .paren)) cs .alternative cs
      (if Text.width rest ≤ Text.width rest' then rest else rest') := by
  apply book.blames_rule .paren
  -- whichever kind came further, neither left less than the lesser rest
  apply Rulebook.blames_unified rfl
  · intro g hg
    simp only [List.mem_cons, List.not_mem_nil, or_false] at hg
    rcases hg with rfl | rfl
    · refine ⟨e, blamed, rest, hround, ?_⟩
      split <;> omega
    · refine ⟨e', blamed', rest', hcurly, ?_⟩
      split <;> omega
  · split
    · exact ⟨.rule .round, by simp, e, blamed, hround⟩
    · exact ⟨.rule .curly, by simp, e', blamed', hcurly⟩
  · split <;> omega

/-- Where nothing opens, a pair is missed at once. -/
theorem blames_paren_of_not_opens (h : ¬ Opens cs) :
    Blames input (book.run (.rule .paren)) cs .alternative cs cs := by
  obtain ⟨hround, hcurly⟩ := not_or.1 h
  have hround' : Blames input (book.run (.rule .round)) cs (.symbol '(') cs cs :=
    blames_round_of_head hround
  simpa using blames_paren hround' (blames_curly_of_head hcurly) (Nat.le_refl _) (Nat.le_refl _)

/-- Where a bracket opens that does not close behind the longest run of pairs, a pair is missed at
    once, and the parse came to the end of that run. -/
theorem blames_paren_of_opening (hsize : input.utf8ByteSize < 2 ^ 64) {c : Char} {bs : List Bracket}
    (hopens : Opens (c :: charsOfOnto bs rest))
    (hpair : ∀ b : Bracket, ¬ b.chars <+: c :: charsOfOnto bs rest)
    (hnone : ∀ b : Bracket, ¬ b.chars <+: rest) :
    Blames input (book.run (.rule .paren)) (c :: charsOfOnto bs rest) .alternative
      (c :: charsOfOnto bs rest) rest := by
  -- behind the longest run no pair is read
  have hfails : Fails input (book.run (.rule .paren)) rest := by
    rcases exists_tree_or_fails_paren hsize rest with ⟨b, after, hb⟩ | hfails
    · exact absurd (Bracket.chars_isPrefix_iff.2 ⟨after, hb⟩) (hnone b)
    · exact hfails
  have hmany := readsMany_paren hsize bs hfails
  -- the bracket and the run are taken off, so less is left behind them
  have hwidth : Text.width rest < Text.width (c :: charsOfOnto bs rest) := by
    have hc := c.utf8Size_pos
    rw [Bracket.charsOfOnto_eq, Text.width_cons, Text.width_append]
    omega
  -- what stands behind the run is not the closing bracket, or there would be a pair
  have hclose (make : List Bracket → Bracket) {closing : Char}
      (hmake : ∀ after, (make bs).charsOnto after = c :: charsOfOnto bs (closing :: after)) :
      rest.head? ≠ some closing := by
    intro hhead
    obtain ⟨after, rfl⟩ := List.head?_eq_some_iff.1 hhead
    exact hpair (make bs) (Bracket.chars_isPrefix_iff.2 ⟨after, (hmake after).symm⟩)
  -- the kind that opens came to the end of the run, the other one nowhere
  rcases hopens with hround | hcurly
  · obtain rfl : c = '(' := by simpa using hround
    have hmissed : Blames input (book.run (.rule .round)) ('(' :: charsOfOnto bs rest)
        (.symbol ')') rest rest :=
      book.blames_rule .round
        (blames_enclosed_of_closing hsize hmany (hclose .round fun _ => rfl))
    have hother : Blames input (book.run (.rule .curly)) ('(' :: charsOfOnto bs rest)
        (.symbol '\x7b') ('(' :: charsOfOnto bs rest) ('(' :: charsOfOnto bs rest) :=
      blames_curly_of_head (by simp)
    have hparen := blames_paren hmissed hother hwidth.le (Nat.le_refl _)
    rwa [if_pos hwidth.le] at hparen
  · obtain rfl : c = '\x7b' := by simpa using hcurly
    have hmissed : Blames input (book.run (.rule .curly)) ('\x7b' :: charsOfOnto bs rest)
        (.symbol '\x7d') rest rest :=
      book.blames_rule .curly
        (blames_enclosed_of_closing hsize hmany (hclose .curly fun _ => rfl))
    have hother : Blames input (book.run (.rule .round)) ('\x7b' :: charsOfOnto bs rest)
        (.symbol '(') ('\x7b' :: charsOfOnto bs rest) ('\x7b' :: charsOfOnto bs rest) :=
      blames_round_of_head (by simp)
    have hparen := blames_paren hother hmissed (Nat.le_refl _) hwidth.le
    rwa [if_neg (Nat.not_le_of_lt hwidth)] at hparen

/-- Without a pair a document is missed as the pair is. -/
theorem blames_document_of_paren (h : Blames input (book.run (.rule .paren)) cs e blamed rest) :
    Blames input (book.run (.rule .document)) cs e blamed rest :=
  book.blames_rule .document (Rulebook.blames_sequence (.here h))

/-- Behind a pair nothing may follow. -/
theorem blames_document_of_rest (hsize : input.utf8ByteSize < 2 ^ 64) (b : Bracket)
    (hrest : rest ≠ []) :
    Blames input (book.run (.rule .document)) (b.charsOnto rest) .endOfInput rest rest :=
  book.blames_rule .document (Rulebook.blames_sequence
    (.later (reads_paren hsize b rest) (.here (Rulebook.blames_endOfInput hrest))))

/-! ## What is said -/

section

variable {ending : LineEnding} {s : String} {r : Rejection}
  (hr : (book.parseText ending (.rule .document) s).ending = .ok (.error (.rejected r)))

include hr

/-- Where nothing opens, the start is blamed, and the parse came nowhere. -/
theorem says_of_not_opens (hopens : ¬ Opens s.toList) : r.failure.Says .alternative 0 0 := by
  have hblames : Blames s (book.run (.rule .document)) s.toList .alternative s.toList s.toList :=
    blames_document_of_paren (blames_paren_of_not_opens hopens)
  have hall : s.toList = [] ++ s.toList := rfl
  exact Rulebook.failure_of_blames hblames hr hall hall

/-- Where a bracket opens without a pair, the start is blamed, and the parse came to the end of the
    longest run of pairs behind the bracket. -/
theorem says_of_opens (hsize : s.utf8ByteSize < 2 ^ 64) (hopens : Opens s.toList)
    (hpair : ∀ b : Bracket, ¬ b.chars <+: s.toList) :
    ∃ bs, IsLongestRun bs s.toList.tail ∧
      r.failure.Says .alternative 0 (1 + (charsOf bs).length) := by
  obtain ⟨c, tail, hs⟩ : ∃ c tail, s.toList = c :: tail := by
    rcases hopens with hhead | hhead
    · exact ⟨_, List.head?_eq_some_iff.1 hhead⟩
    · exact ⟨_, List.head?_eq_some_iff.1 hhead⟩
  obtain ⟨bs, rest, rfl, hrun⟩ := Bracket.exists_run tail
  rw [hs] at hopens hpair
  have hblames : Blames s (book.run (.rule .document)) s.toList .alternative s.toList rest := by
    rw [hs]
    exact blames_document_of_paren (blames_paren_of_opening hsize hopens hpair hrun)
  -- the first bracket and the run behind it, whose bytes are counted one by one
  have hfar : s.toList = (c :: charsOf bs) ++ rest := by
    rw [hs, Bracket.charsOfOnto_eq, List.cons_append]
  have hall : s.toList = [] ++ s.toList := rfl
  have hsaid := Rulebook.failure_of_blames hblames hr hall hfar
  -- both opening brackets are one byte
  have hc : c.utf8Size = 1 := by
    rcases hopens with hhead | hhead
    · obtain rfl : c = '(' := by simpa using hhead
      rfl
    · obtain rfl : c = '\x7b' := by simpa using hhead
      rfl
  rw [Text.width_cons, Bracket.width_charsOf, hc] at hsaid
  refine ⟨bs, ?_, hsaid⟩
  rw [hs, List.tail_cons]
  exact Bracket.isLongestRun_of_run hrun

/-- Where something follows a pair, the end of the text is missed behind the pair. -/
theorem says_of_pair (hsize : s.utf8ByteSize < 2 ^ 64) {b : Bracket} {rest : List Char}
    (hs : s.toList = b.charsOnto rest) (hrest : rest ≠ []) :
    r.failure.Says .endOfInput b.chars.length b.chars.length := by
  have hblames : Blames s (book.run (.rule .document)) s.toList .endOfInput rest rest := by
    rw [hs]
    exact blames_document_of_rest hsize b hrest
  rw [Bracket.charsOnto_eq] at hs
  have hsaid := Rulebook.failure_of_blames hblames hr hs hs
  rwa [b.width_chars] at hsaid

end

/-- A text that is not a document is rejected, and what the rejection says is exactly one of three
    things.

    - If nothing opens at its start, one of the alternatives is expected there, and the parse came
      nowhere.
    - If a bracket opens but the text does not begin with a pair, the same is expected at the start,
      and the parse came to the end of the longest run of pairs behind that bracket: not to the
      deepest bracket that is not closed.
    - If the text begins with a pair, that pair is the only one it begins with, something follows
      it, and the end of the text is expected there. -/
theorem parseText_document_rejected (ending : LineEnding) (s : String)
    (hsize : s.utf8ByteSize < 2 ^ 64)
    (h : ∀ v span, (book.parseText ending (.rule .document) s).ending ≠ .ok (.ok (v, span))) :
    ∃ r, (book.parseText ending (.rule .document) s).ending = .ok (.error (.rejected r)) ∧
      ((¬ Opens s.toList ∧ (∀ b : Bracket, ¬ b.chars <+: s.toList) ∧
          r.failure.Says .alternative 0 0) ∨
        (Opens s.toList ∧ (∀ b : Bracket, ¬ b.chars <+: s.toList) ∧
          ∃ bs, IsLongestRun bs s.toList.tail ∧
            r.failure.Says .alternative 0 (1 + (charsOf bs).length)) ∨
        ∃ b : Bracket, b.chars <+: s.toList ∧ (∀ b' : Bracket, b'.chars <+: s.toList → b' = b) ∧
          b.chars.length < s.utf8ByteSize ∧
          r.failure.Says .endOfInput b.chars.length b.chars.length) := by
  obtain ⟨hlanguage, r, hr⟩ := recognizes_document.rejected_of_not_accepted ending hsize h
  refine ⟨r, hr, ?_⟩
  -- a pair that is read leaves the end to be missed; else it is the pair that is missed
  by_cases hpair : ∃ b : Bracket, b.chars <+: s.toList
  · right
    right
    obtain ⟨b, hb⟩ := hpair
    obtain ⟨rest, hs⟩ := Bracket.chars_isPrefix_iff.1 hb
    have hsplit : s.toList = b.chars ++ rest := by rw [hs, Bracket.charsOnto_eq]
    -- a pair that is all there is would be a document
    have hrest : rest ≠ [] := by
      rintro rfl
      apply hlanguage (.made b)
      refine ⟨b, ?_, rfl⟩
      rw [Bracket.text, ← List.append_nil b.chars, ← hsplit, String.ofList_toList]
    refine ⟨b, hb, ?_, ?_, says_of_pair hr hsize hs hrest⟩
    -- two pairs that begin the text are one
    · intro b' hb'
      obtain ⟨rest', hs'⟩ := Bracket.chars_isPrefix_iff.1 hb'
      exact (Bracket.charsOnto_inj (hs'.symm.trans hs)).1
    · have hlen := Text.length_le_width rest
      have hpos := List.length_pos_of_ne_nil hrest
      rw [← Text.width_toList, hsplit, Text.width_append, b.width_chars]
      omega
  · have hnone : ∀ b : Bracket, ¬ b.chars <+: s.toList := not_exists.1 hpair
    by_cases hopens : Opens s.toList
    · exact .inr (.inl ⟨hopens, hnone, says_of_opens hr hsize hopens hnone⟩)
    · exact .inl ⟨hopens, hnone, says_of_not_opens hr hopens⟩

/-- Three brackets are not closed, but the pair behind the first one is as far as the parse came. -/
theorem parseText_document_rejected_unclosed :
    (∀ v span, (book.parseText .lf (.rule .document) "(\x7b\x7d\x7b(").ending ≠
      .ok (.ok (v, span))) ∧
    ∃ r, (book.parseText .lf (.rule .document) "(\x7b\x7d\x7b(").ending =
        .ok (.error (.rejected r)) ∧
      r.failure.Says .alternative 0 3 ∧
      ∃ bs, IsLongestRun bs ['\x7b', '\x7d', '\x7b', '('] ∧ 1 + (charsOf bs).length = 3 := by
  have hsize : "(\x7b\x7d\x7b(".utf8ByteSize < 2 ^ 64 := by decide
  -- the run is evaluated once, and the rejection is that of its failure
  have hfails : (book.runWith 10 (.rule .document) (Cursor.start "(\x7b\x7d\x7b(")).ending =
      .ok (.failed ⟨0, 3, .alternative, by decide⟩) := by cbv
  obtain ⟨r, hr, hfailure⟩ := Rulebook.parseText_of_run_failed .lf recognizes_document.check hsize
    (Rulebook.ending_run_eq_ok hfails)
  have hnot : ∀ v span, (book.parseText .lf (.rule .document) "(\x7b\x7d\x7b(").ending ≠
      .ok (.ok (v, span)) := by
    intro v span hv
    rw [hr] at hv
    cases hv
  obtain ⟨r', hr', hsaid⟩ := parseText_document_rejected .lf _ hsize hnot
  rw [hr] at hr'
  cases hr'
  refine ⟨hnot, r, hr, ?_⟩
  have hsame : r.failure.Says .alternative 0 3 := by
    rw [hfailure]
    exact ⟨rfl, rfl, rfl⟩
  -- only the second of the three cases fits what was evaluated
  rcases hsaid with ⟨hopens, -⟩ | ⟨-, -, bs, hbs, -, -, hlen⟩ | ⟨b, -, -, -, hend, -⟩
  · exact absurd (.inl (by cbv)) hopens
  · exact ⟨hsame, bs, hbs, hlen.symm.trans hsame.2.2⟩
  · rw [hsame.1] at hend
    cases hend

end BracketRule

end ParserKit.Sample
