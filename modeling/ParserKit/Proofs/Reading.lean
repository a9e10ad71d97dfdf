import ParserKit.Grammar.Entry
import ParserKit.Proofs.FuelIndependence
import ParserKit.Proofs.Locating

/-!
# Reading by characters

What a parser does with the characters that are left, whatever stands before them:
`Parser.Reads input p cs v rest` says that `p`, wherever `cs` is left of `input`, reads `v` and
leaves `rest`, and `Parser.Fails input p cs` that it fails there. Neither speaks of an offset, so a
language given on characters can be compared with a grammar by the rules of this file alone: for
each kind of node one that says when it reads and one that says when it fails. No rule mentions
fuel either, since they speak of `Rulebook.run`.

## Key results

- `sequence_reads` / `sequence_fails`: one part after the other
- `many_reads`: a repetition, up to where its item fails
- `choiceFrom_reads` / `choiceFrom_fails`: the first parser that does not fail
- `ending_unified`: a choice that forgets its tags ends like the choice of its branches
- `Rulebook.reads_sequence`, `Rulebook.fails_sequence` and their companions: the same for grammars
- `Rulebook.parseText_of_reads` / `Rulebook.parseText_of_fails`: a whole text is parsed, or
  rejected with a location
- `Rulebook.Recognizes.parseText_eq_iff`: a grammar that recognizes a language parses it
-/

namespace ParserKit

variable {α β : Type} {input : String}

/-- The span of a whole text. -/
def Span.whole (input : String) (h : input.utf8ByteSize < 2 ^ 64) : Span :=
  ⟨Offset.zero, ⟨input.utf8ByteSize, h⟩, Nat.zero_le _⟩

namespace Parser

/-- Wherever `cs` is left of `input`, `p` reads `v` and leaves `rest`. -/
def Reads (input : String) (p : Parser α) (cs : List Char) (v : α) (rest : List Char) : Prop :=
  ∀ o : Offset, Text.Before input o.val cs →
    ∃ s : Span, (p ⟨input, o⟩).ending = .ok (.done v s) ∧ s.begin = o ∧
      Text.Before input s.stop.val rest

/-- Wherever `cs` is left of `input`, `p` fails. -/
def Fails (input : String) (p : Parser α) (cs : List Char) : Prop :=
  ∀ o : Offset, Text.Before input o.val cs → ∃ f, (p ⟨input, o⟩).ending = .ok (.failed f)

variable {p q : Parser α} {cs rest : List Char} {v : α}

/-- Where something is left, a parser reads one thing only. -/
theorem Reads.unique {o : Offset} (ho : Text.Before input o.val cs) (h : Reads input p cs v rest)
    {w : α} {rest' : List Char} (h' : Reads input p cs w rest') : v = w ∧ rest = rest' := by
  obtain ⟨s, hend, -, hs⟩ := h o ho
  obtain ⟨t, hend', -, ht⟩ := h' o ho
  rw [hend] at hend'
  cases hend'
  exact ⟨rfl, hs.unique ht⟩

/-- Parsers that end alike read alike. -/
theorem Reads.of_ending (h : Reads input p cs v rest)
    (hpq : ∀ c, (q c).ending = (p c).ending) : Reads input q cs v rest := by
  intro o ho
  obtain ⟨s, hs⟩ := h o ho
  exact ⟨s, by rwa [hpq]⟩

/-- Parsers that end alike fail alike. -/
theorem Fails.of_ending (h : Fails input p cs) (hpq : ∀ c, (q c).ending = (p c).ending) :
    Fails input q cs := by
  intro o ho
  obtain ⟨f, hf⟩ := h o ho
  exact ⟨f, by rwa [hpq]⟩

/-- A conversion of the value reads the same characters. -/
theorem Reads.map (h : Reads input p cs v rest) (f : α → β) :
    Reads input (Parser.map f p) cs (f v) rest := by
  intro o ho
  obtain ⟨s, hend, hs⟩ := h o ho
  refine ⟨s, ?_, hs⟩
  rw [Parser.map, Run.mapValue, Run.ending_map, hend]
  rfl

/-- A conversion of the value fails on the same characters. -/
theorem Fails.map (h : Fails input p cs) (f : α → β) : Fails input (Parser.map f p) cs := by
  intro o ho
  obtain ⟨e, hend⟩ := h o ho
  refine ⟨e, ?_⟩
  rw [Parser.map, Run.mapValue, Run.ending_map, hend]
  rfl

/-! ## Terminals -/

/-- Reading the character that is left first ends behind it. -/
theorem reads_char (hsize : input.utf8ByteSize < 2 ^ 64) {x : Char} {o : Offset}
    (ho : Text.Before input o.val (x :: cs)) :
    ∃ s : Span, (reads x x.utf8Size ⟨input, o⟩).ending = .ok (.done x s) ∧ s.begin = o ∧
      Text.Before input s.stop.val cs := by
  -- the offset behind the character is within the text, so it is no overflow
  have hlt : o.val + x.utf8Size < 2 ^ 64 := by
    have hw := ho.add_width
    rw [Text.width_cons] at hw
    omega
  refine ⟨⟨o, ⟨o.val + x.utf8Size, hlt⟩, Nat.le_add_right _ _⟩, ?_, rfl, ho.advance⟩
  rw [reads, Span.ofLength_eq_ok hlt]
  rfl

/-- A symbol is read where it is the first character that is left. -/
theorem symbol_reads (hsize : input.utf8ByteSize < 2 ^ 64) (x : Char) :
    Reads input (symbol x) (x :: cs) x cs := by
  intro o ho
  have hpeek : Cursor.peek ⟨input, o⟩ = some x := Text.charAt?_eq_some_iff.2 ⟨cs, ho⟩
  rw [symbol, hpeek]
  simpa using reads_char hsize ho

/-- A symbol fails where another character is left first, or none. -/
theorem symbol_fails {x : Char} (h : cs.head? ≠ some x) : Fails input (symbol x) cs := by
  intro o ho
  have hpeek : Cursor.peek ⟨input, o⟩ = cs.head? := Text.charAt?_eq_head? ho
  refine ⟨Failure.expecting (.symbol x) o, ?_⟩
  rw [symbol, hpeek]
  cases cs with
  | nil => rfl
  | cons y cs =>
    have hne : y ≠ x := by simpa using h
    simp only [List.head?_cons, if_neg hne]
    rfl

/-- A character of the range is read where it is the first one that is left. -/
theorem range_reads (hsize : input.utf8ByteSize < 2 ^ 64) {lo hi x : Char}
    (h : lo ≤ x ∧ x ≤ hi) : Reads input (range lo hi) (x :: cs) x cs := by
  intro o ho
  have hpeek : Cursor.peek ⟨input, o⟩ = some x := Text.charAt?_eq_some_iff.2 ⟨cs, ho⟩
  rw [range, hpeek]
  simpa [h] using reads_char hsize ho

/-- A range fails where the first character that is left is outside of it, or none is left. -/
theorem range_fails {lo hi : Char} (h : ∀ x, cs.head? = some x → ¬ (lo ≤ x ∧ x ≤ hi)) :
    Fails input (range lo hi) cs := by
  intro o ho
  have hpeek : Cursor.peek ⟨input, o⟩ = cs.head? := Text.charAt?_eq_head? ho
  refine ⟨Failure.expecting (.range lo hi) o, ?_⟩
  rw [range, hpeek]
  cases cs with
  | nil => rfl
  | cons y cs =>
    simp only [List.head?_cons, if_neg (h y rfl)]
    rfl

/-- A word is read where what is left begins with it. -/
theorem word_reads (hsize : input.utf8ByteSize < 2 ^ 64) (w : String) :
    Reads input (word w) (w.toList ++ cs) w cs := by
  intro o ho
  have hstarts : Cursor.startsWith ⟨input, o⟩ w = true :=
    Text.startsWithAt_iff.2 (.inr ⟨cs, ho⟩)
  -- the word stands in the text, so the offset behind it is no overflow
  have hlt : o.val + w.utf8ByteSize < 2 ^ 64 := by
    have hw := ho.add_width
    rw [Text.width_append, Text.width_toList] at hw
    omega
  refine ⟨⟨o, ⟨o.val + w.utf8ByteSize, hlt⟩, Nat.le_add_right _ _⟩, ?_, rfl, ?_⟩
  · rw [word, if_pos hstarts, reads, Span.ofLength_eq_ok hlt]
    rfl
  · have hadvance := ho.advance_append
    rwa [Text.width_toList] at hadvance

/-- A word fails where what is left does not begin with it. -/
theorem word_fails {w : String} (h : ¬ w.toList <+: cs) : Fails input (word w) cs := by
  intro o ho
  -- the empty word begins everything, and any other word stands at one place in one way only
  have hstarts : ¬ Cursor.startsWith ⟨input, o⟩ w = true := by
    intro hstarts
    rcases Text.startsWithAt_iff.1 hstarts with hnil | ⟨ds, hds⟩
    · exact h (by rw [hnil]; exact List.nil_prefix)
    · exact h ⟨ds, hds.unique ho⟩
  refine ⟨Failure.expecting (.word w) o, ?_⟩
  rw [word, if_neg hstarts]
  rfl

/-- The end is read where nothing is left. -/
theorem endOfInput_reads : Reads input endOfInput [] () [] := by
  intro o ho
  -- no characters are left, so the offset is the size of the text
  have hended : Cursor.ended ⟨input, o⟩ = true := by
    have hw := ho.add_width
    simp only [Text.width_nil] at hw
    simp only [Cursor.ended, decide_eq_true_eq]
    omega
  refine ⟨Span.point o, ?_, rfl, ho⟩
  rw [endOfInput, if_pos hended]
  rfl

/-- The end is missed where something is left. -/
theorem endOfInput_fails (h : cs ≠ []) : Fails input endOfInput cs := by
  intro o ho
  -- each character that is left takes a byte, so the offset is below the size of the text
  have hended : ¬ Cursor.ended ⟨input, o⟩ = true := by
    have hw := ho.add_width
    have hlen := Text.length_le_width cs
    have hpos := List.length_pos_of_ne_nil h
    simp only [Cursor.ended, decide_eq_true_eq]
    omega
  refine ⟨Failure.expecting .endOfInput o, ?_⟩
  rw [endOfInput, if_neg hended]
  rfl

/-! ## Sequences -/

/-- The parsers read `vs` one after the other, each from what the one before left. -/
inductive ReadsEach (input : String) :
    List (Parser α) → List Char → List α → List Char → Prop
  | nil (cs : List Char) : ReadsEach input [] cs [] cs
  | cons {p : Parser α} {ps : List (Parser α)} {cs mid rest : List Char} {v : α} {vs : List α} :
      Reads input p cs v mid → ReadsEach input ps mid vs rest →
      ReadsEach input (p :: ps) cs (v :: vs) rest

/-- A sequence that began before goes on to where its parts lead. -/
theorem sequenceFrom_reads {ps : List (Parser α)} {vs : List α}
    (h : ReadsEach input ps cs vs rest) {start o : Offset} (hstart : start.val ≤ o.val)
    (ho : Text.Before input o.val cs) :
    ∃ s : Span, (sequenceFrom start ps ⟨input, o⟩).ending = .ok (.done vs s) ∧
      s.begin = start ∧ Text.Before input s.stop.val rest := by
  -- the start of the span stays, the offset goes on from part to part
  induction h generalizing o with
  | nil cs =>
    refine ⟨⟨start, o, hstart⟩, ?_, rfl, ho⟩
    rw [sequenceFrom, Span.between, dif_pos hstart]
    rfl
  | cons hp _ ih =>
    obtain ⟨s, hend, rfl, hs⟩ := hp o ho
    obtain ⟨t, hend', ht⟩ := ih (Nat.le_trans hstart s.begin_le_stop) hs
    refine ⟨t, ?_, ht⟩
    rw [sequenceFrom, Run.ending_andThen, hend]
    simp only [Except.bind, Run.mapValue, Run.ending_map, Cursor.moveTo, hend']
    rfl

/-- A sequence reads what its parts read one after the other. -/
theorem sequence_reads {ps : List (Parser α)} {vs : List α}
    (h : ReadsEach input ps cs vs rest) : Reads input (sequence ps) cs vs rest :=
  fun _ ho => sequenceFrom_reads h (Nat.le_refl _) ho

/-- The parsers read one after the other until one of them fails. -/
inductive FailsSome (input : String) : List (Parser α) → List Char → Prop
  | here {p : Parser α} {ps : List (Parser α)} {cs : List Char} :
      Fails input p cs → FailsSome input (p :: ps) cs
  | later {p : Parser α} {ps : List (Parser α)} {cs mid : List Char} {v : α} :
      Reads input p cs v mid → FailsSome input ps mid → FailsSome input (p :: ps) cs

/-- A sequence that began anywhere fails at the first part that does. -/
theorem sequenceFrom_fails {ps : List (Parser α)} (h : FailsSome input ps cs) (start : Offset)
    {o : Offset} (ho : Text.Before input o.val cs) :
    ∃ f, (sequenceFrom start ps ⟨input, o⟩).ending = .ok (.failed f) := by
  induction h generalizing o with
  | here hp =>
    obtain ⟨f, hend⟩ := hp o ho
    refine ⟨f, ?_⟩
    rw [sequenceFrom, Run.ending_andThen, hend]
    rfl
  | later hp _ ih =>
    obtain ⟨s, hend, -, hs⟩ := hp o ho
    obtain ⟨f, hend'⟩ := ih hs
    refine ⟨f, ?_⟩
    rw [sequenceFrom, Run.ending_andThen, hend]
    simp only [Except.bind, Run.mapValue, Run.ending_map, Cursor.moveTo, hend']
    rfl

/-- A sequence fails if its parts read one after the other until one of them fails. -/
theorem sequence_fails {ps : List (Parser α)} (h : FailsSome input ps cs) :
    Fails input (sequence ps) cs := fun o ho => sequenceFrom_fails h o ho

/-! ## Repetitions -/

/-- `p` reads `vs` again and again, each time with fewer bytes left, until it fails. -/
inductive ReadsMany (input : String) (p : Parser α) : List Char → List α → List Char → Prop
  | stop {cs : List Char} : Fails input p cs → ReadsMany input p cs [] cs
  | next {cs mid rest : List Char} {v : α} {vs : List α} :
      Reads input p cs v mid → Text.width mid < Text.width cs →
      ReadsMany input p mid vs rest → ReadsMany input p cs (v :: vs) rest

/-- A repetition that began before goes on to where its item fails. -/
theorem manyFrom_reads {vs : List α} (h : ReadsMany input p cs vs rest) {start o : Offset}
    (hstart : start.val ≤ o.val) (ho : Text.Before input o.val cs) :
    ∃ s : Span, (manyFrom p start ⟨input, o⟩).ending = .ok (.done vs s) ∧
      s.begin = start ∧ Text.Before input s.stop.val rest := by
  -- the start of the span stays, the offset goes on from round to round
  induction h generalizing o with
  | stop hp =>
    obtain ⟨f, hend⟩ := hp o ho
    refine ⟨⟨start, o, hstart⟩, ?_, rfl, ho⟩
    rw [manyFrom, Run.ending_andThen, hend]
    simp only [Except.bind, Span.between, dif_pos hstart]
    rfl
  | next hp hless _ ih =>
    obtain ⟨s, hend, rfl, hs⟩ := hp o ho
    -- with fewer bytes left, the cursor has moved on
    have hmoved : s.begin.val < s.stop.val := by
      have hw := ho.add_width
      have hw' := hs.add_width
      omega
    obtain ⟨t, hend', ht⟩ := ih (Nat.le_trans hstart s.begin_le_stop) hs
    refine ⟨t, ?_, ht⟩
    rw [manyFrom, Run.ending_andThen, hend]
    simp only [Except.bind, if_pos hmoved, Run.mapValue, Run.ending_map, Cursor.moveTo, hend']
    rfl

/-- A repetition reads what its item reads again and again, up to where it fails. -/
theorem many_reads {vs : List α} (h : ReadsMany input p cs vs rest) :
    Reads input (many p) cs vs rest :=
  fun _ ho => manyFrom_reads h (Nat.le_refl _) ho

/-! ## Choices -/

/-- The parsers fail one after the other until one of them reads `v`. -/
inductive ReadsFirst (input : String) : List (Parser α) → List Char → α → List Char → Prop
  | here {p : Parser α} {ps : List (Parser α)} {cs rest : List Char} {v : α} :
      Reads input p cs v rest → ReadsFirst input (p :: ps) cs v rest
  | later {p : Parser α} {ps : List (Parser α)} {cs rest : List Char} {v : α} :
      Fails input p cs → ReadsFirst input ps cs v rest → ReadsFirst input (p :: ps) cs v rest

/-- A choice reads what the first of its parsers reads that does not fail. -/
theorem choiceFrom_reads {ps : List (Parser α)} {o : Offset} (furthest : Offset)
    (h : ReadsFirst input ps cs v rest) (ho : Text.Before input o.val cs) :
    ∃ s : Span, (choiceFrom ⟨input, o⟩ furthest ps).ending = .ok (.done v s) ∧ s.begin = o ∧
      Text.Before input s.stop.val rest := by
  -- each branch is tried at `o`; a failure changes only how far the choice came
  induction h generalizing furthest with
  | here hp =>
    obtain ⟨s, hend, hs⟩ := hp o ho
    refine ⟨s, ?_, hs⟩
    rw [choiceFrom, Run.ending_andThen, hend]
    rfl
  | later hp _ ih =>
    obtain ⟨f, hend⟩ := hp o ho
    obtain ⟨s, hend', hs⟩ := ih (Offset.max furthest f.furthest) ho
    refine ⟨s, ?_, hs⟩
    rw [choiceFrom, Run.ending_andThen, hend]
    exact hend'

/-- A choice fails at a cursor at which all of its parsers do. -/
theorem exists_choiceFrom_failed {ps : List (Parser α)} {c : Cursor}
    (h : ∀ q ∈ ps, ∃ e, (q c).ending = .ok (.failed e)) (furthest : Offset) :
    ∃ f, (choiceFrom c furthest ps).ending = .ok (.failed f) := by
  induction ps generalizing furthest with
  | nil => exact ⟨_, rfl⟩
  | cons q ps ih =>
    obtain ⟨e, hend⟩ := h q List.mem_cons_self
    rw [choiceFrom, Run.ending_andThen, hend]
    exact ih (fun q hq => h q (List.mem_cons_of_mem _ hq)) _

/-- A choice fails where all of its parsers do. -/
theorem choiceFrom_fails {ps : List (Parser α)} {o : Offset} (furthest : Offset)
    (h : ∀ q ∈ ps, Fails input q cs) (ho : Text.Before input o.val cs) :
    ∃ f, (choiceFrom ⟨input, o⟩ furthest ps).ending = .ok (.failed f) :=
  exists_choiceFrom_failed (fun q hq => h q hq o ho) furthest

/-- A tagged choice that forgets its tags ends as the choice of its branches does. -/
theorem ending_taggedFrom (alternatives : List (String × Parser α)) (c : Cursor)
    (furthest : Offset) :
    ((taggedFrom c furthest alternatives).mapValue fun w => w.storage.payload).ending =
      (choiceFrom c furthest (alternatives.map (·.2))).ending := by
  induction alternatives generalizing furthest with
  | nil => rfl
  | cons alternative alternatives ih =>
    obtain ⟨t, p⟩ := alternative
    simp only [taggedFrom, List.map_cons, choiceFrom, Run.mapValue, Run.ending_map,
      Run.ending_andThen]
    -- a stop and a match are the same on both sides
    cases (p c).ending with
    | error stop => rfl
    | ok r =>
      cases r with
      | done v s => rfl
      | failed f =>
        -- putting one more alternative before the others does not touch the value
        simp only [Except.bind]
        rw [← ih]
        simp only [Run.mapValue, Run.ending_map]
        cases (taggedFrom c (Offset.max furthest f.furthest) alternatives).ending with
        | error stop => rfl
        | ok r => cases r <;> rfl

/-- The choice of a grammar that forgets its tags ends as the choice of its branches does. -/
theorem ending_unified {κ : Type} {types : List String} {ps : List (Parser (Value κ))}
    (hlen : types.length = ps.length) (c : Cursor) :
    (Parser.map (Grammar.formValue .unified) (tagged (types.zip ps)) c).ending =
      (choiceFrom c c.offset ps).ending := by
  have hps : (types.zip ps).map (·.2) = ps := List.map_snd_zip (Nat.le_of_eq hlen.symm)
  -- to forget the tags is to take the value out, whatever the alternative
  have hform : Grammar.formValue (κ := κ) .unified = fun w => w.storage.payload := by
    funext w
    exact w.unify_eq_payload
  rw [hform, ← hps, Parser.map, tagged, hps]
  exact (ending_taggedFrom _ c c.offset).trans (by rw [hps])

/-! ## Names -/

/-- A name changes only the value, by the action. -/
theorem Reads.named (h : Reads input p cs v rest) (name : String) (action : α → β) :
    Reads input (Parser.named name action p) cs (action v) rest := by
  intro o ho
  obtain ⟨s, hend, hs⟩ := h o ho
  refine ⟨s, ?_, hs⟩
  rw [Parser.named, Run.ending_after, Run.ending_andThen, hend]
  rfl

/-- What is named fails on the same characters. -/
theorem Fails.named (h : Fails input p cs) (name : String) (action : α → β) :
    Fails input (Parser.named name action p) cs := by
  intro o ho
  obtain ⟨f, hend⟩ := h o ho
  refine ⟨f, ?_⟩
  rw [Parser.named, Run.ending_after, Run.ending_andThen, hend]
  rfl

end Parser

/-! ## Grammars -/

namespace Rulebook

open ParserKit.Parser (Reads Fails ReadsEach FailsSome ReadsMany ReadsFirst)

variable {ι κ : Type} {book : Rulebook ι κ} {cs rest : List Char} {v : Value κ}

/-- The rules for terminals again, for the nodes of a grammar: their values are kept as they are
    read. -/
theorem reads_endOfInput : Reads input (book.run .endOfInput) [] .eof [] :=
  Parser.endOfInput_reads.map fun _ => Value.eof

theorem fails_endOfInput (h : cs ≠ []) : Fails input (book.run .endOfInput) cs :=
  (Parser.endOfInput_fails h).map fun _ => Value.eof

theorem reads_symbol (hsize : input.utf8ByteSize < 2 ^ 64) (x : Char) :
    Reads input (book.run (.symbol x)) (x :: cs) (.char x) cs :=
  (Parser.symbol_reads hsize x).map Value.char

theorem fails_symbol {x : Char} (h : cs.head? ≠ some x) :
    Fails input (book.run (.symbol x)) cs := (Parser.symbol_fails h).map Value.char

theorem reads_range (hsize : input.utf8ByteSize < 2 ^ 64) {lo hi x : Char}
    (h : lo ≤ x ∧ x ≤ hi) : Reads input (book.run (.range lo hi)) (x :: cs) (.char x) cs :=
  (Parser.range_reads hsize h).map Value.char

theorem fails_range {lo hi : Char} (h : ∀ x, cs.head? = some x → ¬ (lo ≤ x ∧ x ≤ hi)) :
    Fails input (book.run (.range lo hi)) cs := (Parser.range_fails h).map Value.char

/-- A sequence of grammars reads what its items read one after the other. -/
theorem reads_sequence {items : List (Grammar ι κ)} {vs : List (Value κ)}
    (h : ReadsEach input (items.map book.run) cs vs rest) :
    Reads input (book.run (.sequence items)) cs (.seq vs) rest := by
  rw [run_sequence]
  exact (Parser.sequence_reads h).map Value.seq

/-- A sequence of grammars fails if its items read one after the other until one of them fails. -/
theorem fails_sequence {items : List (Grammar ι κ)}
    (h : FailsSome input (items.map book.run) cs) :
    Fails input (book.run (.sequence items)) cs := by
  rw [run_sequence]
  exact (Parser.sequence_fails h).map Value.seq

/-- A repetition of a grammar reads up to where its item fails. -/
theorem reads_many {item : Grammar ι κ} {vs : List (Value κ)}
    (h : ReadsMany input (book.run item) cs vs rest) :
    Reads input (book.run (.many item)) cs (.many vs) rest := by
  rw [run_many]
  exact (Parser.many_reads h).map Value.many

/-- A choice that forgets its tags reads what the first branch reads that does not fail. -/
theorem reads_unified {types : List String} {branches : List (Grammar ι κ)}
    (hlen : types.length = branches.length)
    (h : ReadsFirst input (branches.map book.run) cs v rest) :
    Reads input (book.run (.oneOf .unified types branches)) cs v rest := by
  intro o ho
  rw [run_oneOf, Parser.ending_unified (by simpa using hlen)]
  exact Parser.choiceFrom_reads o h ho

/-- A choice that forgets its tags fails where all of its branches do. -/
theorem fails_unified {types : List String} {branches : List (Grammar ι κ)}
    (hlen : types.length = branches.length)
    (h : ∀ g ∈ branches, Fails input (book.run g) cs) :
    Fails input (book.run (.oneOf .unified types branches)) cs := by
  intro o ho
  rw [run_oneOf, Parser.ending_unified (by simpa using hlen)]
  exact Parser.choiceFrom_fails o (by simpa using h) ho

/-- A rule reads what its body reads, and makes its value of it. -/
theorem reads_rule (book : Rulebook ι κ) (i : ι)
    (h : Reads input (book.run (book.rule i).body) cs v rest) :
    Reads input (book.run (.rule i)) cs ((book.rule i).action v) rest :=
  (h.named (book.rule i).name (book.rule i).action).of_ending (ending_run_rule i)

/-- A rule fails where its body does. -/
theorem fails_rule (book : Rulebook ι κ) (i : ι)
    (h : Fails input (book.run (book.rule i).body) cs) :
    Fails input (book.run (.rule i)) cs :=
  (h.named (book.rule i).name (book.rule i).action).of_ending (ending_run_rule i)

/-! ## Whole texts -/

section

variable {g : Grammar ι κ}

/-- With a well-formed grammar, a text is parsed by a run from its start. -/
private theorem ending_parse (hcheck : (book.check Visited.empty g).ending = .ok ()) (c : Cursor) :
    (book.parse g c).ending = (book.run g c).ending.map .ok := by
  rw [parse, Run.ending_andThen, validated, hcheck]
  simp only [Except.bind, Run.ending_andThen, Run.ending_after, Run.ending_answer]
  cases (book.run g c).ending <;> rfl

/-- A text that is read to its end is parsed, with the span that covers all of it. -/
theorem parseText_of_reads (ending : LineEnding)
    (hcheck : (book.check Visited.empty g).ending = .ok ())
    (hsize : input.utf8ByteSize < 2 ^ 64) (h : Reads input (book.run g) input.toList v []) :
    (book.parseText ending g input).ending = .ok (.ok (v, Span.whole input hsize)) := by
  obtain ⟨s, hend, hbegin, hstop⟩ := h Offset.zero (Text.before_zero input)
  -- the span begins at 0 and ends where nothing is left, which fixes it
  have hspan : s = Span.whole input hsize := by
    have hw := hstop.add_width
    rw [Text.width_nil, Nat.add_zero] at hw
    obtain ⟨begin, stop, hle⟩ := s
    obtain rfl : begin = Offset.zero := hbegin
    obtain rfl : stop = ⟨input.utf8ByteSize, hsize⟩ := Fin.ext hw
    rfl
  rw [parseText, Run.ending_andThen, ending_parse hcheck, Cursor.start, hend, hspan]
  rfl

/-- A whole parse comes to an outcome if the grammar is well formed and its run comes to it. -/
theorem parse_eq_ok_iff {c : Cursor} {o : Outcome (Value κ)} :
    (book.parse g c).ending = .ok (.ok o) ↔
      (book.check Visited.empty g).ending = .ok () ∧ (book.run g c).ending = .ok o := by
  cases hcheck : (book.check Visited.empty g).ending with
  | error flaw =>
    rw [parse, Run.ending_andThen, validated, hcheck]
    simp [Except.bind]
  | ok =>
    rw [ending_parse hcheck]
    cases (book.run g c).ending <;> simp [Except.map]

/-- A text is rejected where its parse fails, and the failure is located. -/
theorem parseText_eq_rejected_iff {ending : LineEnding} {r : Rejection} :
    (book.parseText ending g input).ending = .ok (.error (.rejected r)) ↔
      (book.parse g (Cursor.start input)).ending = .ok (.ok (.failed r.failure)) ∧
        Rejection.locate ending input r.failure = .ok r := by
  rw [parseText, Run.andThen_eq_ok]
  constructor
  -- a flaw of the grammar and a match are answered otherwise
  · rintro ⟨flaw | v | f, hparse, hanswer⟩
    · cases hanswer
    · cases hanswer
    · dsimp only at hanswer
      cases hlocate : Rejection.locate ending input f with
      | error fault =>
        rw [hlocate] at hanswer
        cases hanswer
      | ok r' =>
        rw [hlocate] at hanswer
        cases hanswer
        -- a located rejection keeps the failure it was made of
        obtain rfl := (Rejection.locate_eq_ok_iff.1 hlocate).1
        exact ⟨hparse, hlocate⟩
  · rintro ⟨hparse, hlocate⟩
    refine ⟨_, hparse, ?_⟩
    dsimp only
    rw [hlocate]
    rfl

/-- A failure of a run from the start of a text is located, and the text is rejected with it. -/
theorem parseText_of_run_failed (ending : LineEnding)
    (hcheck : (book.check Visited.empty g).ending = .ok ())
    (hsize : input.utf8ByteSize < 2 ^ 64) {f : Failure}
    (hf : (book.run g (Cursor.start input)).ending = .ok (.failed f)) :
    ∃ r, (book.parseText ending g input).ending = .ok (.error (.rejected r)) ∧ r.failure = f := by
  obtain ⟨r, hr, rfl⟩ := Rejection.locate_eq_ok ending hsize f
  exact ⟨r, parseText_eq_rejected_iff.2 ⟨parse_eq_ok_iff.2 ⟨hcheck, hf⟩, hr⟩, rfl⟩

/-- A text at which the grammar fails is rejected. -/
theorem parseText_of_fails (ending : LineEnding)
    (hcheck : (book.check Visited.empty g).ending = .ok ())
    (hsize : input.utf8ByteSize < 2 ^ 64) (h : Fails input (book.run g) input.toList) :
    ∃ r, (book.parseText ending g input).ending = .ok (.error (.rejected r)) := by
  obtain ⟨f, hend⟩ := h Offset.zero (Text.before_zero input)
  obtain ⟨r, hr, -⟩ := parseText_of_run_failed ending hcheck hsize hend
  exact ⟨r, hr⟩

end

/-- `g` is well formed, reads every text that `L` gives a value as that value, up to its end, and
    fails at every other text. Texts are of sizes that offsets can hold. -/
structure Recognizes (book : Rulebook ι κ) (g : Grammar ι κ) (L : String → Value κ → Prop) :
    Prop where
  check : (book.check Visited.empty g).ending = .ok ()
  reads {input : String} {v : Value κ} : input.utf8ByteSize < 2 ^ 64 → L input v →
    Reads input (book.run g) input.toList v []
  fails {input : String} : input.utf8ByteSize < 2 ^ 64 → (∀ v, ¬ L input v) →
    Fails input (book.run g) input.toList

namespace Recognizes

variable {g : Grammar ι κ} {L : String → Value κ → Prop}

/-- A text that has no value is rejected. -/
theorem exists_rejection (h : book.Recognizes g L) (ending : LineEnding)
    (hsize : input.utf8ByteSize < 2 ^ 64) (hnone : ∀ v, ¬ L input v) :
    ∃ r, (book.parseText ending g input).ending = .ok (.error (.rejected r)) :=
  parseText_of_fails ending h.check hsize (h.fails hsize hnone)

/-- A text is parsed to its value and nothing else, and all of it. -/
theorem parseText_eq_iff (h : book.Recognizes g L) (ending : LineEnding)
    (hsize : input.utf8ByteSize < 2 ^ 64) {span : Span} :
    (book.parseText ending g input).ending = .ok (.ok (v, span)) ↔
      L input v ∧ span = Span.whole input hsize := by
  constructor
  · intro hv
    -- a text is read as what it is, or it is rejected; so the parse is of no other value
    by_cases hsome : ∃ w, L input w
    · obtain ⟨w, hw⟩ := hsome
      rw [parseText_of_reads ending h.check hsize (h.reads hsize hw)] at hv
      cases hv
      exact ⟨hw, rfl⟩
    · obtain ⟨r, hr⟩ := h.exists_rejection ending hsize (not_exists.1 hsome)
      rw [hr] at hv
      cases hv
  · rintro ⟨hv, rfl⟩
    exact parseText_of_reads ending h.check hsize (h.reads hsize hv)

/-- A text that is not accepted has no value, and it is rejected. -/
theorem rejected_of_not_accepted (h : book.Recognizes g L) (ending : LineEnding)
    (hsize : input.utf8ByteSize < 2 ^ 64)
    (hnot : ∀ v span, (book.parseText ending g input).ending ≠ .ok (.ok (v, span))) :
    (∀ v, ¬ L input v) ∧
      ∃ r, (book.parseText ending g input).ending = .ok (.error (.rejected r)) := by
  have hnone : ∀ v, ¬ L input v := by
    intro v hv
    apply hnot v (Span.whole input hsize)
    exact (h.parseText_eq_iff ending hsize).2 ⟨hv, rfl⟩
  exact ⟨hnone, h.exists_rejection ending hsize hnone⟩

end Recognizes

end Rulebook

end ParserKit
