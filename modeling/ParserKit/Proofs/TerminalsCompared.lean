import ParserKit.Proofs.OrderedChoice
import ParserKit.Proofs.TextBytes

/-!
# Terminals compared

A character can be asked for by itself, as a range that holds nothing else, and as a word; a word
can be asked for at once, in two parts, and character by character. In all these ways the same is
read: each of the parsers reads certain characters where they stand, in as many bytes as they take,
and fails elsewhere (`Parser.Spells`), and there is only one way to do that. Nothing is asked of the
offset, which may be inside a character or past the end.

Where nothing certain is asked for, a cursor is in one of three places: at the end or past it,
before a character, or inside one.

## Key results

- `symbol_eq_ite` / `range_self_eq_ite`: a character is read where it stands as a word
- `word_spells` / `sequence_spells`: words and what is put together from them
- `Spells.sameSpan`: parsers that spell the same characters cannot be told apart
- `word_append_sameSpan` / `word_symbols_sameSpan`: a word, its parts and its characters
- `endOfInput_succeeds_iff` / `range_all_succeeds_iff`: the end, and any character at all

That the terminals agree is stated last.
-/

namespace ParserKit.Parser

variable {α β : Type} {input : String} {o : Offset} {c : Cursor}

/-! ## Characters as words -/

/-- A word of one character stands at the cursor if the character there is this one. -/
private theorem startsWith_singleton (c : Cursor) (x : Char) :
    c.startsWith (String.singleton x) = true ↔ c.peek = some x := by
  rw [Cursor.startsWith, String.toList_singleton]
  simp only [Cursor.startsWithAt, Bool.and_true, beq_iff_eq]
  rfl

/-- A symbol is read where the word of it stands, in as many bytes. -/
theorem symbol_eq_ite (x : Char) (c : Cursor) :
    symbol x c =
      if c.startsWith (String.singleton x) then reads x (String.singleton x).utf8ByteSize c
      else expected (.symbol x) c := by
  simp only [startsWith_singleton, symbol, String.utf8ByteSize_singleton]
  -- no character, this one, or another one
  cases c.peek with
  | none => simp
  | some y =>
    by_cases hy : y = x
    · subst hy
      simp
    · simp [hy]

/-- A range from a character to itself holds this character only. -/
theorem range_self_eq_ite (x : Char) (c : Cursor) :
    range x x c =
      if c.startsWith (String.singleton x) then reads x (String.singleton x).utf8ByteSize c
      else expected (.range x x) c := by
  have hself (y : Char) : (x ≤ y ∧ y ≤ x) ↔ y = x := by
    constructor
    · rintro ⟨hle, hge⟩
      exact Char.le_antisymm hge hle
    · rintro rfl
      exact ⟨Char.le_refl y, Char.le_refl y⟩
  simp only [startsWith_singleton, range, hself, String.utf8ByteSize_singleton]
  -- from here on the range is the symbol
  cases c.peek with
  | none => simp
  | some y =>
    by_cases hy : y = x
    · subst hy
      simp
    · simp [hy]

/-- Where a word stands, its bytes end at an offset, whatever value is read from them. -/
private theorem exists_span_of_startsWith (hsize : input.utf8ByteSize < 2 ^ 64) {w : String}
    (h : Cursor.startsWith ⟨input, o⟩ w = true) :
    ∃ s : Span, s.begin = o ∧ s.stop.val = o.val + Text.width w.toList ∧
      ∀ {α : Type} (v : α), (reads v w.utf8ByteSize ⟨input, o⟩).ending = .ok (.done v s) := by
  have hlt := Text.add_size_lt_of_startsWithAt hsize h
  refine ⟨⟨o, ⟨o.val + w.utf8ByteSize, hlt⟩, Nat.le_add_right _ _⟩, rfl, ?_, ?_⟩
  · rw [Text.width_toList]
  · intro α v
    rw [reads, Span.ofLength_eq_ok hlt]
    rfl

/-! ## Spelling -/

/-- At the cursor the parser reads the characters `ws` if they stand there, in as many bytes as they
    take, and else fails. Its span begins at `start`. -/
structure SpellsFrom (start : Offset) (p : Parser α) (ws : List Char) (c : Cursor) : Prop where
  reads : Cursor.startsWithAt c.input c.offset.val ws = true →
    ∃ v s, (p c).ending = .ok (.done v s) ∧ s.begin = start ∧
      s.stop.val = c.offset.val + Text.width ws
  fails : ¬ Cursor.startsWithAt c.input c.offset.val ws = true →
    ∃ f, (p c).ending = .ok (.failed f)

/-- The parser reads the characters `ws` where they stand. -/
abbrev Spells (p : Parser α) (ws : List Char) (c : Cursor) : Prop := SpellsFrom c.offset p ws c

/-- A terminal that looks for a word spells it. -/
private theorem spells_of_eq_ite (hsize : input.utf8ByteSize < 2 ^ 64) {p : Parser α} {v : α}
    {w : String} {e : Expectation}
    (h : p ⟨input, o⟩ = if Cursor.startsWith ⟨input, o⟩ w then
      Parser.reads v w.utf8ByteSize ⟨input, o⟩ else expected e ⟨input, o⟩) :
    Spells p w.toList ⟨input, o⟩ where
  reads hstarts := by
    obtain ⟨s, hbegin, hstop, hreads⟩ := exists_span_of_startsWith hsize hstarts
    refine ⟨v, s, ?_, hbegin, hstop⟩
    rw [h, Cursor.startsWith, if_pos hstarts]
    exact hreads v
  fails hstarts := by
    refine ⟨Failure.expecting e o, ?_⟩
    rw [h, Cursor.startsWith, if_neg hstarts]
    rfl

/-- A word spells its characters. -/
theorem word_spells (hsize : input.utf8ByteSize < 2 ^ 64) (w : String) (o : Offset) :
    Spells (word w) w.toList ⟨input, o⟩ := spells_of_eq_ite hsize rfl

/-- A symbol spells itself. -/
theorem symbol_spells (hsize : input.utf8ByteSize < 2 ^ 64) (x : Char) (o : Offset) :
    Spells (symbol x) [x] ⟨input, o⟩ := by
  have hspells := spells_of_eq_ite hsize (symbol_eq_ite x ⟨input, o⟩)
  rwa [String.toList_singleton] at hspells

/-- Two words, one after the other, stand at an offset if the first stands there and the second
    behind it. -/
theorem startsWithAt_words (s : String) (o : Nat) (v w : List Char) :
    Cursor.startsWithAt s o (v ++ w) =
      (Cursor.startsWithAt s o v && Cursor.startsWithAt s (o + Text.width v) w) := by
  -- the walk over the first word leaves off where the second one is asked for
  induction v generalizing o with
  | nil => simp [Cursor.startsWithAt]
  | cons x v ih =>
    simp only [List.cons_append, Cursor.startsWithAt, ih, Text.width_cons, Bool.and_assoc,
      Nat.add_assoc]

/-- A part of a sequence comes before the others, which go on where its characters end. -/
theorem sequenceFrom_cons_spells {start : Offset} {p : Parser α} {ps : List (Parser α)}
    {ws vs : List Char} (hp : Spells p ws ⟨input, o⟩) (hstart : start.val ≤ o.val)
    (hps : ∀ q : Offset, start.val ≤ q.val →
      SpellsFrom start (sequenceFrom start ps) vs ⟨input, q⟩) :
    SpellsFrom start (sequenceFrom start (p :: ps)) (ws ++ vs) ⟨input, o⟩ := by
  by_cases hhead : Cursor.startsWithAt input o.val ws = true
  · obtain ⟨v, s, hv, -, hstop⟩ := hp.reads hhead
    have hstop' : s.stop.val = o.val + Text.width ws := hstop
    have hstep : (sequenceFrom start (p :: ps) ⟨input, o⟩).ending =
        ((sequenceFrom start ps ⟨input, s.stop⟩).mapValue (v :: ·)).ending := by
      rw [sequenceFrom, Run.ending_andThen, hv]
      rfl
    have hrest := hps s.stop (by omega)
    -- behind the first word, the others are asked for
    have hboth : Cursor.startsWithAt input o.val (ws ++ vs) =
        Cursor.startsWithAt input s.stop.val vs := by
      rw [startsWithAt_words, hhead, Bool.true_and, hstop']
    constructor
    · intro h
      obtain ⟨us, t, hus, hbegin, htstop⟩ := hrest.reads (hboth.symm.trans h)
      refine ⟨v :: us, t, ?_, hbegin, ?_⟩
      · rw [hstep]
        exact Run.mapValue_eq_done.2 ⟨us, hus, rfl⟩
      · show t.stop.val = o.val + Text.width (ws ++ vs)
        have htstop' : t.stop.val = s.stop.val + Text.width vs := htstop
        rw [Text.width_append]
        omega
    · intro h
      obtain ⟨f, hf⟩ := hrest.fails fun hvs => h (hboth.trans hvs)
      refine ⟨f, ?_⟩
      rw [hstep]
      exact Run.mapValue_eq_failed.2 hf
  -- where the first word does not stand, the whole does not stand either
  · obtain ⟨f, hf⟩ := hp.fails hhead
    constructor
    · intro h
      rw [startsWithAt_words, Bool.and_eq_true] at h
      exact absurd h.1 hhead
    · intro _
      refine ⟨f, ?_⟩
      rw [sequenceFrom, Run.ending_andThen, hf]
      rfl

/-- A sequence that began before goes on by what its parts spell. -/
theorem sequenceFrom_spells {ps : List (Parser α)} {wss : List (List Char)}
    (h : List.Forall₂ (fun p ws => ∀ o, Spells p ws ⟨input, o⟩) ps wss) {start : Offset}
    (hstart : start.val ≤ o.val) :
    SpellsFrom start (sequenceFrom start ps) wss.flatten ⟨input, o⟩ := by
  -- the sequence is built part by part; without parts nothing is read
  induction h generalizing o with
  | nil =>
    constructor
    · intro _
      refine ⟨[], ⟨start, o, hstart⟩, ?_, rfl, ?_⟩
      · rw [sequenceFrom, Span.between, dif_pos hstart]
        rfl
      · simp
    · intro h
      exact absurd rfl h
  | cons hp _ ih => exact sequenceFrom_cons_spells (hp _) hstart fun _ hq => ih hq

/-- A sequence spells what its parts spell, one after the other. -/
theorem sequence_spells {ps : List (Parser α)} {wss : List (List Char)}
    (h : List.Forall₂ (fun p ws => ∀ o, Spells p ws ⟨input, o⟩) ps wss) (o : Offset) :
    Spells (sequence ps) wss.flatten ⟨input, o⟩ where
  reads := (sequenceFrom_spells h (Nat.le_refl o.val)).reads
  fails := (sequenceFrom_spells h (Nat.le_refl o.val)).fails

/-- At the cursor both parsers succeed, with the same span, or both fail. -/
def SameSpan (p : Parser α) (q : Parser β) (c : Cursor) : Prop :=
  (∃ v w s, (p c).ending = .ok (.done v s) ∧ (q c).ending = .ok (.done w s)) ∨
    ∃ e f, (p c).ending = .ok (.failed e) ∧ (q c).ending = .ok (.failed f)

/-- Parsers that spell the same characters read them from the same span. -/
theorem Spells.sameSpan {p : Parser α} {q : Parser β} {ws : List Char} (hp : Spells p ws c)
    (hq : Spells q ws c) : SameSpan p q c := by
  by_cases h : Cursor.startsWithAt c.input c.offset.val ws = true
  · obtain ⟨v, s, hv, hbegin, hstop⟩ := hp.reads h
    obtain ⟨w, t, hw, hbegin', hstop'⟩ := hq.reads h
    -- both spans begin at the cursor, and end as many bytes further as the characters take
    have hst : s = t := by
      obtain ⟨b, e, hbe⟩ := s
      obtain ⟨b', e', hbe'⟩ := t
      obtain rfl : b = b' := hbegin.trans hbegin'.symm
      obtain rfl : e = e' := Fin.ext (hstop.trans hstop'.symm)
      rfl
    exact .inl ⟨v, w, s, hv, hst ▸ hw⟩
  · obtain ⟨e, he⟩ := hp.fails h
    obtain ⟨f, hf⟩ := hq.fails h
    exact .inr ⟨e, f, he, hf⟩

/-- A parser that spells some characters succeeds where they stand and nowhere else. -/
theorem Spells.succeedsAt_iff {p : Parser α} {ws : List Char} (hp : Spells p ws c) :
    SucceedsAt p c ↔ Cursor.startsWithAt c.input c.offset.val ws = true := by
  constructor
  · rintro ⟨v, s, hv⟩
    by_contra h
    obtain ⟨f, hf⟩ := hp.fails h
    rw [hv] at hf
    cases hf
  · intro h
    obtain ⟨v, s, hv, -, -⟩ := hp.reads h
    exact ⟨v, s, hv⟩

/-- A word reads what its two parts read one after the other. -/
theorem word_append_sameSpan (hsize : input.utf8ByteSize < 2 ^ 64) (a b : String) (o : Offset) :
    SameSpan (word (a ++ b)) (sequence [word a, word b]) ⟨input, o⟩ := by
  have hparts : List.Forall₂ (fun p ws => ∀ o, Spells p ws ⟨input, o⟩) [word a, word b]
      [a.toList, b.toList] :=
    .cons (word_spells hsize a) (.cons (word_spells hsize b) .nil)
  have hflatten : [a.toList, b.toList].flatten = (a ++ b).toList := by simp
  have hspells := sequence_spells hparts o
  rw [hflatten] at hspells
  exact (word_spells hsize (a ++ b) o).sameSpan hspells

/-- A word reads what its characters read one after the other. -/
theorem word_symbols_sameSpan (hsize : input.utf8ByteSize < 2 ^ 64) (w : String) (o : Offset) :
    SameSpan (word w) (sequence (w.toList.map symbol)) ⟨input, o⟩ := by
  have hparts : List.Forall₂ (fun p ws => ∀ o, Spells p ws ⟨input, o⟩) (w.toList.map symbol)
      (w.toList.map fun x => [x]) := by
    -- part and characters belong together one by one
    rw [List.forall₂_map_left_iff, List.forall₂_map_right_iff, List.forall₂_same]
    intro x _
    exact symbol_spells hsize x
  have hflatten : (w.toList.map fun x => [x]).flatten = w.toList := by
    rw [← List.flatMap_def, List.flatMap_singleton']
  have hspells := sequence_spells hparts o
  rw [hflatten] at hspells
  exact (word_spells hsize w o).sameSpan hspells

/-! ## The three places of a cursor -/

/-- The end of the text is read where no bytes are left, also past the text. -/
theorem endOfInput_succeeds_iff :
    SucceedsAt endOfInput ⟨input, o⟩ ↔ input.utf8ByteSize ≤ o.val := by
  have hended : Cursor.ended ⟨input, o⟩ = true ↔ input.utf8ByteSize ≤ o.val := decide_eq_true_iff
  rw [← hended]
  constructor
  · rintro ⟨v, s, hv⟩
    by_contra h
    rw [endOfInput, if_neg h] at hv
    cases hv
  · intro h
    refine ⟨(), Span.point o, ?_⟩
    rw [endOfInput, if_pos h]
    rfl

/-- Every character lies between the first and the last one. -/
private theorem char_bounds (x : Char) : Char.ofNat 0 ≤ x ∧ x ≤ Char.ofNat 0x10ffff := by
  have hvalid := x.valid
  constructor
  · rw [Char.le_def, UInt32.le_iff_toNat_le]
    exact Nat.zero_le _
  · rw [Char.le_def, UInt32.le_iff_toNat_le]
    show x.val.toNat ≤ 0x10ffff
    -- a character is a number below the surrogates or above them
    rcases hvalid with h | h
    · omega
    · omega

/-- Where any character may stand, one is read at the boundaries before the end. -/
theorem range_all_succeeds_iff (hsize : input.utf8ByteSize < 2 ^ 64) :
    SucceedsAt (range (Char.ofNat 0) (Char.ofNat 0x10ffff)) ⟨input, o⟩ ↔
      o.val < input.utf8ByteSize ∧ Text.isBoundary input o.val = true := by
  constructor
  · rintro ⟨v, s, hv⟩
    cases hpeek : Cursor.peek ⟨input, o⟩ with
    | none =>
      rw [range, hpeek] at hv
      cases hv
    | some x =>
      -- the character that was read begins there, and has a byte at least
      obtain ⟨cs, hcs⟩ := Text.charAt?_eq_some_iff.1 hpeek
      have hwidth : o.val + Text.width (x :: cs) = input.utf8ByteSize := hcs.add_width
      have hpos := x.utf8Size_pos
      rw [Text.width_cons] at hwidth
      have hlt : o.val < input.utf8ByteSize := by omega
      exact ⟨hlt, hcs.isBoundary⟩
  · rintro ⟨hlt, hboundary⟩
    obtain ⟨cs, hcs⟩ := Text.isBoundary_iff.1 hboundary
    -- at a boundary before the end there is a character, and no character is out of range
    cases cs with
    | nil =>
      have hwidth := hcs.add_width
      rw [Text.width_nil] at hwidth
      omega
    | cons x cs =>
      obtain ⟨s, hs, -, -⟩ := range_reads hsize (char_bounds x) o hcs
      exact ⟨x, s, hs⟩

/-! ## The comparison -/

/-- Take any text and any offset, on a boundary or off it, in the text or past it. A symbol, a range
    of this symbol alone and the word of it read the same bytes, or all fail there and have come no
    further. A word reads what its two parts read one after the other, and what its characters read
    one after the other. It is read where its bytes stand. And one of these holds, and no other: the
    end of the text is read, any character is read, or the offset lies inside a character. -/
theorem terminals_agree (input : String) (hsize : input.utf8ByteSize < 2 ^ 64) (o : Offset) :
    (∀ x : Char,
      (∃ s, (symbol x ⟨input, o⟩).ending = .ok (.done x s) ∧
        (range x x ⟨input, o⟩).ending = .ok (.done x s) ∧
        (word (String.singleton x) ⟨input, o⟩).ending = .ok (.done (String.singleton x) s)) ∨
      ∃ e f g, (symbol x ⟨input, o⟩).ending = .ok (.failed e) ∧
        (range x x ⟨input, o⟩).ending = .ok (.failed f) ∧
        (word (String.singleton x) ⟨input, o⟩).ending = .ok (.failed g) ∧
        ∀ h ∈ [e, f, g], h.blamed = o ∧ h.furthest = o) ∧
    (∀ a b : String, SameSpan (word (a ++ b)) (sequence [word a, word b]) ⟨input, o⟩) ∧
    (∀ w : String, SameSpan (word w) (sequence (w.toList.map symbol)) ⟨input, o⟩) ∧
    (∀ w : String, SucceedsAt (word w) ⟨input, o⟩ ↔
      w = "" ∨ Text.bytes w <+: (Text.bytes input).drop o.val) ∧
    let ends := SucceedsAt endOfInput ⟨input, o⟩
    let reads := SucceedsAt (range (Char.ofNat 0) (Char.ofNat 0x10ffff)) ⟨input, o⟩
    let inside := Text.Inside input o.val
    (ends ∧ ¬ reads ∧ ¬ inside) ∨ (¬ ends ∧ reads ∧ ¬ inside) ∨ (¬ ends ∧ ¬ reads ∧ inside) := by
  refine ⟨?_, fun a b => word_append_sameSpan hsize a b o,
    fun w => word_symbols_sameSpan hsize w o, ?_, ?_⟩
  · intro x
    -- all three ask for the same word, and differ in what they read and expect
    rw [symbol_eq_ite, range_self_eq_ite, word]
    by_cases h : Cursor.startsWith ⟨input, o⟩ (String.singleton x) = true
    · obtain ⟨s, -, -, hreads⟩ := exists_span_of_startsWith hsize h
      simp only [if_pos h]
      exact .inl ⟨s, hreads x, hreads x, hreads _⟩
    · simp only [if_neg h]
      refine .inr ⟨_, _, _, rfl, rfl, rfl, ?_⟩
      simp [Failure.expecting]
  · intro w
    rw [(word_spells hsize w o).succeedsAt_iff]
    exact Text.startsWithAt_iff_bytes
  · -- two questions settle where the cursor is: whether bytes are left, and whether a boundary is
    simp only [endOfInput_succeeds_iff, range_all_succeeds_iff hsize, Text.inside_iff]
    cases Text.isBoundary input o.val with
    | true => simp; omega
    | false => simp; omega

/-- Inside a character neither the end is read nor any character. -/
theorem terminals_agree_inside :
    "aé".utf8ByteSize < 2 ^ 64 ∧ ¬ SucceedsAt endOfInput ⟨"aé", 2⟩ ∧
      ¬ SucceedsAt (range (Char.ofNat 0) (Char.ofNat 0x10ffff)) ⟨"aé", 2⟩ ∧
      SameSpan (word "éa") (sequence [symbol 'é', symbol 'a']) ⟨"aé", 2⟩ := by
  have hsize : "aé".utf8ByteSize < 2 ^ 64 := by decide
  have hinside : Text.Inside "aé" 2 := ⟨['a'], 'é', [], by decide, by decide, by decide⟩
  obtain ⟨-, -, hsymbols, -, hplace⟩ := terminals_agree "aé" hsize 2
  rcases hplace with ⟨-, -, hnot⟩ | ⟨-, -, hnot⟩ | ⟨hend, hrange, -⟩
  · exact absurd hinside hnot
  · exact absurd hinside hnot
  · exact ⟨hsize, hend, hrange, hsymbols "éa"⟩

end ParserKit.Parser
