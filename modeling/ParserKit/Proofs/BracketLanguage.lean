import ParserKit.Proofs.Reading
import ParserKit.Sample.Brackets

/-!
# The bracket grammar reads brackets

The texts that the bracket grammar accepts are the trees of brackets, written out, and what it
reads is the tree. A pair of brackets is delimited by itself, so whatever stands behind it, a tree
is read up to where it ends (`reads_paren`); and a repetition of pairs stops where none begins.
In the other direction, at any characters either a tree begins or no pair is read
(`exists_tree_or_fails_paren`), by induction on how many characters are left.

## Key results

- `reads_paren`: a tree is read, with anything behind it
- `exists_tree_or_fails_paren`: where no tree stands, no pair of brackets is read
- `recognizes_document`: a text is read as a document exactly if it is the text of a tree
-/

namespace ParserKit.Sample

namespace Bracket

/-! ## Writing trees -/

mutual

/-- What follows a tree is not touched by it. -/
theorem charsOnto_append (b : Bracket) (cs ds : List Char) :
    b.charsOnto (cs ++ ds) = b.charsOnto cs ++ ds := by
  cases b with
  | round inside =>
    simp only [charsOnto, List.cons_append]
    rw [← List.cons_append, charsOfOnto_append]
  | curly inside =>
    simp only [charsOnto, List.cons_append]
    rw [← List.cons_append, charsOfOnto_append]

/-- What follows several trees is not touched by them. -/
theorem charsOfOnto_append (bs : List Bracket) (cs ds : List Char) :
    charsOfOnto bs (cs ++ ds) = charsOfOnto bs cs ++ ds := by
  cases bs with
  | nil => rfl
  | cons b bs => rw [charsOfOnto, charsOfOnto, charsOfOnto_append, charsOnto_append]

end

/-- A tree before `rest` is its characters before `rest`. -/
theorem charsOnto_eq (b : Bracket) (rest : List Char) : b.charsOnto rest = b.chars ++ rest := by
  rw [chars, ← charsOnto_append, List.nil_append]

/-- A tree is not empty. -/
theorem length_chars_pos (b : Bracket) : 0 < b.chars.length := by
  cases b <;> exact Nat.succ_pos _

/-- Behind a tree fewer characters are left. -/
theorem length_lt_length_charsOnto (b : Bracket) (rest : List Char) :
    rest.length < (b.charsOnto rest).length := by
  have hpos := b.length_chars_pos
  rw [charsOnto_eq, List.length_append]
  omega

/-- Behind a tree fewer bytes are left. -/
theorem width_lt_width_charsOnto (b : Bracket) (rest : List Char) :
    Text.width rest < Text.width (b.charsOnto rest) := by
  have hpos := b.length_chars_pos
  have hle := Text.length_le_width b.chars
  rw [charsOnto_eq, Text.width_append]
  omega

/-- The trees that a repetition made are taken out of it again. -/
theorem ofValues_map_made (bs : List Bracket) : ofValues (bs.map .made) = bs := by
  induction bs with
  | nil => rfl
  | cons b bs ih =>
    rw [ofValues] at ih ⊢
    simp [Value.made?, ih]

end Bracket

namespace BracketRule

open ParserKit.Parser (Reads Fails ReadsMany)
open ParserKit.Sample.Bracket (charsOfOnto)

variable {input : String} {cs rest : List Char} {v : Value Bracket} {vs : List (Value Bracket)}

/-! ## The rules -/

/-- A pair of brackets is read if pairs are read inside it up to the closing bracket. -/
theorem reads_enclosed (hsize : input.utf8ByteSize < 2 ^ 64) {opening closing : Char}
    (h : ReadsMany input (book.run (.rule .paren)) cs vs (closing :: rest)) :
    Reads input (book.run (enclosed opening closing)) (opening :: cs)
      (.seq [.char opening, .many vs, .char closing]) rest :=
  Rulebook.reads_sequence (.cons (Rulebook.reads_symbol hsize opening)
    (.cons (Rulebook.reads_many h) (.cons (Rulebook.reads_symbol hsize closing) (.nil rest))))

/-- The tree of what stands between two brackets. -/
theorem build_enclosed (make : List Bracket → Bracket) (opening closing : Char)
    (bs : List Bracket) :
    build make (.seq [.char opening, .many (bs.map .made), .char closing]) = .made (make bs) := by
  rw [build, Bracket.ofValues_map_made]

/-- A pair is not read where its opening bracket does not stand. -/
theorem fails_enclosed_of_opening {opening closing : Char} (h : cs.head? ≠ some opening) :
    Fails input (book.run (enclosed opening closing)) cs :=
  Rulebook.fails_sequence (.here (Rulebook.fails_symbol h))

/-- A pair is not read if what is inside is read up to something else than the closing bracket. -/
theorem fails_enclosed_of_closing (hsize : input.utf8ByteSize < 2 ^ 64) {opening closing : Char}
    (h : ReadsMany input (book.run (.rule .paren)) cs vs rest) (hrest : rest.head? ≠ some closing) :
    Fails input (book.run (enclosed opening closing)) (opening :: cs) :=
  Rulebook.fails_sequence (.later (Rulebook.reads_symbol hsize opening)
    (.later (Rulebook.reads_many h) (.here (Rulebook.fails_symbol hrest))))

/-- A pair that is round is a pair. -/
theorem reads_paren_of_round (h : Reads input (book.run (.rule .round)) cs v rest) :
    Reads input (book.run (.rule .paren)) cs v rest :=
  book.reads_rule .paren (Rulebook.reads_unified rfl (.here h))

/-- A pair that is curly is a pair. -/
theorem reads_paren_of_curly (hround : Fails input (book.run (.rule .round)) cs)
    (h : Reads input (book.run (.rule .curly)) cs v rest) :
    Reads input (book.run (.rule .paren)) cs v rest :=
  book.reads_rule .paren (Rulebook.reads_unified rfl (.later hround (.here h)))

/-- What is neither a round pair nor a curly one is no pair. -/
theorem fails_paren (hround : Fails input (book.run (.rule .round)) cs)
    (hcurly : Fails input (book.run (.rule .curly)) cs) :
    Fails input (book.run (.rule .paren)) cs :=
  book.fails_rule .paren (Rulebook.fails_unified rfl (by simp [hround, hcurly]))

/-- No round pair begins but with a round bracket. -/
theorem fails_round_of_head (h : cs.head? ≠ some '(') :
    Fails input (book.run (.rule .round)) cs :=
  book.fails_rule .round (fails_enclosed_of_opening h)

/-- No curly pair begins but with a curly bracket. -/
theorem fails_curly_of_head (h : cs.head? ≠ some '\x7b') :
    Fails input (book.run (.rule .curly)) cs :=
  book.fails_rule .curly (fails_enclosed_of_opening h)

/-- A round pair is read as the tree of what is read inside it. -/
theorem reads_round (hsize : input.utf8ByteSize < 2 ^ 64) {bs : List Bracket}
    (h : ReadsMany input (book.run (.rule .paren)) cs (bs.map .made) (')' :: rest)) :
    Reads input (book.run (.rule .round)) ('(' :: cs) (.made (.round bs)) rest := by
  rw [← build_enclosed .round '(' ')' bs]
  exact book.reads_rule .round (reads_enclosed hsize h)

/-- A curly pair is read as the tree of what is read inside it. -/
theorem reads_curly (hsize : input.utf8ByteSize < 2 ^ 64) {bs : List Bracket}
    (h : ReadsMany input (book.run (.rule .paren)) cs (bs.map .made) ('\x7d' :: rest)) :
    Reads input (book.run (.rule .curly)) ('\x7b' :: cs) (.made (.curly bs)) rest := by
  rw [← build_enclosed .curly '\x7b' '\x7d' bs]
  exact book.reads_rule .curly (reads_enclosed hsize h)

/-- Where nothing opens, no pair stands. -/
theorem fails_paren_of_head (hround : cs.head? ≠ some '(') (hcurly : cs.head? ≠ some '\x7b') :
    Fails input (book.run (.rule .paren)) cs :=
  fails_paren (fails_round_of_head hround) (fails_curly_of_head hcurly)

/-! ## Trees are read -/

mutual

/-- A tree is read, with anything behind it. -/
theorem reads_paren (hsize : input.utf8ByteSize < 2 ^ 64) (b : Bracket) (rest : List Char) :
    Reads input (book.run (.rule .paren)) (b.charsOnto rest) (.made b) rest := by
  -- the trees inside are read up to the closing bracket, where no pair begins
  cases b with
  | round inside =>
    have hclose : Fails input (book.run (.rule .paren)) (')' :: rest) :=
      fails_paren_of_head (by simp) (by simp)
    exact reads_paren_of_round (reads_round hsize (readsMany_paren hsize inside hclose))
  | curly inside =>
    have hclose : Fails input (book.run (.rule .paren)) ('\x7d' :: rest) :=
      fails_paren_of_head (by simp) (by simp)
    -- before a curly pair is tried, a round one has failed
    have hround : Fails input (book.run (.rule .round)) ((Bracket.curly inside).charsOnto rest) :=
      fails_round_of_head (by simp [Bracket.charsOnto])
    exact reads_paren_of_curly hround (reads_curly hsize (readsMany_paren hsize inside hclose))

/-- Trees side by side are read one after the other, up to where none begins. -/
theorem readsMany_paren (hsize : input.utf8ByteSize < 2 ^ 64) (bs : List Bracket)
    {rest : List Char} (hrest : Fails input (book.run (.rule .paren)) rest) :
    ReadsMany input (book.run (.rule .paren)) (charsOfOnto bs rest) (bs.map .made) rest := by
  cases bs with
  | nil => exact .stop hrest
  | cons b bs =>
    exact .next (reads_paren hsize b _) (b.width_lt_width_charsOnto _)
      (readsMany_paren hsize bs hrest)

end

/-! ## Only trees are read -/

/-- Behind the trees inside a pair stands its closing bracket, or the pair is not read. -/
theorem closes_or_fails (hsize : input.utf8ByteSize < 2 ^ 64) (i : BracketRule)
    {opening closing : Char} (hbody : (book.rule i).body = enclosed opening closing)
    (h : ReadsMany input (book.run (.rule .paren)) cs vs rest) :
    (∃ after, rest = closing :: after) ∨ Fails input (book.run (.rule i)) (opening :: cs) := by
  -- either the closing bracket comes, or the body fails for want of it
  by_cases hclose : rest.head? = some closing
  · exact .inl (List.head?_eq_some_iff.1 hclose)
  · refine .inr (book.fails_rule i ?_)
    rw [hbody]
    exact fails_enclosed_of_closing hsize h hclose

/-- If up to `n` characters are a tree or no pair, then they are trees side by side up to where no
    pair stands. -/
private theorem exists_trees_of_bound {n : Nat}
    (h : ∀ cs : List Char, cs.length < n →
      (∃ b rest, cs = Bracket.charsOnto b rest) ∨ Fails input (book.run (.rule .paren)) cs)
    (cs : List Char) (hcs : cs.length < n) :
    ∃ bs rest, cs = charsOfOnto bs rest ∧ Fails input (book.run (.rule .paren)) rest := by
  -- on the number of characters: behind one tree there are fewer
  induction hn : cs.length using Nat.strongRecOn generalizing cs with
  | ind m ih =>
    rcases h cs hcs with ⟨b, mid, rfl⟩ | hfails
    · have hless := b.length_lt_length_charsOnto mid
      obtain ⟨bs, rest, rfl, hrest⟩ := ih mid.length (by omega) mid (by omega) rfl
      exact ⟨b :: bs, rest, rfl, hrest⟩
    · exact ⟨[], cs, rfl, hfails⟩

/-- At any characters a tree stands, or no pair of brackets is read. -/
theorem exists_tree_or_fails_paren (hsize : input.utf8ByteSize < 2 ^ 64) (cs : List Char) :
    (∃ b rest, cs = Bracket.charsOnto b rest) ∨ Fails input (book.run (.rule .paren)) cs := by
  -- on the number of characters, as what is inside a pair may be any number of trees
  induction hn : cs.length using Nat.strongRecOn generalizing cs with
  | ind n ih =>
    -- inside a pair there are fewer characters
    have htrees : ∀ ds : List Char, ds.length < n → ∃ bs rest, ds = charsOfOnto bs rest ∧
        Fails input (book.run (.rule .paren)) rest :=
      exists_trees_of_bound fun ds hds => ih ds.length hds ds rfl
    cases cs with
    | nil => exact .inr (fails_paren_of_head (by simp) (by simp))
    | cons c cs =>
      rw [List.length_cons] at hn
      obtain ⟨bs, mid, rfl, hmid⟩ := htrees cs (by omega)
      have hmany := readsMany_paren hsize bs hmid
      -- which rule could read a pair is decided by the first character
      by_cases hround : c = '('
      · subst hround
        rcases closes_or_fails hsize .round rfl hmany with ⟨rest, rfl⟩ | hfails
        · exact .inl ⟨.round bs, rest, rfl⟩
        · exact .inr (fails_paren hfails (fails_curly_of_head (by simp)))
      · by_cases hcurly : c = '\x7b'
        · subst hcurly
          rcases closes_or_fails hsize .curly rfl hmany with ⟨rest, rfl⟩ | hfails
          · exact .inl ⟨.curly bs, rest, rfl⟩
          · exact .inr (fails_paren (fails_round_of_head (by simp)) hfails)
        · exact .inr (fails_paren_of_head (by simpa using hround) (by simpa using hcurly))

/-! ## Documents -/

/-- A tree that is all there is left is read as a document. -/
theorem reads_document (hsize : input.utf8ByteSize < 2 ^ 64) (b : Bracket) :
    Reads input (book.run (.rule .document)) b.chars (.made b) [] :=
  book.reads_rule .document (Rulebook.reads_sequence
    (.cons (reads_paren hsize b []) (.cons Rulebook.reads_endOfInput (.nil []))))

/-- What is not all a tree is not a document. -/
theorem fails_document (hsize : input.utf8ByteSize < 2 ^ 64) (h : ∀ b : Bracket, cs ≠ b.chars) :
    Fails input (book.run (.rule .document)) cs := by
  refine book.fails_rule .document (Rulebook.fails_sequence ?_)
  -- a tree with something behind it misses the end, and where no tree stands there is no pair
  rcases exists_tree_or_fails_paren hsize cs with ⟨b, rest, rfl⟩ | hfails
  · have hrest : rest ≠ [] := fun hnil => h b (by rw [hnil, Bracket.chars])
    exact .later (reads_paren hsize b rest) (.here (Rulebook.fails_endOfInput hrest))
  · exact .here hfails

/-- The bracket grammar recognizes the texts of trees. -/
theorem recognizes_document : book.Recognizes (.rule .document) fun s v =>
    ∃ t : Bracket, s = t.text ∧ v = .made t where
  check := by cbv
  reads := by
    rintro s v hsize ⟨t, rfl, rfl⟩
    rw [Bracket.text, String.toList_ofList]
    exact reads_document hsize t
  fails := by
    intro s hsize h
    refine fails_document hsize fun t ht => h (.made t) ⟨t, ?_, rfl⟩
    rw [Bracket.text, ← ht, String.ofList_toList]

/-- A text is parsed as a document exactly if it is the text of a tree; what is read is then that
    tree, from the first byte to the last, and every other text is rejected. -/
theorem parseText_document (ending : LineEnding) (s : String)
    (hsize : s.utf8ByteSize < 2 ^ 64) :
    (∀ t : Bracket, (book.parseText ending (.rule .document) s).ending =
        .ok (.ok (.made t, Span.whole s hsize)) ↔ s = t.text) ∧
      (∀ v span, (book.parseText ending (.rule .document) s).ending = .ok (.ok (v, span)) →
        ∃ t : Bracket, v = .made t ∧ span = Span.whole s hsize ∧ t.text = s) ∧
      ((∀ t : Bracket, s ≠ t.text) →
        ∃ r, (book.parseText ending (.rule .document) s).ending =
          .ok (.error (.rejected r))) := by
  refine ⟨fun t => ?_, fun v span hv => ?_, fun h => ?_⟩
  -- both directions are those of recognition, and a tree is told by its value
  · rw [recognizes_document.parseText_eq_iff ending hsize]
    simp
  · obtain ⟨⟨t, htext, hvalue⟩, hspan⟩ :=
      (recognizes_document.parseText_eq_iff ending hsize).1 hv
    exact ⟨t, hvalue, hspan, htext.symm⟩
  · refine recognizes_document.exists_rejection ending hsize ?_
    rintro v ⟨t, htext, -⟩
    exact h t htext

/-- Two pairs side by side within a third one are read. -/
theorem parseText_document_nested :
    (book.parseText .lf (.rule .document) "(\x7b\x7d())").ending =
      .ok (.ok (.made (.round [.curly [], .round []]),
        Span.whole "(\x7b\x7d())" (by decide))) :=
  ((parseText_document .lf "(\x7b\x7d())" (by decide)).1 _).2 (by decide)

end BracketRule

end ParserKit.Sample
