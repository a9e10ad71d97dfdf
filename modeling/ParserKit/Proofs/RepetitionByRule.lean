import Mathlib.Logic.Function.Basic
import ParserKit.Proofs.HonestFailure
import ParserKit.Proofs.PastEnd
import ParserKit.Proofs.Repetition
import ParserKit.Proofs.Termination

/-!
# Repetition by a rule

A grammar can be repeated without a loop, by a rule that says: the grammar and then the rule once
more, or nothing (`Rulebook.RepetitionRule`). What the rule reads is a list as nested pairs, as the
actions make them. If the grammar never succeeds without reading anything, the rule goes through the
same rounds as the loop, so both read the same values from the same span.

A grammar that may succeed without reading anything is another matter: the loop takes such a match
once and ends, and the rule is entered where it is being read, again and again.

## Key results

- `RepetitionRule.ne_failed`: nothing can always be read, so the rule never fails
- `RepetitionRule.eq_done_iff`: one step of the rule
- `RepetitionRule.eq_done_iff_repeats`: the rule goes through the rounds of a repetition
- `RepetitionRule.nested_injective`: the values can be told from the nested pairs
- `moves_of_consumes`: what never succeeds without reading anything in a text always leads further

That the loop and the rule are the same is stated last.
-/

namespace ParserKit

variable {α β ι κ : Type}

/-! ## Parts of the rule -/

namespace Parser

variable {p q : Parser α} {input : String} {o : Offset} {c : Cursor} {s : Span}

/-- A map ends as its parser does, with another value. -/
theorem ending_mapped (f : α → β) (p : Parser α) (c : Cursor) :
    (mapped f p c).ending = ((p c).mapValue f).ending := by
  rw [mapped, Run.ending_andThen, Run.mapValue, Run.ending_map]
  rcases (p c).ending with stop | ⟨v, t⟩ | e <;> rfl

/-- So does a rule, whatever it records. -/
theorem ending_named (name : String) (action : α → β) (p : Parser α) (c : Cursor) :
    (named name action p c).ending = ((p c).mapValue action).ending := by
  rw [named, Run.ending_after, Run.ending_andThen, Run.mapValue, Run.ending_map]
  rcases (p c).ending with stop | ⟨v, t⟩ | e <;> rfl

/-- A choice of two succeeds with the first, or with the second if the first one fails. -/
theorem choice_pair_eq_done {v : α} :
    (choice [p, q] c).ending = .ok (.done v s) ↔
      (p c).ending = .ok (.done v s) ∨
        (∃ f, (p c).ending = .ok (.failed f)) ∧ (q c).ending = .ok (.done v s) := by
  simp only [choice, choiceFrom, Run.andThen_eq_ok]
  -- the second parser is come to only when the first one has failed
  constructor
  · rintro ⟨x, hx, h⟩
    cases x with
    | done w t =>
      cases h
      exact .inl hx
    | failed f =>
      obtain ⟨y, hy, h⟩ := Run.andThen_eq_ok.1 h
      cases y with
      | failed e => cases h
      | done w t =>
        cases h
        exact .inr ⟨⟨f, hx⟩, hy⟩
  · rintro (hp | ⟨⟨f, hp⟩, hq⟩)
    · exact ⟨_, hp, rfl⟩
    · exact ⟨_, hp, Run.andThen_eq_ok.2 ⟨_, hq, rfl⟩⟩

/-- A sequence of two succeeds with both, the second where the first has come to. -/
theorem sequence_pair_eq_done {vs : List α} :
    (sequence [p, q] ⟨input, o⟩).ending = .ok (.done vs s) ↔
      ∃ v t w u, (p ⟨input, o⟩).ending = .ok (.done v t) ∧
        (q ⟨input, t.stop⟩).ending = .ok (.done w u) ∧ s.begin = o ∧ s.stop = u.stop ∧
        vs = [v, w] := by
  simp only [sequence, sequenceFrom, Run.andThen_eq_ok]
  -- what the sequence hands on is taken apart from the outside, match by match
  constructor
  · rintro ⟨x, hx, h⟩
    cases x with
    | failed f => cases h
    | done v t =>
      obtain ⟨ws, hsecond, rfl⟩ := Run.mapValue_eq_done.1 h
      obtain ⟨y, hy, hsecond⟩ := Run.andThen_eq_ok.1 hsecond
      cases y with
      | failed f => cases hsecond
      | done w u =>
        obtain ⟨_, hend, rfl⟩ := Run.mapValue_eq_done.1 hsecond
        obtain ⟨hspan, rfl⟩ := Run.doneAt_eq_done.1 hend
        obtain ⟨hbegin, hstop⟩ := Span.between_eq_ok.1 hspan
        exact ⟨v, t, w, u, hx, hy, hbegin, hstop, rfl⟩
  · rintro ⟨v, t, w, u, hp, hq, hbegin, hstop, rfl⟩
    have hspan : Span.between o u.stop = .ok s := Span.between_eq_ok.2 ⟨hbegin, hstop⟩
    refine ⟨_, hp, Run.mapValue_eq_done.2 ⟨[w], ?_, rfl⟩⟩
    refine Run.andThen_eq_ok.2 ⟨_, hq, Run.mapValue_eq_done.2 ⟨[], ?_, rfl⟩⟩
    exact Run.doneAt_eq_done.2 ⟨hspan, rfl⟩

/-- A sequence of two of which the second never fails fails with the first. -/
theorem sequence_pair_failed (hq : ∀ c f, (q c).ending ≠ .ok (.failed f)) :
    (∃ f, (sequence [p, q] ⟨input, o⟩).ending = .ok (.failed f)) ↔
      ∃ f, (p ⟨input, o⟩).ending = .ok (.failed f) := by
  simp only [sequence, sequenceFrom, Run.andThen_eq_ok]
  constructor
  · rintro ⟨f, x, hx, h⟩
    -- with the first match the sequence can fail only at the second parser, which it does not
    cases x with
    | failed e => exact ⟨e, hx⟩
    | done v t =>
      obtain ⟨y, hy, h⟩ := Run.andThen_eq_ok.1 (Run.mapValue_eq_failed.1 h)
      cases y with
      | failed e => exact absurd hy (hq _ e)
      | done w u => exact absurd (Run.mapValue_eq_failed.1 h) Run.doneAt_ne_failed
  · rintro ⟨f, hp⟩
    exact ⟨f, _, hp, rfl⟩

/-- If the item leads further whenever it succeeds, so does every round that has a value. -/
theorem Repeats.add_length_le {e : Offset} {vs : List α} (h : Repeats p input o vs e)
    (hmoves : ∀ q v t, (p ⟨input, q⟩).ending = .ok (.done v t) → q.val < t.stop.val) :
    o.val + vs.length ≤ e.val := by
  induction h with
  | stop => exact Nat.le_refl _
  | last hp hstays => exact absurd (hmoves _ _ _ hp) hstays
  | next _ hlt _ ih =>
    rw [List.length_cons]
    omega

/-- Nothing is read anywhere. -/
theorem ending_word_empty (c : Cursor) :
    (word "" c).ending = .ok (.done "" (Span.point c.offset)) := by
  have hstarts : c.startsWith "" = true := rfl
  rw [word, if_pos hstarts, reads, Span.ofLength_eq_ok c.offset.isLt]
  rfl

end Parser

/-! ## Conversions -/

/-- The value after all the conversions, the last one first. -/
def Value.convert (fs : List (Value κ → Value κ)) (v : Value κ) : Value κ :=
  fs.foldr (fun f x => f x) v

/-- The grammar with its values converted by all the functions, the last one first. -/
def Grammar.converted (fs : List (Value κ → Value κ)) (g : Grammar ι κ) : Grammar ι κ :=
  fs.foldr .map g

namespace Rulebook

variable {book : Rulebook ι κ} {r : ι} {p : Grammar ι κ} {input : String} {o : Offset}
  {s sp : Span} {w : Value κ}

/-- Conversions change what a grammar reads, and nothing else. -/
theorem ending_run_converted (fs : List (Value κ → Value κ)) (g : Grammar ι κ) (c : Cursor) :
    (book.run (g.converted fs) c).ending = ((book.run g c).mapValue (Value.convert fs)).ending := by
  induction fs with
  | nil =>
    rw [Run.mapValue, Run.ending_map]
    show (book.run g c).ending = _
    rcases (book.run g c).ending with stop | ⟨v, t⟩ | e <;> rfl
  | cons f fs ih =>
    have hmap : (book.run (g.converted (f :: fs)) c).ending =
        (Parser.mapped f (book.run (g.converted fs)) c).ending := rfl
    rw [hmap, Parser.ending_mapped, Run.mapValue, Run.ending_map, ih, Run.mapValue, Run.mapValue,
      Run.ending_map, Run.ending_map]
    rcases (book.run g c).ending with stop | ⟨v, t⟩ | e <;> rfl

/-! ## The rule -/

/-- The rule `r` repeats `p`: it is a choice between `p` with the rule behind it, and nothing. The
    values of both may be converted to have one type. -/
structure RepetitionRule (book : Rulebook ι κ) (r : ι) (p : Grammar ι κ) where
  ofPair : List (Value κ → Value κ)
  ofNothing : List (Value κ → Value κ)
  body_eq : (book.rule r).body =
    .either [(Grammar.sequence [p, .rule r]).converted ofPair,
      (Grammar.word "").converted ofNothing]

namespace RepetitionRule

variable (R : book.RepetitionRule r p)

/-- What the rule makes of a value and of what it read behind it. -/
def cons (v rest : Value κ) : Value κ :=
  (book.rule r).action (Value.convert R.ofPair (.seq [v, rest]))

/-- What the rule makes of nothing. -/
def nil : Value κ := (book.rule r).action (Value.convert R.ofNothing (.word ""))

/-- The values as the rule nests them, to the right. -/
def nested (vs : List (Value κ)) : Value κ := vs.foldr R.cons R.nil

include R

/-- Nothing can be read anywhere, so the rule never fails. -/
theorem ne_failed (c : Cursor) (f : Failure) : (book.run (.rule r) c).ending ≠ .ok (.failed f) := by
  intro h
  rw [ending_run_rule] at h
  have hbody := Parser.named_eq_failed h
  rw [R.body_eq, run_either, Parser.choice_eq_choiceFrom] at hbody
  obtain ⟨hall, -⟩ := Parser.choiceFrom_failed hbody
  obtain ⟨e, he⟩ := hall (book.run ((Grammar.word "").converted R.ofNothing)) (by simp)
  rw [ending_run_converted, Run.mapValue_eq_failed] at he
  have hword := Run.mapValue_eq_failed.1 he
  rw [Parser.ending_word_empty] at hword
  cases hword

/-- The first branch of the rule reads a value of `p` and what the rule reads behind it. -/
theorem pair_eq_done {x : Value κ} :
    (book.run ((Grammar.sequence [p, .rule r]).converted R.ofPair) ⟨input, o⟩).ending =
        .ok (.done x s) ↔
      ∃ v t rest u, (book.run p ⟨input, o⟩).ending = .ok (.done v t) ∧
        (book.run (.rule r) ⟨input, t.stop⟩).ending = .ok (.done rest u) ∧
        s.begin = o ∧ s.stop = u.stop ∧ Value.convert R.ofPair (.seq [v, rest]) = x := by
  rw [ending_run_converted, Run.mapValue_eq_done, run_sequence]
  simp only [Parser.map, Run.mapValue_eq_done, List.map_cons, List.map_nil,
    Parser.sequence_pair_eq_done]
  -- the two values reach the conversion as a sequence of two
  constructor
  · rintro ⟨_, ⟨_, ⟨v, t, rest, u, hp, hr, hbegin, hstop, rfl⟩, rfl⟩, rfl⟩
    exact ⟨v, t, rest, u, hp, hr, hbegin, hstop, rfl⟩
  · rintro ⟨v, t, rest, u, hp, hr, hbegin, hstop, rfl⟩
    exact ⟨_, ⟨_, ⟨v, t, rest, u, hp, hr, hbegin, hstop, rfl⟩, rfl⟩, rfl⟩

/-- The first branch of the rule fails where `p` does. -/
theorem pair_failed :
    (∃ f, (book.run ((Grammar.sequence [p, .rule r]).converted R.ofPair) ⟨input, o⟩).ending =
        .ok (.failed f)) ↔
      ∃ f, (book.run p ⟨input, o⟩).ending = .ok (.failed f) := by
  simp only [ending_run_converted, Run.mapValue_eq_failed, run_sequence, Parser.map,
    List.map_cons, List.map_nil]
  exact Parser.sequence_pair_failed R.ne_failed

/-- The second branch of the rule reads nothing, wherever it is tried. -/
theorem nothing_eq_done {x : Value κ} :
    (book.run ((Grammar.word "").converted R.ofNothing) ⟨input, o⟩).ending = .ok (.done x s) ↔
      s = Span.point o ∧ Value.convert R.ofNothing (.word "") = x := by
  have hword : (book.run (.word "") ⟨input, o⟩).ending =
      ((Parser.word "" ⟨input, o⟩).mapValue Value.word).ending := rfl
  rw [ending_run_converted, Run.mapValue_eq_done, hword, Run.mapValue, Run.ending_map,
    Parser.ending_word_empty]
  constructor
  · rintro ⟨_, ⟨⟩, rfl⟩
    exact ⟨rfl, rfl⟩
  · rintro ⟨rfl, rfl⟩
    exact ⟨_, rfl, rfl⟩

/-- One step of the rule: `p` reads a value and the rule reads the rest, or `p` fails. -/
theorem eq_done_iff :
    (book.run (.rule r) ⟨input, o⟩).ending = .ok (.done w s) ↔
      (∃ v t rest u, (book.run p ⟨input, o⟩).ending = .ok (.done v t) ∧
        (book.run (.rule r) ⟨input, t.stop⟩).ending = .ok (.done rest u) ∧
        s.begin = o ∧ s.stop = u.stop ∧ R.cons v rest = w) ∨
      (∃ f, (book.run p ⟨input, o⟩).ending = .ok (.failed f)) ∧ s = Span.point o ∧ R.nil = w := by
  rw [ending_run_rule, Parser.ending_named, Run.mapValue_eq_done, R.body_eq, run_either]
  simp only [List.map_cons, List.map_nil, Parser.choice_pair_eq_done, R.pair_eq_done,
    R.pair_failed, R.nothing_eq_done]
  -- one branch for each of the two that the body of the rule has
  constructor
  · rintro ⟨_, ⟨v, t, rest, u, hp, hr, hbegin, hstop, rfl⟩ | ⟨hfails, hs, rfl⟩, rfl⟩
    · exact .inl ⟨v, t, rest, u, hp, hr, hbegin, hstop, rfl⟩
    · exact .inr ⟨hfails, hs, rfl⟩
  · rintro (⟨v, t, rest, u, hp, hr, hbegin, hstop, rfl⟩ | ⟨hfails, hs, rfl⟩)
    · exact ⟨_, .inl ⟨v, t, rest, u, hp, hr, hbegin, hstop, rfl⟩, rfl⟩
    · exact ⟨_, .inr ⟨hfails, hs, rfl⟩, rfl⟩

/-- If `p` always leads further when it succeeds, the rule goes through the rounds of a repetition
    of `p`, and nests the values of these. -/
theorem eq_done_iff_repeats
    (hmoves : ∀ q v t, (book.run p ⟨input, q⟩).ending = .ok (.done v t) → q.val < t.stop.val) :
    (book.run (.rule r) ⟨input, o⟩).ending = .ok (.done w s) ↔
      s.begin = o ∧ ∃ vs, (book.run p).Repeats input o vs s.stop ∧ R.nested vs = w := by
  constructor
  · intro h
    -- the rule is entered once more only behind a match, which leads further
    induction o using Offset.forward_induction generalizing w s with
    | further o ih =>
      rcases R.eq_done_iff.1 h with ⟨v, t, rest, u, hp, hr, hbegin, hstop, rfl⟩ | ⟨hfails, rfl, rfl⟩
      · have hlt := hmoves o v t hp
        obtain ⟨-, vs, hrounds, rfl⟩ := ih t.stop hlt hr
        exact ⟨hbegin, v :: vs, .next hp hlt (hstop ▸ hrounds), rfl⟩
      · obtain ⟨f, hf⟩ := hfails
        exact ⟨rfl, [], .stop hf, rfl⟩
  · rintro ⟨hbegin, vs, h, rfl⟩
    generalize hstop : s.stop = e at h
    -- round by round, each of which is one step of the rule
    induction h generalizing s with
    | stop hf =>
      have hs : s = Span.point s.begin := by
        obtain ⟨b, t, _⟩ := s
        obtain rfl : t = b := hstop.trans hbegin.symm
        rfl
      subst hbegin
      exact R.eq_done_iff.2 (.inr ⟨⟨_, hf⟩, hs, rfl⟩)
    | last hp hstays => exact absurd (hmoves _ _ _ hp) hstays
    | @next o e v t vs hp hlt hrounds ih =>
      -- the rounds that are left lead from the end of the first match to the end of all
      have hle : t.stop.val ≤ e.val := Nat.le_of_add_right_le (hrounds.add_length_le hmoves)
      have hrest := ih (s := ⟨t.stop, e, hle⟩) rfl rfl
      exact R.eq_done_iff.2 (.inl ⟨v, t, _, _, hp, hrest, hbegin, hstop, rfl⟩)

/-- The values can be told from the nested pairs, if a value and a rest can be told from a pair, and
    a pair from nothing. -/
theorem nested_injective (hcons : Function.Injective2 R.cons)
    (hnil : ∀ v rest, R.cons v rest ≠ R.nil) : Function.Injective R.nested := by
  intro vs ws h
  -- the first value and the rest are read off the outermost pair
  induction vs generalizing ws with
  | nil =>
    cases ws with
    | nil => rfl
    | cons w ws => exact absurd h.symm (hnil _ _)
  | cons v vs ih =>
    cases ws with
    | nil => exact absurd h (hnil _ _)
    | cons w ws =>
      obtain ⟨rfl, hrest⟩ := hcons h
      rw [ih hrest]

end RepetitionRule

/-- A grammar without custom parsers that at no offset of a text succeeds without reading anything
    does so nowhere past the end either, and always leads further when it succeeds. -/
theorem moves_of_consumes (hp : book.CustomFree p) (hsize : input.utf8ByteSize < 2 ^ 64)
    (hconsumes : ∀ (q : Offset) v t, q.val ≤ input.utf8ByteSize →
      (book.run p ⟨input, q⟩).ending = .ok (.done v t) → t.isEmpty = false)
    (q : Offset) (v : Value κ) (t : Span)
    (h : (book.run p ⟨input, q⟩).ending = .ok (.done v t)) : q.val < t.stop.val := by
  have hsafe : Parser.OffsetSafe (book.run p) := fun c hc => runWith_within hp hc _
  have hpoint : ∀ o : Offset, (Span.point o).isEmpty = true := fun o => decide_eq_true rfl
  by_contra hstays
  -- a match that leads no further is empty and stands at the offset itself
  obtain rfl := hsafe.eq_point hsize h hstays
  rcases Nat.le_total q.val input.utf8ByteSize with hle | hpast
  · have hcovers := hconsumes q v _ hle h
    rw [hpoint] at hcovers
    cases hcovers
  · -- what is read from nothing past the end is read from nothing at the end
    cases run_idle hp q ⟨input.utf8ByteSize, hsize⟩ hpast (Nat.le_refl _) with
    | done _ hend =>
      have hcovers := hconsumes _ _ _ (Nat.le_refl _) hend
      rw [hpoint] at hcovers
      cases hcovers
    | failed hfails =>
      rw [h] at hfails
      cases hfails
    | stopped hstops =>
      rw [h] at hstops
      cases hstops

/-- A grammar that is not nullable never succeeds without reading anything. -/
theorem consumes_of_not_nullable (hp : book.CustomFree p) (hsize : input.utf8ByteSize < 2 ^ 64)
    (hnull : ¬ book.Nullable p) (q : Offset) (v : Value κ) (t : Span)
    (h : (book.run p ⟨input, q⟩).ending = .ok (.done v t)) : t.isEmpty = false := by
  have hbegin : t.begin = q := begin_eq_of_run hp hsize h
  refine decide_eq_false fun hempty => hnull ?_
  refine (run_advances hp ⟨input, q⟩ v t h).2 ?_
  rw [← hempty, hbegin]

/-- A grammar without custom parsers that at no offset of a text succeeds without reading anything,
    repeated by the loop and by a rule, both at the same cursor, wherever that stands. The one
    succeeds exactly if the other does, from the same span, and the rule nests the values of the
    loop. If the values can be told from the nested pairs, either determines the other. None of them
    ever fails. Each value is the one that the grammar reads at the end of the match before, and
    there are no more values than bytes. -/
theorem run_many_iff_rule (book : Rulebook ι κ) (r : ι) (p : Grammar ι κ)
    (R : book.RepetitionRule r p) (hp : book.CustomFree p) (input : String)
    (hsize : input.utf8ByteSize < 2 ^ 64)
    (hconsumes : ∀ (q : Offset) v t, q.val ≤ input.utf8ByteSize →
      (book.run p ⟨input, q⟩).ending = .ok (.done v t) → t.isEmpty = false) (o : Offset) :
    (∀ w sp, (book.run (.rule r) ⟨input, o⟩).ending = .ok (.done w sp) ↔
      ∃ vs, (book.run (.many p) ⟨input, o⟩).ending = .ok (.done (.many vs) sp) ∧
        R.nested vs = w) ∧
    (Function.Injective2 R.cons → (∀ v rest, R.cons v rest ≠ R.nil) →
      ∀ vs sp, (book.run (.many p) ⟨input, o⟩).ending = .ok (.done (.many vs) sp) ↔
        (book.run (.rule r) ⟨input, o⟩).ending = .ok (.done (R.nested vs) sp)) ∧
    (∀ f, (book.run (.many p) ⟨input, o⟩).ending ≠ .ok (.failed f)) ∧
    (∀ f, (book.run (.rule r) ⟨input, o⟩).ending ≠ .ok (.failed f)) ∧
    (∀ vs sp, (book.run (.many p) ⟨input, o⟩).ending = .ok (.done (.many vs) sp) →
      (book.run p).Repeats input o vs sp.stop ∧ vs.length ≤ sp.length) := by
  have hmoves := moves_of_consumes hp hsize hconsumes
  -- the loop and the rule go through the same rounds
  have hmany : ∀ vs sp, (book.run (.many p) ⟨input, o⟩).ending = .ok (.done (.many vs) sp) ↔
      sp.begin = o ∧ (book.run p).Repeats input o vs sp.stop := by
    intro vs sp
    rw [run_many_eq_done_iff]
    constructor
    · rintro ⟨_, ⟨⟩, hrounds⟩
      exact hrounds
    · exact fun hrounds => ⟨vs, rfl, hrounds⟩
  have hrule : ∀ w sp, (book.run (.rule r) ⟨input, o⟩).ending = .ok (.done w sp) ↔
      ∃ vs, (book.run (.many p) ⟨input, o⟩).ending = .ok (.done (.many vs) sp) ∧
        R.nested vs = w := by
    intro w sp
    simp only [R.eq_done_iff_repeats hmoves, hmany, and_assoc, exists_and_left]
  refine ⟨hrule, fun hcons hnil vs sp => ?_, fun f h => ?_, fun f => R.ne_failed _ f,
    fun vs sp h => ?_⟩
  -- the nested pairs determine the values, so the rule determines them too
  · rw [hrule]
    constructor
    · exact fun h => ⟨vs, h, rfl⟩
    · rintro ⟨ws, h, hnested⟩
      rwa [← R.nested_injective hcons hnil hnested]
  · exact Parser.manyFrom_ne_failed _ _ _ (Run.mapValue_eq_failed.1 h)
  · obtain ⟨hbegin, hrounds⟩ := (hmany vs sp).1 h
    -- each round leads on by a byte at least
    have hlength := hrounds.add_length_le hmoves
    refine ⟨hrounds, ?_⟩
    rw [Span.length, hbegin]
    omega

/-- One rule, which repeats a letter from `a` to `c`. -/
def letters : Rulebook Unit Unit where
  keys := [()]
  rule _ := ⟨"Letters", .either [.sequence [.range 'a' 'c', .rule ()], .word ""], id⟩
  mem_keys := List.mem_singleton_self

/-- The values of this rule need no conversion. -/
def lettersRule : letters.RepetitionRule () (.range 'a' 'c') := ⟨[], [], rfl⟩

/-- What the loop reads as two letters in a row, the rule reads as nested pairs. -/
theorem run_many_iff_rule_letters :
    letters.CustomFree (.range 'a' 'c') ∧ "abx".utf8ByteSize < 2 ^ 64 ∧
      (∀ (q : Offset) v t, q.val ≤ "abx".utf8ByteSize →
        (letters.run (.range 'a' 'c') ⟨"abx", q⟩).ending = .ok (.done v t) → t.isEmpty = false) ∧
      Function.Injective2 lettersRule.cons ∧ (∀ v rest, lettersRule.cons v rest ≠ lettersRule.nil) ∧
      (letters.run (.many (.range 'a' 'c')) ⟨"abx", 0⟩).ending =
        .ok (.done (.many [.char 'a', .char 'b']) ⟨0, 2, by decide⟩) ∧
      (letters.run (.rule ()) ⟨"abx", 0⟩).ending =
        .ok (.done (.seq [.char 'a', .seq [.char 'b', .word ""]]) ⟨0, 2, by decide⟩) := by
  have hp : letters.CustomFree (.range 'a' 'c') :=
    customFree_of_all (fun _ => rfl) rfl
  have hsize : "abx".utf8ByteSize < 2 ^ 64 := by decide
  -- a range always reads a character
  have hconsumes : ∀ (q : Offset) v t, q.val ≤ "abx".utf8ByteSize →
      (letters.run (.range 'a' 'c') ⟨"abx", q⟩).ending = .ok (.done v t) → t.isEmpty = false :=
    fun q v t _ h => consumes_of_not_nullable hp hsize (fun hnull => by cases hnull) q v t h
  have hmany : (letters.run (.many (.range 'a' 'c')) ⟨"abx", 0⟩).ending =
      .ok (.done (.many [.char 'a', .char 'b']) ⟨0, 2, by decide⟩) := by cbv
  have hcons : Function.Injective2 lettersRule.cons := by
    intro v w rest rest' h
    cases h
    exact ⟨rfl, rfl⟩
  have hnil : ∀ v rest, lettersRule.cons v rest ≠ lettersRule.nil := by
    intro v rest h
    cases h
  obtain ⟨-, hsame, -⟩ := run_many_iff_rule letters () _ lettersRule hp _ hsize hconsumes 0
  exact ⟨hp, hsize, hconsumes, hcons, hnil, hmany, (hsame hcons hnil _ _).1 hmany⟩

end Rulebook

end ParserKit
