import ParserKit.Grammar.Custom
import ParserKit.Proofs.OrderedChoice

/-!
# Composites of any parsers

A parser of one's own may report any span and any failure. What the composites make of such
parsers is described without asking anything of them. Parsers that match one after the other, each
run at the end of the match before, are *linked* (`Parser.Linked`); a sequence and a repetition are
told by the matches that link their parts, wherever these lead. Until the end of the whole is
compared with its start, no offset is compared with any other, but for the one test by which a
repetition finds that a match leads no further.

## Key results

- `Linked.append`, `linked_or_breaks`: linked parsers, and what keeps parsers from being linked
- `Linked.sequenceFrom_eq`, `Breaks.sequenceFrom_eq`: what a sequence does
- `Rulebook.run_sequence_of_linked`, `Rulebook.run_sequence_of_breaks`: the same for grammars
- `Parser.manyFrom_rounds`: what a repetition does
- `Failure.ofChoice_iff`: what a failed choice says

Sequences, repetitions and both kinds of choices are put together last.
-/

namespace ParserKit

variable {α β : Type}

/-! ## Failures of choices -/

/-- The span of how far a failure reaches is no fault, whatever parser the failure comes from: the
    bound that it takes is kept by every way to make a failure. -/
theorem Failure.between_reach (f : Failure) :
    Span.between f.blamed f.furthest = .ok f.reach := Span.between_eq_ok.2 ⟨rfl, rfl⟩

/-- The failure of a choice that began at `o` and whose parsers failed with `es`: it blames the
    start and comes as far as they did, but never less far than the start. -/
structure Failure.OfChoice (f : Failure) (o : Offset) (es : List Failure) : Prop where
  expected : f.expected = .alternative
  blamed : f.blamed = o
  furthest : f.furthest.val = (es.map fun e => e.furthest.val).foldr max o.val

/-- The failure that is told by its parts is the one that the choice makes. -/
theorem Failure.ofChoice_iff {f : Failure} {c : Cursor} {es : List Failure} :
    f.OfChoice c.offset es ↔ f = Parser.noAlternative c (furthestOf c.offset es) := by
  -- the start counts as reached, so the furthest offset is the maximum over the failures and it
  have hfurthest : (Parser.noAlternative c (furthestOf c.offset es)).furthest =
      furthestOf c.offset es := Parser.furthest_noAlternative (le_furthestOf _ _)
  constructor
  · rintro ⟨hexpected, hblamed, h⟩
    rw [← val_furthestOf] at h
    -- a failure is its blamed offset, its furthest offset and what it expected
    obtain ⟨b, q, e, _⟩ := f
    obtain rfl : e = .alternative := hexpected
    obtain rfl : b = c.offset := hblamed
    obtain rfl : q = (Parser.noAlternative c (furthestOf c.offset es)).furthest :=
      (Fin.ext h).trans hfurthest.symm
    rfl
  · rintro rfl
    exact ⟨rfl, rfl, by rw [hfurthest, val_furthestOf]⟩

/-! ## Closing a span -/

/-- The run reads `v` from `start` to `stop`, unless `stop` is before `start`: then it is the fault
    that the span would be reversed. -/
structure Run.Closes (r : Run (Outcome α)) (v : α) (start stop : Offset) : Prop where
  reversed : stop.val < start.val → r.ending = .error (.fault (.spanReversed start stop))
  reads : ∀ h : start.val ≤ stop.val, r.ending = .ok (.done v ⟨start, stop, h⟩)

namespace Run

/-- A run that ends by closing its span closes it. -/
theorem closes_of_ending {r : Run (Outcome α)} {v : α} {start stop : Offset}
    (h : r.ending = (doneAt v (Span.between start stop)).ending) : r.Closes v start stop where
  reversed hlt := by
    rw [h, Span.between, dif_neg (Nat.not_le_of_lt hlt)]
    rfl
  reads hle := by
    rw [h, Span.between, dif_pos hle]
    rfl

/-- To close a span leaves no events. -/
theorem toList_doneAt (v : α) (span : Except Fault Span) :
    (doneAt v span).trace.toList = [] := by
  cases span <;> rfl

/-- The value may be converted before the span is closed. -/
theorem ending_doneAt_map (v : α) (span : Except Fault Span) (f : α → β) :
    ((doneAt v span).ending.map (Outcome.map f)) = (doneAt (f v) span).ending := by
  cases span <;> rfl

end Run

namespace Parser

/-! ## Linked parsers -/

/-- `Linked input ps o ms es e`: the parsers `ps` match one after the other from the offset `o` of
    `input` on, each run at the end of the match before. Their matches are `ms`, they record the
    events `es`, and the last match ends at `e`. -/
inductive Linked (input : String) :
    List (Parser α) → Offset → List (α × Span) → List Event → Offset → Prop
  | nil (o : Offset) : Linked input [] o [] [] o
  | cons {p : Parser α} {ps : List (Parser α)} {o e : Offset} {v : α} {s : Span}
      {ms : List (α × Span)} {es : List Event} :
      (p ⟨input, o⟩).ending = .ok (.done v s) → Linked input ps s.stop ms es e →
      Linked input (p :: ps) o ((v, s) :: ms) ((p ⟨input, o⟩).trace.toList ++ es) e

/-- `Breaks input ps o es x`: the parsers `ps` match one after the other, each run at the end of the
    match before, until one of them fails with `x` or stops for `x`. Up to then they record the
    events `es`. -/
inductive Breaks (input : String) :
    List (Parser α) → Offset → List Event → Except Stop Failure → Prop
  | here {p : Parser α} {ps : List (Parser α)} {o : Offset} {x : Except Stop Failure} :
      (p ⟨input, o⟩).ending = x.map .failed →
      Breaks input (p :: ps) o (p ⟨input, o⟩).trace.toList x
  | later {p : Parser α} {ps : List (Parser α)} {o : Offset} {v : α} {s : Span}
      {es : List Event} {x : Except Stop Failure} :
      (p ⟨input, o⟩).ending = .ok (.done v s) → Breaks input ps s.stop es x →
      Breaks input (p :: ps) o ((p ⟨input, o⟩).trace.toList ++ es) x

variable {input : String} {p : Parser α} {ps qs : List (Parser α)} {o e e' start : Offset}
  {ms ms' : List (α × Span)} {es es' : List Event} {x : Except Stop Failure}

/-- A run reads something, or fails, or stops. -/
theorem done_or_breaks (p : Parser α) (c : Cursor) :
    (∃ v s, (p c).ending = .ok (.done v s)) ∨
      ∃ x : Except Stop Failure, (p c).ending = x.map .failed := by
  rcases (p c).ending with stop | ⟨v, s⟩ | f
  · exact .inr ⟨.error stop, rfl⟩
  · exact .inl ⟨v, s, rfl⟩
  · exact .inr ⟨.ok f, rfl⟩

/-- Parsers are linked from an offset on, or one of them keeps them from it. -/
theorem linked_or_breaks (input : String) (ps : List (Parser α)) (o : Offset) :
    (∃ ms es e, Linked input ps o ms es e) ∨ ∃ es x, Breaks input ps o es x := by
  -- the first parser decides, or the others do from the end of its match on
  induction ps generalizing o with
  | nil => exact .inl ⟨_, _, _, .nil o⟩
  | cons p ps ih =>
    rcases done_or_breaks p ⟨input, o⟩ with ⟨v, s, hp⟩ | ⟨x, hp⟩
    · rcases ih s.stop with ⟨ms, es, e, h⟩ | ⟨es, x, h⟩
      · exact .inl ⟨_, _, _, .cons hp h⟩
      · exact .inr ⟨_, _, .later hp h⟩
    · exact .inr ⟨_, _, .here hp⟩

/-- Linked parsers go on to others where they come to. -/
theorem Linked.append (h : Linked input ps o ms es e) (h' : Linked input qs e ms' es' e') :
    Linked input (ps ++ qs) o (ms ++ ms') (es ++ es') e' := by
  -- the events of the first parser stand before all others
  induction h with
  | nil => exact h'
  | cons hp _ ih =>
    rw [List.append_assoc]
    exact .cons hp (ih h')

/-- Linked parsers go on to where others break off. -/
theorem Linked.append_breaks (h : Linked input ps o ms es e) (h' : Breaks input qs e es' x) :
    Breaks input (ps ++ qs) o (es ++ es') x := by
  induction h with
  | nil => exact h'
  | cons hp _ ih =>
    rw [List.append_assoc]
    exact .later hp (ih h')

/-- What stands behind a parser that does not match is not run. -/
theorem Breaks.append (h : Breaks input ps o es x) (qs : List (Parser α)) :
    Breaks input (ps ++ qs) o es x := by
  induction h with
  | here hp => exact .here hp
  | later hp _ ih => exact .later hp ih

/-- The parsers before the first that does not match are linked, and where they come to, it is
    run. -/
theorem Breaks.exists_first (h : Breaks input ps o es x) :
    ∃ before p after ms es' e, ps = before ++ p :: after ∧ Linked input before o ms es' e ∧
      (p ⟨input, e⟩).ending = x.map .failed ∧ es = es' ++ (p ⟨input, e⟩).trace.toList := by
  induction h with
  | @here p ps o x hp => exact ⟨[], p, ps, [], [], o, rfl, .nil o, hp, rfl⟩
  | @later p ps o v s es x hp _ ih =>
    obtain ⟨before, q, after, ms, es', e, rfl, hlinked, hq, rfl⟩ := ih
    exact ⟨p :: before, q, after, _, _, e, rfl, .cons hp hlinked, hq,
      (List.append_assoc _ _ _).symm⟩

/-! ## Sequences -/

/-- A sequence of linked parsers reads their values, and its span ends where they come to. -/
theorem Linked.sequenceFrom_eq (h : Linked input ps o ms es e) (start : Offset) :
    (sequenceFrom start ps ⟨input, o⟩).ending =
        (Run.doneAt (ms.map (·.1)) (Span.between start e)).ending ∧
      (sequenceFrom start ps ⟨input, o⟩).trace.toList = es := by
  -- the loop puts the value of each match before those of the rest
  induction h with
  | nil o => exact ⟨rfl, Run.toList_doneAt _ _⟩
  | cons hp _ ih =>
    obtain ⟨hending, htrace⟩ := ih
    rw [sequenceFrom]
    constructor
    · rw [Run.ending_andThen, hp, List.map_cons, ← Run.ending_doneAt_map, ← hending]
      rfl
    · rw [Run.toList_andThen_of_ok hp, ← htrace]
      rfl

/-- A sequence ends with the first parser that does not match. -/
theorem Breaks.sequenceFrom_eq (h : Breaks input ps o es x) (start : Offset) :
    (sequenceFrom start ps ⟨input, o⟩).ending = x.map .failed ∧
      (sequenceFrom start ps ⟨input, o⟩).trace.toList = es := by
  -- the first parser that does not match ends the sequence, and a match before it only adds its
  -- events
  induction h with
  | @here p ps o x hp =>
    rw [sequenceFrom]
    cases x with
    | error stop =>
      have hstop : (p ⟨input, o⟩).ending = .error stop := hp
      exact ⟨by rw [Run.ending_andThen, hstop]; rfl, Run.toList_andThen_of_error hstop _⟩
    | ok f =>
      have hfails : (p ⟨input, o⟩).ending = .ok (.failed f) := hp
      refine ⟨by rw [Run.ending_andThen, hfails]; rfl, ?_⟩
      rw [Run.toList_andThen_of_ok hfails]
      exact List.append_nil _
  | @later p ps o v s es x hp _ ih =>
    obtain ⟨hending, htrace⟩ := ih
    rw [sequenceFrom]
    constructor
    · rw [Run.ending_andThen, hp]
      simp only [Except.bind, Run.mapValue, Run.ending_map, Cursor.moveTo, hending]
      cases x <;> rfl
    · rw [Run.toList_andThen_of_ok hp, ← htrace]
      rfl

/-! ## Repetitions -/

/-- The offsets that the matches lead through: the first one, and where each match ends. -/
def stations (o : Offset) (ms : List (α × Span)) : List Offset := o :: ms.map fun m => m.2.stop

/-- Each offset is further on than the ones before. -/
def Climbing (os : List Offset) : Prop := os.Pairwise fun a b => a.val < b.val

/-- An offset before the first of others that climb, and they climb from there. -/
theorem climbing_cons_cons {a b : Offset} {os : List Offset} (h : a.val < b.val)
    (hos : Climbing (b :: os)) : Climbing (a :: b :: os) := by
  refine List.pairwise_cons.2 ⟨List.forall_mem_cons.2 ⟨h, fun q hq => ?_⟩, hos⟩
  exact Nat.lt_trans h ((List.pairwise_cons.1 hos).1 q hq)

/-- How a repetition from `start` on ends that is now at `o`: some matches of `p` are linked, and
    either `p` does not match where they come to, each having led further, or the last of them has
    led no further than from where it was tried. -/
inductive Rounds (p : Parser α) (input : String) (start o : Offset) (r : Run (Outcome (List α))) :
    Prop
  | breaks (ms : List (α × Span)) {es : List Event} {e : Offset} (x : Except Stop Failure) :
      Linked input (List.replicate ms.length p) o ms es e → Climbing (stations o ms) →
      (p ⟨input, e⟩).ending = x.map .failed →
      r.ending = x.bind (fun _ => (Run.doneAt (ms.map (·.1)) (Span.between start e)).ending) →
      r.trace.toList = es ++ (p ⟨input, e⟩).trace.toList → Rounds p input start o r
  | stays (ms : List (α × Span)) {es : List Event} {e q : Offset} :
      Linked input (List.replicate ms.length p) o ms es e → Climbing (stations o ms).dropLast →
      (stations o ms).dropLast.getLast? = some q → e.val ≤ q.val →
      r.ending = (Run.doneAt (ms.map (·.1)) (Span.between start e)).ending →
      r.trace.toList = es → Rounds p input start o r

/-- One round more, in front. -/
theorem Rounds.cons {r : Run (Outcome (List α))} {v : α} {s : Span}
    (hp : (p ⟨input, o⟩).ending = .ok (.done v s)) (hmoves : o.val < s.stop.val)
    (h : Rounds p input start s.stop r) :
    Rounds p input start o ⟨(p ⟨input, o⟩).trace ++ r.trace, (r.mapValue (v :: ·)).ending⟩ := by
  cases h with
  | @breaks ms es e x hlinked hclimbs hbreaks hending htrace =>
    -- the new round begins before all that climb, and led further
    have hfurther := climbing_cons_cons hmoves hclimbs
    refine .breaks ((v, s) :: ms) x (.cons hp hlinked) hfurther hbreaks ?_ ?_
    · rw [Run.mapValue, Run.ending_map, hending]
      cases x with
      | error stop => rfl
      | ok f => exact Run.ending_doneAt_map _ _ _
    · rw [Trace.toList_append, htrace, List.append_assoc]
  | @stays ms es e q hlinked hclimbs hlast hstays hending htrace =>
    -- a repetition that stays has at least one match, so the last but one is not the new start
    obtain _ | ⟨m, ms⟩ := ms
    · cases hlast
    · have hfurther := climbing_cons_cons hmoves hclimbs
      refine .stays ((v, s) :: m :: ms) (.cons hp hlinked) hfurther hlast hstays ?_ ?_
      · rw [Run.mapValue, Run.ending_map, hending]
        exact Run.ending_doneAt_map _ _ _
      · rw [Trace.toList_append, htrace]

/-- A repetition that began at `start` and is now at `o` goes on in one of the two ways. -/
theorem manyFrom_rounds (p : Parser α) (start o : Offset) (input : String) :
    Rounds p input start o (manyFrom p start ⟨input, o⟩) := by
  -- only a match that leads further has another round behind it
  induction o using Offset.forward_induction with
  | further o ih =>
    rw [manyFrom]
    -- the parser stops, or it matches and leads on or not, or it fails
    rcases hp : (p ⟨input, o⟩).ending with stop | ⟨v, s⟩ | f
    · refine .breaks [] (.error stop) (.nil o) (List.pairwise_singleton _ _) hp ?_ ?_
      · rw [Run.ending_andThen, hp]
        rfl
      · exact Run.toList_andThen_of_error hp _
    · by_cases hmoves : o.val < s.stop.val
      · have hrounds := Rounds.cons hp hmoves (ih s.stop hmoves)
        simp only [Run.andThen, hp, if_pos hmoves]
        exact hrounds
      · have hlinked : Linked input [p] o [(v, s)] _ s.stop := .cons hp (.nil s.stop)
        have hle : s.stop.val ≤ o.val := Nat.le_of_not_lt hmoves
        refine .stays [(v, s)] hlinked (List.pairwise_singleton _ _) rfl hle ?_ ?_
        · rw [Run.ending_andThen, hp]
          simp only [Except.bind, if_neg hmoves]
          rfl
        · rw [Run.toList_andThen_of_ok hp]
          simp only [if_neg hmoves, Run.toList_doneAt]
    · refine .breaks [] (.ok f) (.nil o) (List.pairwise_singleton _ _) hp ?_ ?_
      · rw [Run.ending_andThen, hp]
        rfl
      · rw [Run.toList_andThen_of_ok hp]
        simp only [Run.toList_doneAt, List.nil_append, List.append_nil]

end Parser

/-! ## Sequences of grammars -/

namespace Rulebook

open ParserKit.Parser (Linked Breaks)

variable {ι κ : Type} {book : Rulebook ι κ} {items : List (Grammar ι κ)} {input : String}
  {o e : Offset} {ms : List (Value κ × Span)} {es : List Event} {x : Except Stop Failure}

/-- A sequence of grammars that are linked reads their values, up to where they come to. -/
theorem run_sequence_of_linked (h : Linked input (items.map book.run) o ms es e) :
    (book.run (.sequence items) ⟨input, o⟩).ending =
        (Run.doneAt (.seq (ms.map (·.1))) (Span.between o e)).ending ∧
      (book.run (.sequence items) ⟨input, o⟩).trace.toList = es := by
  obtain ⟨hending, htrace⟩ := h.sequenceFrom_eq o
  rw [run_sequence]
  refine ⟨?_, htrace⟩
  rw [Parser.map, Run.mapValue, Run.ending_map, Parser.sequence, hending]
  exact Run.ending_doneAt_map _ _ _

/-- A sequence of grammars ends with the first that does not match. -/
theorem run_sequence_of_breaks (h : Breaks input (items.map book.run) o es x) :
    (book.run (.sequence items) ⟨input, o⟩).ending = x.map .failed ∧
      (book.run (.sequence items) ⟨input, o⟩).trace.toList = es := by
  obtain ⟨hending, htrace⟩ := h.sequenceFrom_eq o
  rw [run_sequence]
  refine ⟨?_, htrace⟩
  rw [Parser.map, Run.mapValue, Run.ending_map, Parser.sequence, hending]
  cases x <;> rfl

end Rulebook

/-! ## All composites -/

namespace Parser

/-- What composites make of any parsers at any offset, wherever the spans of these lead and whatever
    their failures blame.

    - A choice fails exactly if all of its parsers do. Its failure blames its own start, and comes
      as far as the furthest of theirs, or to the start. The same holds of a tagged choice.
    - A sequence runs each of its parsers at the end of the match before. If all of them match, it
      reads their values, and its span goes to the end of the last match, unless that is before its
      start, which is a fault. Else it ends with the first that does not match, in the same failure,
      or in what stopped that parser.
    - A repetition runs its parser at the end of the match before, and all matches but the last lead
      further each time. It ends where the parser fails, or with a match that leads no further, and
      closes its span as a sequence does, or it ends in what stopped the parser. Without a match its
      span is a point.
    - No failure at all, so none of theirs, blames an offset behind the furthest, and the span of
      its reach can be formed. -/
theorem composites_of_any_parsers (input : String) (o : Offset) :
    (∀ (ps : List (Parser α)) f, (choice ps ⟨input, o⟩).ending = .ok (.failed f) ↔
      ∃ es, FailEach ⟨input, o⟩ ps es ∧ f.OfChoice o es) ∧
    (∀ (alternatives : List (String × Parser α)) f,
      (tagged alternatives ⟨input, o⟩).ending = .ok (.failed f) ↔
        ∃ es, FailEach ⟨input, o⟩ (alternatives.map (·.2)) es ∧ f.OfChoice o es) ∧
    (∀ ps : List (Parser α), ∃ ms es e,
      (Linked input ps o ms es e ∧ (sequence ps ⟨input, o⟩).trace.toList = es ∧
        (sequence ps ⟨input, o⟩).Closes (ms.map (·.1)) o e) ∨
      ∃ before p after, ps = before ++ p :: after ∧ Linked input before o ms es e ∧
        (sequence ps ⟨input, o⟩).trace.toList = es ++ (p ⟨input, e⟩).trace.toList ∧
        ((∃ f, (p ⟨input, e⟩).ending = .ok (.failed f) ∧
            (sequence ps ⟨input, o⟩).ending = .ok (.failed f)) ∨
          ∃ stop, (p ⟨input, e⟩).ending = .error stop ∧
            (sequence ps ⟨input, o⟩).ending = .error stop)) ∧
    (∀ p : Parser α, ∃ ms es e, Linked input (List.replicate ms.length p) o ms es e ∧
      Climbing (stations o ms).dropLast ∧
      ((∃ q, (stations o ms).dropLast.getLast? = some q ∧ e.val ≤ q.val) ∧
          (many p ⟨input, o⟩).trace.toList = es ∧
          (many p ⟨input, o⟩).Closes (ms.map (·.1)) o e ∨
        Climbing (stations o ms) ∧
          (many p ⟨input, o⟩).trace.toList = es ++ (p ⟨input, e⟩).trace.toList ∧
          ((∃ f, (p ⟨input, e⟩).ending = .ok (.failed f)) ∧
              (many p ⟨input, o⟩).Closes (ms.map (·.1)) o e ∨
            ∃ stop, (p ⟨input, e⟩).ending = .error stop ∧
              (many p ⟨input, o⟩).ending = .error stop))) ∧
    (∀ (p : Parser α) f, (p ⟨input, o⟩).ending = .ok (.failed f) →
      (many p ⟨input, o⟩).ending = .ok (.done [] (Span.point o))) ∧
    (∀ f : Failure, f.blamed.val ≤ f.furthest.val ∧
      Span.between f.blamed f.furthest = .ok f.reach) := by
  refine ⟨fun ps f => ?_, fun alternatives f => ?_, fun ps => ?_, fun p => ?_, fun p f hp => ?_,
    fun f => ⟨f.blamed_le_furthest, f.between_reach⟩⟩
  -- choices: each parser failed, and the failure is made of theirs
  · rw [choice_eq_failed_iff]
    exact exists_congr fun es => and_congr_right' Failure.ofChoice_iff.symm
  · rw [tagged_eq_failed_iff]
    exact exists_congr fun es => and_congr_right' Failure.ofChoice_iff.symm
  -- sequences: the parsers are linked, or the first that does not match is cut out
  · rcases linked_or_breaks input ps o with ⟨ms, es, e, h⟩ | ⟨es, x, h⟩
    · obtain ⟨hending, htrace⟩ := h.sequenceFrom_eq o
      exact ⟨ms, es, e, .inl ⟨h, htrace, Run.closes_of_ending hending⟩⟩
    · obtain ⟨hending, htrace⟩ := h.sequenceFrom_eq o
      obtain ⟨before, p, after, ms, es', e, rfl, hlinked, hp, rfl⟩ := h.exists_first
      refine ⟨ms, es', e, .inr ⟨before, p, after, rfl, hlinked, htrace, ?_⟩⟩
      cases x with
      | ok f => exact .inl ⟨f, hp, hending⟩
      | error stop => exact .inr ⟨stop, hp, hending⟩
  -- repetitions: the last match leads no further, or the parser does not match where the rounds
  -- come to
  · cases manyFrom_rounds p o o input with
    | stays ms hlinked hclimbs hlast hstays hending htrace =>
      exact ⟨ms, _, _, hlinked, hclimbs,
        .inl ⟨⟨_, hlast, hstays⟩, htrace, Run.closes_of_ending hending⟩⟩
    | breaks ms x hlinked hclimbs hbreaks hending htrace =>
      refine ⟨ms, _, _, hlinked, hclimbs.sublist (List.dropLast_sublist _),
        .inr ⟨hclimbs, htrace, ?_⟩⟩
      -- a failure only ends the repetition; what stops the parser stops it as well
      cases x with
      | ok f => exact .inl ⟨⟨f, hbreaks⟩, Run.closes_of_ending hending⟩
      | error stop => exact .inr ⟨stop, hbreaks, hending⟩
  -- repetitions without a match: the span of none is a point
  · rw [many, manyFrom, Run.ending_andThen, hp]
    exact (Run.closes_of_ending rfl).reads (Nat.le_refl _)

/-- A parser that jumps back makes a sequence a fault, and ends a repetition. -/
example : (sequence [fun c => Run.ofExcept (Custom.wide 3 c),
    fun c => Run.ofExcept (Custom.jump (κ := Unit) 0 1 c)] ⟨"abcd", 2⟩).ending =
      .error (.fault (.spanReversed 2 1)) := by cbv

end Parser

end ParserKit
