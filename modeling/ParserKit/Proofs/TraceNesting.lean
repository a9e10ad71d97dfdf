import Mathlib
import ParserKit.Proofs.FuelIndependence
import ParserKit.Sample.Brackets

/-!
# Nesting of traces

The trace of a run that comes to an answer is a word of properly nested brackets. Entering a rule
opens a bracket, leaving it closes the bracket, and in between stands the nested trace of its body
(`Rulebook.Nested`). How the rule was left is what a run of its body comes to at the offset at
which it was entered, and an action runs right behind each match of its rule and nowhere else.
What a branch or a repetition leaves behind before it is abandoned stays in the trace, so all of
this holds of abandoned attempts as well.

A trace is put together by appending, so every property of traces that appending keeps
(`Trace.Joins`) goes through the loops in the same way (`Run.Leaves`). Only finished runs leave
such traces: a run that stopped has rules that it never left.

## Key results

- `sequenceFrom_leaves`, `choiceFrom_leaves`, `taggedFrom_leaves`, `manyFrom_leaves`: what
  appending keeps, every loop keeps
- `Rulebook.Nested.of_joins`: what the brackets have and appending keeps, nested traces have
- `runWith_leaves_nested`: every finished run leaves a nested trace
-/

namespace ParserKit

variable {α β γ ι κ : Type}

/-! ## Traces of finished runs -/

/-- A property of the empty trace that appending keeps. -/
structure Trace.Joins (T : List Event → Prop) : Prop where
  nil : T []
  append {s t : List Event} : T s → T t → T (s ++ t)

/-- If the run comes to an answer, its trace has the property. -/
def Run.Leaves (T : List Event → Prop) (r : Run β) : Prop :=
  ∀ b, r.ending = .ok b → T r.trace.toList

namespace Run

variable {T : List Event → Prop} {r : Run β}

/-- An answer that was given at once leaves no events. -/
theorem leaves_answer (hT : Trace.Joins T) (b : β) : (Run.answer b).Leaves T := fun _ _ => hT.nil

/-- To close a span leaves no events. -/
theorem leaves_doneAt (hT : Trace.Joins T) (v : α) (span : Except Fault Span) :
    (Run.doneAt v span).Leaves T := by
  intro b hb
  cases span with
  | ok s => exact hT.nil
  | error f => cases hb

/-- A parser of one's own leaves no events. -/
theorem leaves_ofExcept (hT : Trace.Joins T) (x : Except Fault β) : (Run.ofExcept x).Leaves T := by
  intro b hb
  cases x with
  | ok b => exact hT.nil
  | error f => cases hb

/-- A conversion of the answer changes nothing in the trace. -/
theorem Leaves.map (h : r.Leaves T) (f : β → γ) : (r.map f).Leaves T := by
  intro c hc
  cases hr : r.ending with
  | error stop => rw [ending_map, hr] at hc; cases hc
  | ok b => exact h b hr

/-- Gone on from, a run leaves one trace behind the other. -/
theorem Leaves.andThen (hT : Trace.Joins T) {k : β → Run γ} (h : r.Leaves T)
    (hk : ∀ b, r.ending = .ok b → (k b).Leaves T) : (r.andThen k).Leaves T := by
  intro c hc
  obtain ⟨b, hb, hc⟩ := andThen_eq_ok.1 hc
  rw [toList_andThen_of_ok hb]
  exact hT.append (h b hb) (hk b hb c hc)

end Run

namespace Parser

/-- Wherever it finishes in `input`, the parser leaves a trace that has the property. -/
def Leaves (T : List Event → Prop) (input : String) (p : Parser α) : Prop :=
  ∀ o, (p ⟨input, o⟩).Leaves T

variable {T : List Event → Prop} {input : String} {p : Parser α} {ps : List (Parser α)}

/-! ### Terminals -/

/-- Terminals leave no events; the same holds of the next three. -/
theorem endOfInput_leaves (hT : Trace.Joins T) : Leaves T input endOfInput := by
  intro o
  unfold endOfInput
  split <;> exact Run.leaves_answer hT _

theorem symbol_leaves (hT : Trace.Joins T) (x : Char) : Leaves T input (symbol x) := by
  intro o
  unfold symbol
  split
  · split
    · apply Run.leaves_doneAt hT
    · exact Run.leaves_answer hT _
  · exact Run.leaves_answer hT _

theorem range_leaves (hT : Trace.Joins T) (lo hi : Char) : Leaves T input (range lo hi) := by
  intro o
  unfold range
  split
  · split
    · apply Run.leaves_doneAt hT
    · exact Run.leaves_answer hT _
  · exact Run.leaves_answer hT _

theorem word_leaves (hT : Trace.Joins T) (w : String) : Leaves T input (word w) := by
  intro o
  unfold word
  split
  · apply Run.leaves_doneAt hT
  · exact Run.leaves_answer hT _

/-! ### Combinators -/

/-- A sequence leaves the traces of its parts one behind the other. -/
theorem sequenceFrom_leaves (hT : Trace.Joins T) (hps : ∀ p ∈ ps, Leaves T input p)
    (start o : Offset) : (sequenceFrom start ps ⟨input, o⟩).Leaves T := by
  -- the others run from the end of a match; after a failure nothing more is left
  induction ps generalizing o with
  | nil => exact Run.leaves_doneAt hT _ _
  | cons p ps ih =>
    refine (hps p List.mem_cons_self o).andThen hT fun x _ => ?_
    cases x with
    | done v s => exact (ih (fun q hq => hps q (List.mem_cons_of_mem p hq)) s.stop).map _
    | failed f => exact Run.leaves_answer hT _

/-- The traces of the branches that failed stay. -/
theorem choiceFrom_leaves (hT : Trace.Joins T) (hps : ∀ p ∈ ps, Leaves T input p)
    (o furthest : Offset) : (choiceFrom ⟨input, o⟩ furthest ps).Leaves T := by
  induction ps generalizing furthest with
  | nil => exact Run.leaves_answer hT _
  | cons p ps ih =>
    refine (hps p List.mem_cons_self o).andThen hT fun x _ => ?_
    cases x with
    | done v s => exact Run.leaves_answer hT _
    | failed f => exact ih (fun q hq => hps q (List.mem_cons_of_mem p hq)) _

/-- The same for a choice from its start. -/
theorem choice_leaves (hT : Trace.Joins T) (hps : ∀ p ∈ ps, Leaves T input p) :
    Leaves T input (choice ps) := by
  intro o
  rw [choice_eq_choiceFrom]
  exact choiceFrom_leaves hT hps o _

/-- The traces of the branches of a tagged choice stay as well. -/
theorem taggedFrom_leaves (hT : Trace.Joins T) {alternatives : List (String × Parser α)}
    (hps : ∀ a ∈ alternatives, Leaves T input a.2) (o furthest : Offset) :
    (taggedFrom ⟨input, o⟩ furthest alternatives).Leaves T := by
  induction alternatives generalizing furthest with
  | nil => exact Run.leaves_answer hT _
  | cons a alternatives ih =>
    obtain ⟨t, p⟩ := a
    refine (hps (t, p) List.mem_cons_self o).andThen hT fun x _ => ?_
    cases x with
    | done v s => exact Run.leaves_answer hT _
    | failed f => exact (ih (fun a ha => hps a (List.mem_cons_of_mem _ ha)) _).map _

/-- So does the trace of the attempt that ends a repetition. -/
theorem manyFrom_leaves (hT : Trace.Joins T) (hp : Leaves T input p) (start o : Offset) :
    (manyFrom p start ⟨input, o⟩).Leaves T := by
  -- only a match that leads further has another round behind it
  induction o using Offset.forward_induction with
  | further o ih =>
    rw [manyFrom]
    refine (hp o).andThen hT fun x _ => ?_
    cases x with
    | failed f => exact Run.leaves_doneAt hT _ _
    | done v s =>
      dsimp only
      split
      · rename_i hmoves
        exact (ih s.stop hmoves).map _
      · exact Run.leaves_doneAt hT _ _

end Parser

/-! ## Actions in a trace -/

/-- Whether the event is that of leaving the rule with a span. -/
def Event.isLeft (name : String) : Event → Bool
  | .left rule _ => rule == name
  | _ => false

namespace Trace

/-- Wherever an action stands in the events, it stands right behind a match of its rule. -/
def ActsBehindMatch (events : List Event) : Prop :=
  ∀ before name after, events = before ++ .acted name :: after →
    ∃ before' s, before = before' ++ [.left name s]

/-- One event that is no action. -/
private theorem actsBehindMatch_single {e : Event} (he : ∀ name, e ≠ .acted name) :
    ActsBehindMatch [e] := by
  intro before name after h
  cases before with
  | nil => exact absurd (List.cons.inj h).1 (he name)
  | cons d before => simp at h

/-- A match with the action behind it. -/
private theorem actsBehindMatch_match (rule : String) (s : Span) :
    ActsBehindMatch [.left rule s, .acted rule] := by
  intro before name after h
  -- the action can only be the second of the two events
  rcases before with _ | ⟨d, _ | ⟨d', before⟩⟩
  · simp at h
  · obtain ⟨rfl, rfl, -⟩ : .left rule s = d ∧ rule = name ∧ _ := by simpa using h
    exact ⟨[], s, rfl⟩
  · simp at h

/-- In joined traces, an action still stands behind the match it stood behind. -/
private theorem joins_actsBehindMatch : Joins ActsBehindMatch where
  nil := by
    intro before name after h
    simp at h
  append {es fs} hes hfs := by
    intro before name after h
    -- the two traces are cut where the action stands
    rcases List.append_eq_append_iff.1 h with ⟨mid, hbefore, hmid⟩ | ⟨mid, hes', hmid⟩
    · -- the action stands in the second trace
      obtain ⟨before', s, rfl⟩ := hfs mid name after hmid
      exact ⟨es ++ before', s, by rw [hbefore, List.append_assoc]⟩
    · cases mid with
      | nil =>
        -- no match stands before an action that begins the second trace
        obtain ⟨before', s, hnil⟩ := hfs [] name after (by simpa using hmid.symm)
        simp at hnil
      | cons e mid =>
        obtain ⟨rfl, -⟩ : Event.acted name = e ∧ _ := by simpa using hmid
        exact hes before name mid hes'

/-- The action of each rule ran as often as the rule was left with a span. -/
def ActsPerMatch (events : List Event) : Prop :=
  ∀ name, actions name events = events.countP (Event.isLeft name)

/-- In joined traces, actions and matches are counted together. -/
private theorem joins_actsPerMatch : Joins ActsPerMatch where
  nil := fun _ => rfl
  append {es fs} hes hfs := by
    intro name
    have he := hes name
    have hf := hfs name
    simp only [actions, List.count_append, List.countP_append] at *
    omega

/-- A match with the action behind it counts once for both. -/
private theorem actsPerMatch_match (rule : String) (s : Span) :
    ActsPerMatch [.left rule s, .acted rule] := by
  intro name
  by_cases hrule : rule = name <;> simp [actions, Event.isLeft, hrule]

end Trace

/-! ## Nested traces -/

namespace Rulebook

/-- A properly nested trace of a run in `input`. Where a rule was left with a span, a run of its
    body at the offset where the rule was entered reads that span, and the action follows; where
    it was left failing, such a run fails with that failure. -/
inductive Nested (book : Rulebook ι κ) (input : String) : List Event → Prop
  | nil : Nested book input []
  | mapped {after : List Event} : Nested book input after → Nested book input (.mapped :: after)
  | tried {label : String} {o : Offset} {after : List Event} :
      Nested book input after → Nested book input (.tried label o :: after)
  | left {i : ι} {o : Offset} {v : Value κ} {s : Span} {inside after : List Event} :
      (book.run (book.rule i).body ⟨input, o⟩).ending = .ok (.done v s) →
      Nested book input inside → Nested book input after →
      Nested book input (.entered (book.rule i).name o ::
        (inside ++ .left (book.rule i).name s :: .acted (book.rule i).name :: after))
  | leftFailing {i : ι} {o : Offset} {f : Failure} {inside after : List Event} :
      (book.run (book.rule i).body ⟨input, o⟩).ending = .ok (.failed f) →
      Nested book input inside → Nested book input after →
      Nested book input (.entered (book.rule i).name o ::
        (inside ++ .leftFailing (book.rule i).name f :: after))

variable {book : Rulebook ι κ} {input : String}

/-- One nested trace behind another is nested. -/
theorem Nested.append {s t : List Event} (hs : book.Nested input s) (ht : book.Nested input t) :
    book.Nested input (s ++ t) := by
  -- the brackets of the first trace close before the second begins
  induction hs with
  | nil => exact ht
  | mapped _ ih => exact .mapped ih
  | tried _ ih => exact .tried ih
  | left hrun hinside _ _ ih => simpa using Nested.left hrun hinside ih
  | leftFailing hrun hinside _ _ ih => simpa using Nested.leftFailing hrun hinside ih

/-- Nestedness is kept by appending. -/
theorem joins_nested (book : Rulebook ι κ) (input : String) :
    Trace.Joins (book.Nested input) := ⟨.nil, .append⟩

/-- A property that appending keeps holds of a nested trace if it holds of the events in it, an
    action taken together with the match that it follows. -/
theorem Nested.of_joins {T : List Event → Prop} (hT : Trace.Joins T) (hmapped : T [.mapped])
    (htried : ∀ label o, T [.tried label o]) (hentered : ∀ name o, T [.entered name o])
    (hleft : ∀ name s, T [.left name s, .acted name])
    (hleftFailing : ∀ name f, T [.leftFailing name f]) {events : List Event}
    (h : book.Nested input events) : T events := by
  induction h with
  | nil => exact hT.nil
  | mapped _ ih => exact hT.append hmapped ih
  | tried _ ih => exact hT.append (htried _ _) ih
  | left _ _ _ ihinside ihafter =>
    exact hT.append (hentered _ _) (hT.append ihinside (hT.append (hleft _ _) ihafter))
  | leftFailing _ _ _ ihinside ihafter =>
    exact hT.append (hentered _ _) (hT.append ihinside (hT.append (hleftFailing _ _) ihafter))

/-- In a nested trace the action of a rule ran as often as the rule was left with a span. -/
theorem Nested.actsPerMatch {events : List Event} (h : book.Nested input events) :
    Trace.ActsPerMatch events :=
  h.of_joins Trace.joins_actsPerMatch (fun _ => rfl) (fun _ _ _ => rfl) (fun _ _ _ => rfl)
    Trace.actsPerMatch_match fun _ _ _ => rfl

/-- In a nested trace no action runs but behind a match of its rule. -/
theorem Nested.actsBehindMatch {events : List Event} (h : book.Nested input events) :
    Trace.ActsBehindMatch events :=
  h.of_joins Trace.joins_actsBehindMatch (Trace.actsBehindMatch_single nofun)
    (fun _ _ => Trace.actsBehindMatch_single nofun)
    (fun _ _ => Trace.actsBehindMatch_single nofun) Trace.actsBehindMatch_match
    fun _ _ => Trace.actsBehindMatch_single nofun

/-! ## Runs leave nested traces -/

/-- A rule whose body leaves a nested trace closes the bracket that it opens. -/
theorem named_leaves_nested {i : ι} {p : Parser (Value κ)}
    (hp : p.Leaves (book.Nested input) input)
    (hrun : ∀ o x, (p ⟨input, o⟩).ending = .ok x →
      (book.run (book.rule i).body ⟨input, o⟩).ending = .ok x) :
    (Parser.named (book.rule i).name (book.rule i).action p).Leaves (book.Nested input) input := by
  intro o y hy
  -- the rule is left as its body came out, and the bracket is closed behind the trace of it
  obtain ⟨x, hx, hy⟩ := Run.andThen_eq_ok.1 hy
  have hinside : book.Nested input (p ⟨input, o⟩).trace.toList := hp o x hx
  rw [Parser.named, Run.toList_after, Run.toList_andThen_of_ok hx]
  cases x with
  | done v s => simpa using Nested.left (hrun o _ hx) hinside .nil
  | failed f => simpa using Nested.leftFailing (hrun o _ hx) hinside .nil

/-- A conversion adds an event of its own, behind a match. -/
theorem mapped_leaves_nested {p : Parser (Value κ)} (hp : p.Leaves (book.Nested input) input)
    (f : Value κ → Value κ) : (Parser.mapped f p).Leaves (book.Nested input) input := by
  refine fun o => (hp o).andThen (joins_nested book input) fun x _ => ?_
  cases x with
  | done v s => exact fun _ _ => .mapped .nil
  | failed e => exact Run.leaves_answer (joins_nested book input) _

/-- An attempt is recorded before what is tried. -/
theorem watched_leaves_nested {p : Parser (Value κ)} (hp : p.Leaves (book.Nested input) input)
    (label : String) : (Parser.watched label p).Leaves (book.Nested input) input := by
  intro o x hx
  rw [Parser.watched, Run.toList_after]
  exact .tried (hp o x hx)

/-- Every run that finishes leaves a nested trace. -/
theorem runWith_leaves_nested (book : Rulebook ι κ) (input : String) (n : Nat)
    (g : Grammar ι κ) : (book.runWith n g).Leaves (book.Nested input) input := by
  have hT := joins_nested book input
  -- on the fuel, and within it on the grammar: a child has the same fuel, the body of a rule one
  -- less
  induction n, g using depth_induction book with
  | node n g ihchild ihbody =>
    cases g with
    | endOfInput => exact fun o => (Parser.endOfInput_leaves hT o).map _
    | symbol x => exact fun o => (Parser.symbol_leaves hT x o).map _
    | range lo hi => exact fun o => (Parser.range_leaves hT lo hi o).map _
    | word w => exact fun o => (Parser.word_leaves hT w o).map _
    | sequence items =>
      rw [runWith_sequence]
      exact fun o => (Parser.sequenceFrom_leaves hT (List.forall_mem_map.2 ihchild) o o).map _
    | either branches =>
      rw [runWith_either]
      exact Parser.choice_leaves hT (List.forall_mem_map.2 ihchild)
    | oneOf form types branches =>
      rw [runWith_oneOf]
      have hbranches : ∀ a ∈ types.zip (branches.map (book.runWith n)),
          a.2.Leaves (book.Nested input) input := fun a ha =>
        List.forall_mem_map.2 ihchild a.2 (List.of_mem_zip ha).2
      exact fun o => (Parser.taggedFrom_leaves hT hbranches o o).map _
    | many item =>
      have hitem := ihchild item (List.mem_singleton_self item)
      exact fun o => (Parser.manyFrom_leaves hT hitem o o).map _
    | map f inner => exact mapped_leaves_nested (ihchild inner (List.mem_singleton_self inner)) f
    | watch label inner =>
      exact watched_leaves_nested (ihchild inner (List.mem_singleton_self inner)) label
    | custom read => exact fun o => Run.leaves_ofExcept hT _
    | rule i =>
      cases n with
      | zero =>
        -- a rule that is not entered comes to no answer
        intro o x hx
        cases hx
      | succ n =>
        exact named_leaves_nested (ihbody n i rfl rfl) fun o x hx => ending_run_eq_ok hx

/-- The trace of a run that comes to an answer, custom parsers or not. It is properly nested, and
    each way of leaving a rule is what a run of the body comes to at the offset at which the rule
    was entered. The action of each rule ran as often as the rule was left with a span, and it
    never ran but right behind such a match. -/
theorem run_trace_nested (book : Rulebook ι κ) (g : Grammar ι κ) (c : Cursor)
    (x : Outcome (Value κ)) (hx : (book.run g c).ending = .ok x) :
    book.Nested c.input (book.run g c).trace.toList ∧
    (∀ name, Trace.actions name (book.run g c).trace.toList =
      (book.run g c).trace.toList.countP (Event.isLeft name)) ∧
    Trace.ActsBehindMatch (book.run g c).trace.toList := by
  -- nestedness is the one invariant; the two counts of actions follow from it
  have hnested : book.Nested c.input (book.run g c).trace.toList :=
    runWith_leaves_nested book c.input book.depthBound g c.offset x hx
  exact ⟨hnested, hnested.actsPerMatch, hnested.actsBehindMatch⟩

/-- A pair of curly brackets is read after the round ones were tried in vain, outside of it and
    inside. The action of a rule that was left failing did not run. -/
theorem run_trace_nested_curly :
    (Sample.BracketRule.book.run (.rule .paren) ⟨"\x7b\x7d", 0⟩).ending =
      .ok (.done (.made (.curly [])) ⟨0, 2, by decide⟩) ∧
    Sample.BracketRule.book.Nested "\x7b\x7d"
      [.entered "Paren" 0,
        .entered "RoundRule" 0, .leftFailing "RoundRule" (.expecting (.symbol '(') 0),
        .entered "CurlyRule" 0,
          .entered "Paren" 1,
            .entered "RoundRule" 1, .leftFailing "RoundRule" (.expecting (.symbol '(') 1),
            .entered "CurlyRule" 1, .leftFailing "CurlyRule" (.expecting (.symbol '\x7b') 1),
          .leftFailing "Paren" (.expecting .alternative 1),
        .left "CurlyRule" ⟨0, 2, by decide⟩, .acted "CurlyRule",
      .left "Paren" ⟨0, 2, by decide⟩, .acted "Paren"] := by
  have hends : (Sample.BracketRule.book.runWith 4 (.rule .paren) ⟨"\x7b\x7d", 0⟩).ending =
      .ok (.done (.made (.curly [])) ⟨0, 2, by decide⟩) := by cbv
  have htrace : (Sample.BracketRule.book.runWith 4 (.rule .paren) ⟨"\x7b\x7d", 0⟩).trace.toList =
      [.entered "Paren" 0,
        .entered "RoundRule" 0, .leftFailing "RoundRule" (.expecting (.symbol '(') 0),
        .entered "CurlyRule" 0,
          .entered "Paren" 1,
            .entered "RoundRule" 1, .leftFailing "RoundRule" (.expecting (.symbol '(') 1),
            .entered "CurlyRule" 1, .leftFailing "CurlyRule" (.expecting (.symbol '\x7b') 1),
          .leftFailing "Paren" (.expecting .alternative 1),
        .left "CurlyRule" ⟨0, 2, by decide⟩, .acted "CurlyRule",
      .left "Paren" ⟨0, 2, by decide⟩, .acted "Paren"] := by cbv
  -- a run that finished with less fuel is the run
  have hrun : Sample.BracketRule.book.runWith 4 (.rule .paren) ⟨"\x7b\x7d", 0⟩ =
      Sample.BracketRule.book.run (.rule .paren) ⟨"\x7b\x7d", 0⟩ := runWith_eq_run (by simp [hends])
  rw [hrun] at hends
  refine ⟨hends, ?_⟩
  rw [← htrace, hrun]
  exact (run_trace_nested _ _ _ _ hends).1

end Rulebook

end ParserKit
