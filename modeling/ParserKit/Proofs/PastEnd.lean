import ParserKit.Proofs.FuelIndependence
import ParserKit.Proofs.OffsetSafety

/-!
# Past the end of a text

A cursor may stand past the end of its text. There is nothing to read there, as there is nothing to
read at the end itself, and a parse does not tell one such place from another: at both it reads the
same value from nothing, or it fails at both, or it comes to no outcome at both (`Run.Idle`).
Each terminal is such a parser, and the loops go from one match to the next without leaving the
place, so each combinator makes one of such parsers.

## Key results

- `Run.Idle`: the relation between the runs at two places
- `sequenceFrom_idle`, `choiceFrom_idle`, `taggedFrom_idle`, `manyFrom_idle`: every loop keeps it
- `compositional_idle`: every kind of node keeps it
- `Rulebook.run_idle`: so all grammars have it
-/

namespace ParserKit

variable {α β ι κ : Type}

/-! ## Two runs -/

/-- Both runs read the same value from nothing, the one at `o` and the other at `o'`, or both fail,
    or both stop without an outcome. -/
inductive Run.Idle (o o' : Offset) (r r' : Run (Outcome α)) : Prop
  | done {v : α} : r.ending = .ok (.done v (Span.point o)) →
      r'.ending = .ok (.done v (Span.point o')) → Idle o o' r r'
  | failed {f f' : Failure} : r.ending = .ok (.failed f) → r'.ending = .ok (.failed f') →
      Idle o o' r r'
  | stopped {stop stop' : Stop} : r.ending = .error stop → r'.ending = .error stop' →
      Idle o o' r r'

namespace Run

variable {o o' : Offset} {r r' : Run (Outcome α)}

/-- Only the endings count, not the traces. -/
theorem Idle.of_ending {q q' : Run (Outcome α)} (h : r.Idle o o' r')
    (hq : q.ending = r.ending) (hq' : q'.ending = r'.ending) : q.Idle o o' q' := by
  cases h with
  | done hr hr' => exact .done (hq.trans hr) (hq'.trans hr')
  | failed hr hr' => exact .failed (hq.trans hr) (hq'.trans hr')
  | stopped hr hr' => exact .stopped (hq.trans hr) (hq'.trans hr')

/-- Both runs are gone on from in the same way, from one value or from two failures. -/
theorem Idle.andThen {k k' : Outcome α → Run (Outcome β)} (h : r.Idle o o' r')
    (hdone : ∀ v, (k (.done v (Span.point o))).Idle o o' (k' (.done v (Span.point o'))))
    (hfailed : ∀ f f', (k (.failed f)).Idle o o' (k' (.failed f'))) :
    (r.andThen k).Idle o o' (r'.andThen k') := by
  -- in each way for the two to stand to each other, both continuations see the same
  cases h with
  | @done v hr hr' =>
    refine (hdone v).of_ending ?_ ?_
    · rw [ending_andThen, hr]; rfl
    · rw [ending_andThen, hr']; rfl
  | @failed f f' hr hr' =>
    refine (hfailed f f').of_ending ?_ ?_
    · rw [ending_andThen, hr]; rfl
    · rw [ending_andThen, hr']; rfl
  | @stopped stop stop' hr hr' =>
    have hk : (r.andThen k).ending = .error stop := by rw [ending_andThen, hr]; rfl
    have hk' : (r'.andThen k').ending = .error stop' := by rw [ending_andThen, hr']; rfl
    exact .stopped hk hk'

/-- A conversion of the value is made in both places. -/
theorem Idle.mapValue (h : r.Idle o o' r') (f : α → β) :
    (r.mapValue f).Idle o o' (r'.mapValue f) := by
  cases h with
  | done hr hr' =>
    exact .done (mapValue_eq_done.2 ⟨_, hr, rfl⟩) (mapValue_eq_done.2 ⟨_, hr', rfl⟩)
  | failed hr hr' => exact .failed (mapValue_eq_failed.2 hr) (mapValue_eq_failed.2 hr')
  | @stopped stop stop' hr hr' =>
    have hf : (r.mapValue f).ending = .error stop := by rw [Run.mapValue, ending_map, hr]; rfl
    have hf' : (r'.mapValue f).ending = .error stop' := by rw [Run.mapValue, ending_map, hr']; rfl
    exact .stopped hf hf'

/-- A span from one place to the same covers nothing. -/
theorem idle_doneAt (v : α) :
    (Run.doneAt v (Span.between o o)).Idle o o' (Run.doneAt v (Span.between o' o')) :=
  .done (doneAt_eq_done.2 ⟨Span.between_eq_ok.2 ⟨rfl, rfl⟩, rfl⟩)
    (doneAt_eq_done.2 ⟨Span.between_eq_ok.2 ⟨rfl, rfl⟩, rfl⟩)

end Run

/-! ## Parsers -/

namespace Parser

/-- At the end of the text and anywhere past it, the parser does the same. -/
def Idle (input : String) (p : Parser α) : Prop :=
  ∀ o o' : Offset, input.utf8ByteSize ≤ o.val → input.utf8ByteSize ≤ o'.val →
    (p ⟨input, o⟩).Idle o o' (p ⟨input, o'⟩)

variable {input : String} {o o' : Offset} {p : Parser α}

/-- A conversion of the value does not tell the two places apart. -/
theorem Idle.map (hp : Idle input p) (f : α → β) :
    Idle input (Parser.map f p) := fun o o' ho ho' => (hp o o' ho ho').mapValue f

/-! ### Terminals -/

/-- No character is left at the end. -/
theorem peek_eq_none (ho : input.utf8ByteSize ≤ o.val) : Cursor.peek ⟨input, o⟩ = none := by
  refine Option.eq_none_iff_forall_ne_some.2 fun c hc => ?_
  obtain ⟨cs, hcs⟩ := Text.charAt?_eq_some_iff.1 hc
  have hsum := hcs.add_width
  have hpos := c.utf8Size_pos
  rw [Text.width_cons] at hsum
  dsimp only at hsum
  omega

/-- Failures are not compared, so each place may be blamed by itself. -/
theorem expected_idle (e : Expectation) :
    (expected e ⟨input, o⟩ : Run (Outcome α)).Idle o o' (expected e ⟨input, o'⟩) :=
  .failed rfl rfl

/-- Both places are at the end. -/
theorem endOfInput_idle : Idle input endOfInput := by
  intro o o' ho ho'
  have hended : ∀ q : Offset, input.utf8ByteSize ≤ q.val → Cursor.ended ⟨input, q⟩ = true :=
    fun q hq => decide_eq_true hq
  unfold endOfInput
  rw [if_pos (hended o ho), if_pos (hended o' ho')]
  exact .done rfl rfl

/-- No symbol stands at either place. -/
theorem symbol_idle (x : Char) : Idle input (symbol x) := by
  intro o o' ho ho'
  unfold symbol
  rw [peek_eq_none ho, peek_eq_none ho']
  exact expected_idle _

/-- No character of a range stands at either place. -/
theorem range_idle (lo hi : Char) : Idle input (range lo hi) := by
  intro o o' ho ho'
  unfold range
  rw [peek_eq_none ho, peek_eq_none ho']
  exact expected_idle _

/-- Of all words the empty one is read, which is read anywhere. -/
theorem word_idle (w : String) : Idle input (word w) := by
  intro o o' ho ho'
  -- a word with characters would have to stand before the end
  have hstarts : ∀ q : Offset, input.utf8ByteSize ≤ q.val →
      (Cursor.startsWith ⟨input, q⟩ w = true ↔ w.toList = []) := by
    intro q hq
    unfold Cursor.startsWith
    rw [Text.startsWithAt_iff]
    refine or_iff_left_of_imp ?_
    rintro ⟨cs, hcs⟩
    have hsum := hcs.add_width
    have hle := Text.length_le_width w.toList
    rw [Text.width_append] at hsum
    dsimp only at hsum
    exact List.length_eq_zero_iff.1 (by omega)
  unfold word
  by_cases hw : w.toList = []
  · rw [if_pos ((hstarts o ho).2 hw), if_pos ((hstarts o' ho').2 hw)]
    have hsize : w.utf8ByteSize = 0 := by rw [← Text.width_toList, hw, Text.width_nil]
    rw [reads, reads, hsize, Span.ofLength_eq_ok o.isLt, Span.ofLength_eq_ok o'.isLt]
    exact .done rfl rfl
  · rw [if_neg (mt (hstarts o ho).1 hw), if_neg (mt (hstarts o' ho').1 hw)]
    exact expected_idle _

/-! ### Combinators -/

variable (ho : input.utf8ByteSize ≤ o.val) (ho' : input.utf8ByteSize ≤ o'.val)

include ho ho'

/-- A sequence reads nothing part by part, or fails, at both places. -/
theorem sequenceFrom_idle {ps : List (Parser α)} (hps : ∀ p ∈ ps, Idle input p) :
    (sequenceFrom o ps ⟨input, o⟩).Idle o o' (sequenceFrom o' ps ⟨input, o'⟩) := by
  -- a match reads nothing, so the next part runs in the same place
  induction ps with
  | nil => exact Run.idle_doneAt []
  | cons p ps ih =>
    rw [sequenceFrom, sequenceFrom]
    refine (hps p List.mem_cons_self o o' ho ho').andThen (fun v => ?_) fun f f' => .failed rfl rfl
    exact (ih fun q hq => hps q (List.mem_cons_of_mem p hq)).mapValue _

/-- A choice is decided by the same branch at both places. -/
theorem choiceFrom_idle {ps : List (Parser α)} (hps : ∀ p ∈ ps, Idle input p)
    (furthest furthest' : Offset) :
    (choiceFrom ⟨input, o⟩ furthest ps).Idle o o' (choiceFrom ⟨input, o'⟩ furthest' ps) := by
  induction ps generalizing furthest furthest' with
  | nil => exact .failed rfl rfl
  | cons p ps ih =>
    rw [choiceFrom, choiceFrom]
    refine (hps p List.mem_cons_self o o' ho ho').andThen (fun v => .done rfl rfl) fun f f' => ?_
    exact ih (fun q hq => hps q (List.mem_cons_of_mem p hq)) _ _

/-- So is a tagged choice. -/
theorem taggedFrom_idle {alternatives : List (String × Parser α)}
    (hps : ∀ a ∈ alternatives, Idle input a.2) (furthest furthest' : Offset) :
    (taggedFrom ⟨input, o⟩ furthest alternatives).Idle o o'
      (taggedFrom ⟨input, o'⟩ furthest' alternatives) := by
  induction alternatives generalizing furthest furthest' with
  | nil => exact .failed rfl rfl
  | cons alternative alternatives ih =>
    obtain ⟨t, p⟩ := alternative
    rw [taggedFrom, taggedFrom]
    refine (hps (t, p) List.mem_cons_self o o' ho ho').andThen (fun v => .done rfl rfl)
      fun f f' => ?_
    exact (ih (fun a ha => hps a (List.mem_cons_of_mem _ ha)) _ _).mapValue _

/-- No match leads further, so there is one round at most. -/
theorem manyFrom_idle (hp : Idle input p) :
    (manyFrom p o ⟨input, o⟩).Idle o o' (manyFrom p o' ⟨input, o'⟩) := by
  rw [manyFrom, manyFrom]
  refine (hp o o' ho ho').andThen (fun v => ?_) fun f f' => Run.idle_doneAt []
  -- the match that was made is a point, which leads no further
  have hstays : ∀ q : Offset, ¬ q.val < (Span.point q).stop.val := fun q => Nat.lt_irrefl _
  dsimp only
  rw [if_neg (hstays o), if_neg (hstays o')]
  exact Run.idle_doneAt [v]

omit ho ho'

/-- A conversion with an event does the same at both places. -/
theorem mapped_idle (hp : Idle input p) (f : α → β) :
    Idle input (mapped f p) := fun o o' ho ho' =>
  (hp o o' ho ho').andThen (fun _ => .done rfl rfl) fun _ _ => .failed rfl rfl

/-- A rule does the same at both places if its body does. -/
theorem named_idle (hp : Idle input p) (name : String) (action : α → β) :
    Idle input (named name action p) := fun o o' ho ho' =>
  ((hp o o' ho ho').andThen (fun _ => .done rfl rfl) fun _ _ => .failed rfl rfl).of_ending
    (Run.ending_after _ _) (Run.ending_after _ _)

end Parser

/-! ## Grammars -/

namespace Rulebook

variable {book : Rulebook ι κ} {input : String}

/-- Every kind of node keeps what the parsers in it have. -/
theorem compositional_idle : book.Compositional fun _ p => p.Idle input where
  outOfFuel _ := fun _ _ _ _ => .stopped rfl rfl
  endOfInput := Parser.endOfInput_idle.map _
  symbol x := (Parser.symbol_idle x).map _
  range lo hi := (Parser.range_idle lo hi).map _
  word w := (Parser.word_idle w).map _
  -- the loops are run from two cursors at once, each of which is past the end
  sequence items run h := by
    refine Parser.Idle.map (fun o o' ho ho' => ?_) _
    exact Parser.sequenceFrom_idle ho ho' (List.forall_mem_map.2 h)
  either branches run h := by
    intro o o' ho ho'
    rw [Parser.choice_eq_choiceFrom, Parser.choice_eq_choiceFrom]
    exact Parser.choiceFrom_idle ho ho' (List.forall_mem_map.2 h) _ _
  oneOf form types branches run h := by
    refine Parser.Idle.map (fun o o' ho ho' => ?_) _
    refine Parser.taggedFrom_idle ho ho' (fun a ha => ?_) _ _
    exact List.forall_mem_map.2 h a.2 (List.of_mem_zip ha).2
  many item p h := by
    refine Parser.Idle.map (fun o o' ho ho' => ?_) _
    exact Parser.manyFrom_idle ho ho' h
  map f inner p h := Parser.mapped_idle h f
  rule i p h := Parser.named_idle h _ _
  watch label inner p h := fun o o' ho ho' => (h o o' ho ho').of_ending rfl rfl

/-- At the end of a text and anywhere past it, a grammar without custom parsers does the same. -/
theorem run_idle {g : Grammar ι κ} (hg : book.CustomFree g) :
    Parser.Idle input (book.run g) :=
  runWith_induction_of_customFree compositional_idle book.depthBound hg

end Rulebook

end ParserKit
