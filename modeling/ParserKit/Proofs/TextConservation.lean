import ParserKit.Proofs.FuelIndependence
import ParserKit.Proofs.OffsetSafety

/-!
# Conservation of text

A value holds the text that it was read from. Where the functions of a grammar keep the text
inside their argument (`Value.KeepsText`), what is read from a span has exactly the text of that
span inside it: no matched piece is lost, none is kept twice, and what a branch read before it
failed leaves nothing behind.

The invariant (`Run.Conserves`) says of one run that the text inside its value stands at the
cursor and that the run stops right behind it. It does not mention where the span begins, so it
fits a sequence or a repetition in the middle of its loop as well.

## Key results

- `sequenceFrom_conserves`, `manyFrom_conserves`, `choiceFrom_conserves`, `taggedFrom_conserves`:
  every loop conserves text if its parts do
- `Grammar.chars_formValue`: all forms of a tagged choice hold the text of the alternative
- `compositional_conserves`: every kind of node conserves text
- `keepsText_of_wraps`: maps that change nothing and actions that only wrap keep the text
-/

namespace ParserKit

variable {α β ι κ : Type}

/-! ## Text inside values -/

/-- A function on values that neither adds to the text inside its argument nor takes from it. -/
def Value.KeepsText (f : Value κ → Value κ) : Prop := ∀ v, (f v).chars = v.chars

/-- A tagged choice answers with the text of its alternative, whichever form the answer has. -/
theorem Grammar.chars_formValue (form : Form) (w : Variant (Value κ)) :
    (formValue form w).chars = w.storage.payload.chars := by
  cases form with
  | tagged => simp only [formValue, Value.ofVariant, Value.chars]
  | unified => simp only [formValue, Variant.unify_eq_payload]
  | peeled => simp only [formValue, Variant.peel_eq]

/-! ## Runs that conserve text -/

/-- What the run reads has a text inside it that stands at `o`, and the run stops behind it. -/
def Run.Conserves (text : α → List Char) (input : String) (o : Offset) (r : Run (Outcome α)) :
    Prop :=
  ∀ v s, r.ending = .ok (.done v s) →
    (∃ rest, Text.Before input o.val (text v ++ rest)) ∧ s.stop.val = o.val + Text.width (text v)

namespace Run

variable {text : α → List Char} {text' : β → List Char} {input : String} {o p : Offset}
  {r r' : Run (Outcome α)}

/-- A loop that ends at a boundary with nothing more to add reads nothing from there on. -/
theorem conserves_doneAt {v : α} {start : Offset} (ho : Text.isBoundary input o.val = true)
    (hv : text v = []) : (Run.doneAt v (Span.between start o)).Conserves text input o := by
  intro w s hs
  obtain ⟨hspan, rfl⟩ := doneAt_eq_done.1 hs
  obtain ⟨cs, hcs⟩ := Text.isBoundary_iff.1 ho
  rw [hv, (Span.between_eq_ok.1 hspan).2]
  exact ⟨⟨cs, hcs⟩, by simp⟩

/-- A conversion that keeps the text conserves it. -/
theorem Conserves.mapValue (h : r.Conserves text input o) {f : α → β}
    (hf : ∀ v, text' (f v) = text v) : (r.mapValue f).Conserves text' input o := by
  intro w s hs
  obtain ⟨v, hv, rfl⟩ := mapValue_eq_done.1 hs
  rw [hf]
  exact h v s hv

/-- A match may be gone on from with a value that holds the same text. -/
theorem Conserves.andThen {k : Outcome α → Run (Outcome β)} {f : α → β}
    (h : r.Conserves text input o) (hf : ∀ v, text' (f v) = text v)
    (hdone : ∀ v s, (k (.done v s)).ending = .ok (.done (f v) s))
    (hfailed : ∀ e w s, (k (.failed e)).ending ≠ .ok (.done w s)) :
    (r.andThen k).Conserves text' input o := by
  intro w s hs
  obtain ⟨x, hx, hs⟩ := andThen_eq_ok.1 hs
  cases x with
  | failed e => exact absurd hs (hfailed e w s)
  | done v t =>
    rw [hdone] at hs
    cases hs
    rw [hf]
    exact h v s hx

/-- What is read behind the characters `ws`, and put together with them. -/
theorem Conserves.behind {ws rest : List Char} (h : r.Conserves text input p)
    (ho : Text.Before input o.val (ws ++ rest)) (hp : p.val = o.val + Text.width ws) {f : α → β}
    (hf : ∀ v, text' (f v) = ws ++ text v) : (r.mapValue f).Conserves text' input o := by
  intro w s hs
  obtain ⟨v, hv, rfl⟩ := mapValue_eq_done.1 hs
  obtain ⟨⟨rest', hrest'⟩, hstop⟩ := h v s hv
  -- what is left behind `ws` is known twice
  have hp' : Text.Before input p.val rest := hp ▸ ho.advance_append
  obtain rfl := hp'.unique hrest'
  rw [hf, Text.width_append]
  exact ⟨⟨rest', by rwa [List.append_assoc]⟩, by omega⟩

end Run

/-! ## Parsers -/

namespace Parser

/-- At every boundary of `input`, what the parser reads holds the text that it was read from. -/
def Conserves (text : α → List Char) (input : String) (p : Parser α) : Prop :=
  ∀ o : Offset, Text.isBoundary input o.val = true → (p ⟨input, o⟩).Conserves text input o

variable {text : α → List Char} {text' : β → List Char} {input : String} {p : Parser α} {o : Offset}

/-- A conversion that keeps the text conserves it, at every boundary. -/
theorem Conserves.map (h : Conserves text input p) {f : α → β}
    (hf : ∀ v, text' (f v) = text v) : Conserves text' input (Parser.map f p) := fun o ho =>
  (h o ho).mapValue hf

/-! ### Terminals -/

/-- Reading `ws` where it stands. -/
theorem reads_conserves {v : α} {ws rest : List Char} (hv : text v = ws)
    (ho : Text.Before input o.val (ws ++ rest)) :
    (reads v (Text.width ws) ⟨input, o⟩).Conserves text input o := by
  intro w s hs
  obtain ⟨hspan, rfl⟩ := Run.doneAt_eq_done.1 hs
  rw [hv]
  exact ⟨⟨rest, ho⟩, Span.stop_of_ofLength hspan⟩

/-- A character that stands at the cursor may be read. -/
theorem reads_peek_conserves {x : Char} (h : Cursor.peek ⟨input, o⟩ = some x) :
    (reads x x.utf8Size ⟨input, o⟩).Conserves (fun y => [y]) input o := by
  obtain ⟨cs, hcs⟩ := Text.charAt?_eq_some_iff.1 h
  have hx : Text.Before input o.val ([x] ++ cs) := hcs
  have hreads : (reads x (Text.width [x]) ⟨input, o⟩).Conserves (fun y => [y]) input o :=
    reads_conserves rfl hx
  simpa using hreads

/-- What is not read holds no text. -/
theorem expected_conserves (e : Expectation) (c : Cursor) :
    (expected e c : Run (Outcome α)).Conserves text input o := by
  intro v s hs
  cases hs

/-- The end of the text is read without any text in it. -/
theorem endOfInput_conserves : Conserves (fun _ => []) input endOfInput := by
  intro o ho
  obtain ⟨cs, hcs⟩ := Text.isBoundary_iff.1 ho
  unfold endOfInput
  split
  · intro v s hs
    cases hs
    exact ⟨⟨cs, hcs⟩, by simp [Span.point]⟩
  · apply expected_conserves

/-- A symbol holds the character that was read. -/
theorem symbol_conserves (x : Char) : Conserves (fun y => [y]) input (symbol x) := by
  intro o _
  unfold symbol
  split
  · rename_i y hy
    by_cases hyx : y = x
    · rw [if_pos hyx]
      exact reads_peek_conserves hy
    · rw [if_neg hyx]
      apply expected_conserves
  · apply expected_conserves

/-- So does a character of a range. -/
theorem range_conserves (lo hi : Char) : Conserves (fun y => [y]) input (range lo hi) := by
  intro o _
  unfold range
  split
  · rename_i y hy
    by_cases hin : lo ≤ y ∧ y ≤ hi
    · rw [if_pos hin]
      exact reads_peek_conserves hy
    · rw [if_neg hin]
      apply expected_conserves
  · apply expected_conserves

/-- A word holds the characters of itself. -/
theorem word_conserves (w : String) : Conserves String.toList input (word w) := by
  intro o ho
  unfold word
  by_cases hw : Cursor.startsWith ⟨input, o⟩ w = true
  · rw [if_pos hw, ← Text.width_toList]
    rcases Text.startsWithAt_iff.1 hw with hnil | ⟨cs, hcs⟩
    · -- the empty word stands at every boundary
      obtain ⟨cs, hcs⟩ := Text.isBoundary_iff.1 ho
      have hword : Text.Before input o.val (w.toList ++ cs) := by rwa [hnil]
      exact reads_conserves rfl hword
    · exact reads_conserves rfl hcs
  · rw [if_neg hw]
    apply expected_conserves

/-! ### Combinators

The text inside a list of values is that of the values one after the other, so each step of a loop
puts the text of one more match before that of the rest. -/

section

variable {ps : List (Parser (Value κ))} {q : Parser (Value κ)}

/-- The values of a sequence hold the text of its parts, one after the other. -/
theorem sequenceFrom_conserves (hps : ∀ p ∈ ps, Conserves Value.chars input p) (start : Offset)
    (ho : Text.isBoundary input o.val = true) :
    (sequenceFrom start ps ⟨input, o⟩).Conserves Value.charsOf input o := by
  -- at each part the cursor is at a boundary, since the match before ended behind characters of the
  -- text
  induction ps generalizing o with
  | nil => exact Run.conserves_doneAt ho rfl
  | cons p ps ih =>
    intro vs s hs
    obtain ⟨x, hx, hs⟩ := Run.andThen_eq_ok.1 hs
    cases x with
    | failed f => cases hs
    | done v t =>
      obtain ⟨⟨rest, hrest⟩, hstop⟩ := hps p List.mem_cons_self o ho v t hx
      have hnext : Text.Before input t.stop.val rest := hstop ▸ hrest.advance_append
      have htail := ih (fun p' hp' => hps p' (List.mem_cons_of_mem p hp')) hnext.isBoundary
      have hall : ((sequenceFrom start ps ⟨input, t.stop⟩).mapValue (v :: ·)).Conserves
          Value.charsOf input o := htail.behind hrest hstop fun _ => by simp only [Value.charsOf]
      exact hall vs s hs

/-- The branches that failed before have left nothing: the match is that of one branch. -/
theorem choiceFrom_conserves (hps : ∀ p ∈ ps, Conserves Value.chars input p) (furthest : Offset)
    (ho : Text.isBoundary input o.val = true) :
    (choiceFrom ⟨input, o⟩ furthest ps).Conserves Value.chars input o := by
  -- the furthest offset changes with each failure, but no value
  induction ps generalizing furthest with
  | nil =>
    intro v s hs
    cases hs
  | cons p ps ih =>
    intro v s hs
    obtain ⟨x, hx, hs⟩ := Run.andThen_eq_ok.1 hs
    cases x with
    | done w t =>
      cases hs
      exact hps p List.mem_cons_self o ho v s hx
    | failed f => exact ih (fun p' hp' => hps p' (List.mem_cons_of_mem p hp')) _ v s hs

/-- A tagged choice holds the text of the branch that matched, whichever it is. -/
theorem taggedFrom_conserves {alternatives : List (String × Parser (Value κ))}
    (hps : ∀ a ∈ alternatives, Conserves Value.chars input a.2) (furthest : Offset)
    (ho : Text.isBoundary input o.val = true) :
    (taggedFrom ⟨input, o⟩ furthest alternatives).Conserves
      (fun w => w.storage.payload.chars) input o := by
  induction alternatives generalizing furthest with
  | nil =>
    intro w s hs
    cases hs
  | cons a alternatives ih =>
    obtain ⟨t, p⟩ := a
    intro w s hs
    obtain ⟨x, hx, hs⟩ := Run.andThen_eq_ok.1 hs
    cases x with
    | done v s' =>
      cases hs
      exact hps (t, p) List.mem_cons_self o ho v s hx
    | failed f =>
      have htail := ih (fun a ha => hps a (List.mem_cons_of_mem _ ha))
        (Offset.max furthest f.furthest)
      -- putting `t` before the other alternatives does not touch the value
      obtain ⟨w', hw', rfl⟩ := Run.mapValue_eq_done.1 hs
      exact htail w' s hw'

/-- The values of a repetition hold the text of its matches, one after the other. -/
theorem manyFrom_conserves (hq : Conserves Value.chars input q) (start : Offset)
    (ho : Text.isBoundary input o.val = true) :
    (manyFrom q start ⟨input, o⟩).Conserves Value.charsOf input o := by
  induction o using Offset.forward_induction with
  | further o ih =>
    intro vs s hs
    rw [manyFrom] at hs
    obtain ⟨x, hx, hs⟩ := Run.andThen_eq_ok.1 hs
    cases x with
    | failed f => exact Run.conserves_doneAt ho rfl vs s hs
    | done v t =>
      obtain ⟨⟨rest, hrest⟩, hstop⟩ := hq o ho v t hx
      dsimp only at hs
      by_cases hmoves : o.val < t.stop.val
      · rw [if_pos hmoves] at hs
        -- a match that leads further ends at a boundary, where the next round begins
        have hnext : Text.Before input t.stop.val rest := hstop ▸ hrest.advance_append
        have hall : ((manyFrom q start ⟨input, t.stop⟩).mapValue (v :: ·)).Conserves
            Value.charsOf input o :=
          (ih t.stop hmoves hnext.isBoundary).behind hrest hstop fun _ => by
            simp only [Value.charsOf]
        exact hall vs s hs
      · -- the last match is kept although it leads no further
        rw [if_neg hmoves] at hs
        obtain ⟨hspan, rfl⟩ := Run.doneAt_eq_done.1 hs
        have htext : Value.charsOf [v] = v.chars := by simp [Value.charsOf]
        rw [htext, (Span.between_eq_ok.1 hspan).2]
        exact ⟨⟨rest, hrest⟩, hstop⟩

/-- A conversion with an event conserves text if its function keeps it. -/
theorem mapped_conserves (hq : Conserves Value.chars input q) {f : Value κ → Value κ}
    (hf : Value.KeepsText f) : Conserves Value.chars input (mapped f q) := fun o ho =>
  (hq o ho).andThen hf (fun _ _ => rfl) fun _ => nofun

/-- A rule conserves text if its action keeps it. -/
theorem named_conserves (hq : Conserves Value.chars input q) (name : String)
    {action : Value κ → Value κ} (hf : Value.KeepsText action) :
    Conserves Value.chars input (named name action q) := fun o ho =>
  (hq o ho).andThen hf (fun _ _ => rfl) fun _ => nofun

end

end Parser

/-! ## Grammars -/

namespace Rulebook

/-- The maps that are reached from `g`, and the actions of the rules that are, keep the text
    inside values. -/
structure KeepsText (book : Rulebook ι κ) (g : Grammar ι κ) : Prop where
  map {f : Value κ → Value κ} {inner : Grammar ι κ} :
    book.Reaches g (.map f inner) → Value.KeepsText f
  action {i : ι} : book.Reaches g (.rule i) → Value.KeepsText (book.rule i).action

variable {book : Rulebook ι κ} {g : Grammar ι κ} {input : String}

/-- The nodes below keep the text if the grammar does. -/
theorem KeepsText.of_reaches {h : Grammar ι κ} (hg : book.KeepsText g) (hgh : book.Reaches g h) :
    book.KeepsText h where
  map hmap := hg.map (hgh.trans hmap)
  action hrule := hg.action (hgh.trans hrule)

/-- The children of a grammar keep the text if the grammar does. -/
theorem KeepsText.child {h : Grammar ι κ} (hg : book.KeepsText g) (hh : h ∈ g.children) :
    book.KeepsText h := hg.of_reaches (.child hh (.refl h))

/-- Text is kept where every map is the identity and every action puts its argument under the
    number of a rule. -/
theorem keepsText_of_wraps
    (hmap : ∀ f inner, book.Reaches g (.map f inner) → f = id)
    (haction : ∀ i, book.Reaches g (.rule i) → ∃ n, (book.rule i).action = Value.ruled n) :
    book.KeepsText g where
  map h := by
    rw [hmap _ _ h]
    exact fun _ => rfl
  action h := by
    obtain ⟨n, hn⟩ := haction _ h
    rw [hn]
    intro v
    simp only [Value.chars]

/-- Every kind of node conserves text, a map or a rule if its function keeps it. -/
theorem compositional_conserves :
    book.Compositional fun g p => book.KeepsText g → p.Conserves Value.chars input where
  outOfFuel _ _ := fun _ _ _ _ hs => by cases hs
  endOfInput _ := Parser.endOfInput_conserves.map fun _ => by simp only [Value.chars]
  symbol x _ := (Parser.symbol_conserves x).map fun _ => by simp only [Value.chars]
  range lo hi _ := (Parser.range_conserves lo hi).map fun _ => by simp only [Value.chars]
  word w _ := (Parser.word_conserves w).map fun _ => by simp only [Value.chars]
  -- the values of the parts are put in order, and so is their text
  sequence items run h hk := by
    have hitems : ∀ p ∈ items.map run, p.Conserves Value.chars input :=
      List.forall_mem_map.2 fun g hg => h g hg (hk.child hg)
    have hsequence : (Parser.sequence (items.map run)).Conserves Value.charsOf input :=
      fun o ho => Parser.sequenceFrom_conserves hitems o ho
    exact hsequence.map fun _ => by simp only [Value.chars]
  either branches run h hk := by
    have hbranches : ∀ p ∈ branches.map run, p.Conserves Value.chars input :=
      List.forall_mem_map.2 fun g hg => h g hg (hk.child hg)
    intro o ho
    rw [Parser.choice_eq_choiceFrom]
    exact Parser.choiceFrom_conserves hbranches _ ho
  oneOf form types branches run h hk := by
    have hbranches : ∀ a ∈ types.zip (branches.map run), a.2.Conserves Value.chars input := by
      intro a ha
      exact List.forall_mem_map.2 (fun g hg => h g hg (hk.child hg)) a.2 (List.of_mem_zip ha).2
    intro o ho
    exact (Parser.taggedFrom_conserves hbranches o ho).mapValue (Grammar.chars_formValue form)
  many item p h hk := by
    have hitem := h (hk.child (List.mem_singleton_self item))
    have hmany : (Parser.many p).Conserves Value.charsOf input :=
      fun o ho => Parser.manyFrom_conserves hitem o ho
    exact hmany.map fun _ => by simp only [Value.chars]
  -- what a function of one's own does to the text is in the condition
  map f inner p h hk :=
    Parser.mapped_conserves (h (hk.child (List.mem_singleton_self inner))) (hk.map (.refl _))
  rule i p h hk :=
    Parser.named_conserves (h (hk.of_reaches (.body (.refl _)))) _ (hk.action (.refl _))
  watch label inner p h hk := h (hk.child (List.mem_singleton_self inner))

/-- What a grammar without custom parsers reads at a boundary of a text, if its maps and actions
    keep the text inside values: the characters and words inside the value, put one after the
    other, are the text of the span. -/
theorem run_conserves_text (book : Rulebook ι κ) (g : Grammar ι κ) (hg : book.CustomFree g)
    (hk : book.KeepsText g) (input : String) (hsize : input.utf8ByteSize < 2 ^ 64) (o : Offset)
    (ho : Text.isBoundary input o.val = true) (v : Value κ) (s : Span)
    (hv : (book.run g ⟨input, o⟩).ending = .ok (.done v s)) :
    s.slice? input = some (String.ofList v.chars) := by
  have hconserves : (book.run g).Conserves Value.chars input :=
    runWith_induction_of_customFree compositional_conserves book.depthBound hg hk
  obtain ⟨⟨rest, hrest⟩, hstop⟩ := hconserves o ho v s hv
  -- the span begins at the cursor and is as wide as the text inside the value, which stands there
  have hbegin : s.begin = o := begin_eq_of_run hg hsize hv
  show Text.slice? input s.begin.val s.stop.val = _
  rw [hbegin, hstop]
  exact Text.slice?_eq_some hrest

/-- Letters with dashes between them: a letter is tagged, a dash and the letter behind it are
    mapped by the identity, and both rules wrap. -/
def dashedLetters : Rulebook (Fin 2) Empty := ofList
  [⟨"Letter", .oneOf .tagged ["char", "&str"] [.range 'a' 'z', .word "é"], .ruled 0⟩,
    ⟨"Letters", .sequence [.rule 0, .many (.map id (.oneOf .peeled ["(char, Letter)"]
      [.sequence [.symbol '-', .rule 0]])), .endOfInput], .ruled 1⟩] rfl

/-- Behind a wide character, letters with dashes between them are read as what they are. -/
theorem run_conserves_text_dashed :
    dashedLetters.CustomFree (.rule 1) ∧ dashedLetters.KeepsText (.rule 1) ∧
      "ßa-é".utf8ByteSize < 2 ^ 64 ∧ Text.isBoundary "ßa-é" 2 = true ∧
      (dashedLetters.run (.rule 1) ⟨"ßa-é", 2⟩).ending = .ok (.done
        (.ruled 1 (.seq [.ruled 0 (.tagged ["char", "&str"] 0 (.char 'a')),
          .many [.seq [.char '-', .ruled 0 (.tagged ["char", "&str"] 1 (.word "é"))]], .eof]))
        ⟨2, 6, by decide⟩) ∧
      Span.slice? ⟨2, 6, by decide⟩ "ßa-é" = some "a-é" := by
  have hfree : dashedLetters.CustomFree (.rule 1) :=
    customFree_of_all (by intro i; fin_cases i <;> rfl) rfl
  have hkeeps : dashedLetters.KeepsText (.rule 1) := by
    classical
    refine keepsText_of_wraps (fun f inner h => ?_) fun i _ => ?_
    -- all maps of the book, looked at node by node
    · have hall := h.of_all (p := fun k => decide (∀ f inner, k = .map f inner → f = id))
        (by intro i; fin_cases i <;> simp [dashedLetters, ofList, Grammar.all, Grammar.allOf])
        (by simp [Grammar.all])
      exact of_decide_eq_true hall f inner rfl
    · fin_cases i
      · exact ⟨0, rfl⟩
      · exact ⟨1, rfl⟩
  have hsize : "ßa-é".utf8ByteSize < 2 ^ 64 := by decide
  have hboundary : Text.isBoundary "ßa-é" 2 = true := by cbv
  have hends : (dashedLetters.runWith 2 (.rule 1) ⟨"ßa-é", 2⟩).ending = .ok (.done
      (.ruled 1 (.seq [.ruled 0 (.tagged ["char", "&str"] 0 (.char 'a')),
        .many [.seq [.char '-', .ruled 0 (.tagged ["char", "&str"] 1 (.word "é"))]], .eof]))
      ⟨2, 6, by decide⟩) := by cbv
  have hrun := ending_run_eq_ok hends
  refine ⟨hfree, hkeeps, hsize, hboundary, hrun, ?_⟩
  exact run_conserves_text _ _ hfree hkeeps _ hsize 2 hboundary _ _ hrun

end Rulebook

end ParserKit
