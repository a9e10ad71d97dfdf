import ParserKit.Proofs.FuelIndependence
import ParserKit.Proofs.OffsetSafety

/-!
# Translation

A parse does not look behind its cursor. With a text `x` put before the text `s`, a run that began
at offset `o` of `s` may as well begin at the offset of `x ++ s` that is as much further on as `x`
takes bytes: it comes to the same value or the same failure, with every offset that much further
on. Two runs of one parser are compared, so the relation (`Run.Shifted`) says nothing of values
that differ; it is kept by every step of every loop, since the loops only compare offsets and take
the later of two.

## Key results

- `Text.before_append_iff` / `Text.charAt?_append`: what stands in `s` stands in `x ++ s`
- `Run.Shifted`: the relation between the two runs
- `sequenceFrom_shifted`, `choiceFrom_shifted`, `taggedFrom_shifted`, `manyFrom_shifted`: every
  loop keeps it
- `compositional_translates`: every kind of node keeps it
-/

namespace ParserKit

variable {α β ι κ : Type}

/-! ## A text behind another -/

namespace Text

/-- What is left of `s` is left of `x ++ s` as much further on as `x` is wide. -/
theorem before_append_iff {x s : String} {o : Nat} {cs : List Char} :
    Before (x ++ s) (x.utf8ByteSize + o) cs ↔ Before s o cs := by
  rw [← width_toList x]
  constructor
  · rintro ⟨pre, hs, hw⟩
    rw [String.toList_append] at hs
    -- what stands before the offset ends behind `x`, or within it
    rcases List.append_eq_append_iff.1 hs with ⟨mid, hpre, hcs⟩ | ⟨mid, hx, hcs⟩
    · refine ⟨mid, hcs, ?_⟩
      rw [hpre, width_append] at hw
      omega
    · -- the offset cannot lie inside `x`, so nothing of `x` is left
      have hmid : mid.length = 0 := by
        have hle := length_le_width mid
        rw [hx, width_append] at hw
        omega
      rw [List.length_eq_zero_iff.1 hmid] at hx hcs
      refine ⟨[], by simpa using hcs.symm, ?_⟩
      rw [hx, width_append] at hw
      rw [width_nil] at hw ⊢
      omega
  · rintro ⟨pre, hs, rfl⟩
    exact ⟨x.toList ++ pre, by simp [hs], by simp⟩

/-- The characters of `s` stand in `x ++ s` as much further on as `x` is wide. -/
theorem charAt?_append (x s : String) (o : Nat) :
    charAt? (x ++ s) (x.utf8ByteSize + o) = charAt? s o := by
  refine Option.ext fun c => ?_
  simp only [charAt?_eq_some_iff, before_append_iff]

/-- So do its words. -/
theorem startsWithAt_append (x s : String) (o : Nat) (w : List Char) :
    Cursor.startsWithAt (x ++ s) (x.utf8ByteSize + o) w = Cursor.startsWithAt s o w := by
  rw [Bool.eq_iff_iff]
  simp only [startsWithAt_iff, before_append_iff]

end Text

/-! ## Shifted offsets -/

/-- `b` is `n` bytes further on than `a`. -/
def Offset.Shifted (n : Nat) (a b : Offset) : Prop := b.val = n + a.val

/-- Both bounds are `n` bytes further on. -/
def Span.Shifted (n : Nat) (s t : Span) : Prop :=
  s.begin.Shifted n t.begin ∧ s.stop.Shifted n t.stop

/-- The same is expected, and both offsets are `n` bytes further on. -/
def Failure.Shifted (n : Nat) (f e : Failure) : Prop :=
  f.blamed.Shifted n e.blamed ∧ f.furthest.Shifted n e.furthest ∧ e.expected = f.expected

/-- The same value with its span shifted, or the same failure with its offsets shifted. -/
def Outcome.Shifted (n : Nat) : Outcome α → Outcome α → Prop
  | .done v s, .done w t => w = v ∧ s.Shifted n t
  | .failed f, .failed e => f.Shifted n e
  | _, _ => False

/-- Both runs come to an outcome, shifted from the one to the other, or neither does. -/
def Run.Shifted (n : Nat) (r r' : Run (Outcome α)) : Prop :=
  match r.ending, r'.ending with
  | .ok x, .ok y => x.Shifted n y
  | .error _, .error _ => True
  | _, _ => False

namespace Offset.Shifted

variable {n : Nat} {a b c d : Offset}

/-- An offset is shifted to one place only. -/
theorem unique (hb : a.Shifted n b) (hc : a.Shifted n c) : b = c :=
  Fin.ext (Eq.trans hb (Eq.symm hc))

/-- The later of two offsets is shifted to the later of their places. -/
theorem max (hab : a.Shifted n b) (hcd : c.Shifted n d) :
    (Offset.max a c).Shifted n (Offset.max b d) := by
  unfold Offset.Shifted at *
  simp only [Offset.val_max]
  omega

end Offset.Shifted

/-- An outcome is shifted to one place only. -/
theorem Outcome.Shifted.unique {n : Nat} {x y z : Outcome α} (hy : x.Shifted n y)
    (hz : x.Shifted n z) : y = z := by
  -- outcomes of different kinds are never shifted to each other, so both places are of the kind of
  -- `x`
  cases x with
  | done v s =>
    cases y with
    | failed e => exact absurd hy id
    | done w t =>
      cases z with
      | failed e => exact absurd hz id
      | done u q =>
        obtain ⟨rfl, hbegin, hstop⟩ := hy
        obtain ⟨rfl, hbegin', hstop'⟩ := hz
        obtain ⟨tb, ts, _⟩ := t
        obtain ⟨qb, qs, _⟩ := q
        obtain rfl : tb = qb := hbegin.unique hbegin'
        obtain rfl : ts = qs := hstop.unique hstop'
        rfl
  | failed f =>
    cases y with
    | done w t => exact absurd hy id
    | failed e =>
      cases z with
      | done u q => exact absurd hz id
      | failed d =>
        obtain ⟨hblamed, hfurthest, hexpected⟩ := hy
        obtain ⟨hblamed', hfurthest', hexpected'⟩ := hz
        obtain ⟨eb, ef, ee, _⟩ := e
        obtain ⟨db, df, de, _⟩ := d
        obtain rfl : eb = db := hblamed.unique hblamed'
        obtain rfl : ef = df := hfurthest.unique hfurthest'
        obtain rfl : ee = de := hexpected.trans hexpected'.symm
        rfl

/-! ## Two runs -/

namespace Run

variable {n : Nat} {r r' : Run (Outcome α)}

/-- Only the endings count, not the traces. -/
theorem Shifted.of_ending {q q' : Run (Outcome α)} (h : r.Shifted n r')
    (hq : q.ending = r.ending) (hq' : q'.ending = r'.ending) : q.Shifted n q' := by
  unfold Shifted
  rw [hq, hq']
  exact h

/-- How two runs may stand to each other. -/
theorem Shifted.cases (h : r.Shifted n r') :
    (∃ x y, r.ending = .ok x ∧ r'.ending = .ok y ∧ x.Shifted n y) ∨
      ∃ stop stop', r.ending = .error stop ∧ r'.ending = .error stop' := by
  -- an outcome on one side and none on the other is excluded by the relation
  unfold Shifted at h
  cases hr : r.ending with
  | ok x =>
    cases hr' : r'.ending with
    | ok y => rw [hr, hr'] at h; exact .inl ⟨x, y, rfl, rfl, h⟩
    | error stop => rw [hr, hr'] at h; exact absurd h id
  | error stop =>
    cases hr' : r'.ending with
    | ok y => rw [hr, hr'] at h; exact absurd h id
    | error stop' => exact .inr ⟨stop, stop', rfl, rfl⟩

/-- Both runs are gone on from in the same way, from a value with shifted spans or from shifted
    failures. -/
theorem Shifted.andThen {k k' : Outcome α → Run (Outcome β)} (h : r.Shifted n r')
    (hdone : ∀ v s t, s.Shifted n t → (k (.done v s)).Shifted n (k' (.done v t)))
    (hfailed : ∀ f e, f.Shifted n e → (k (.failed f)).Shifted n (k' (.failed e))) :
    (r.andThen k).Shifted n (r'.andThen k') := by
  unfold Shifted
  rw [ending_andThen, ending_andThen]
  obtain ⟨x, y, hr, hr', hxy⟩ | ⟨stop, stop', hr, hr'⟩ := h.cases
  -- the first runs have outcomes of one kind; if neither has one, the whole has none on both sides
  · rw [hr, hr']
    cases x with
    | done v s =>
      cases y with
      | done w t =>
        obtain ⟨rfl, hspan⟩ := hxy
        exact hdone w s t hspan
      | failed e => exact absurd hxy id
    | failed f =>
      cases y with
      | done w t => exact absurd hxy id
      | failed e => exact hfailed f e hxy
  · rw [hr, hr']
    trivial

/-- A conversion of the value moves no offset. -/
theorem Shifted.mapValue (h : r.Shifted n r') (f : α → β) :
    (r.mapValue f).Shifted n (r'.mapValue f) := by
  unfold Shifted
  rw [Run.mapValue, Run.mapValue, ending_map, ending_map]
  obtain ⟨x, y, hr, hr', hxy⟩ | ⟨stop, stop', hr, hr'⟩ := h.cases
  · rw [hr, hr']
    cases x with
    | done v s =>
      cases y with
      | done w t => exact ⟨congrArg f hxy.1, hxy.2⟩
      | failed e => exact absurd hxy id
    | failed f =>
      cases y with
      | done w t => exact absurd hxy id
      | failed e => exact hxy
  · rw [hr, hr']
    trivial

/-- Spans between shifted bounds are shifted, or both are turned around. -/
theorem shifted_doneAt {a a' b b' : Offset} (ha : a.Shifted n a') (hb : b.Shifted n b') (v : α) :
    (Run.doneAt v (Span.between a b)).Shifted n (Run.doneAt v (Span.between a' b')) := by
  -- the two bounds are in the same order on both sides
  by_cases hle : a.val ≤ b.val
  · have hle' : a'.val ≤ b'.val := by
      unfold Offset.Shifted at ha hb
      omega
    rw [Span.between, dif_pos hle, Span.between, dif_pos hle']
    exact ⟨rfl, ha, hb⟩
  · have hle' : ¬ a'.val ≤ b'.val := by
      unfold Offset.Shifted at ha hb
      omega
    rw [Span.between, dif_neg hle, Span.between, dif_neg hle']
    trivial

end Run

/-! ## Parsers -/

namespace Parser

/-- Run in `s` and as much further on in `x ++ s`, the parser comes to the same. -/
def Translates (x s : String) (p : Parser α) : Prop :=
  ∀ o o' : Offset, o.Shifted x.utf8ByteSize o' →
    (p ⟨s, o⟩).Shifted x.utf8ByteSize (p ⟨x ++ s, o'⟩)

variable {x s : String} {o o' : Offset}

/-- A conversion of the value keeps a parser from looking behind its cursor. -/
theorem Translates.map {p : Parser α} (hp : Translates x s p) (f : α → β) :
    Translates x s (Parser.map f p) := fun o o' h => (hp o o' h).mapValue f

/-! ### Terminals -/

/-- The cursor itself is blamed on both sides. -/
theorem expected_shifted (e : Expectation) (h : o.Shifted x.utf8ByteSize o') :
    (expected e ⟨s, o⟩ : Run (Outcome α)).Shifted x.utf8ByteSize (expected e ⟨x ++ s, o'⟩) :=
  ⟨h, h, rfl⟩

/-- The same number of bytes is read on both sides, if there are so many offsets. -/
theorem reads_shifted (v : α) {m : Nat} (hm : o'.val + m < 2 ^ 64)
    (h : o.Shifted x.utf8ByteSize o') :
    (reads v m ⟨s, o⟩).Shifted x.utf8ByteSize (reads v m ⟨x ++ s, o'⟩) := by
  unfold Offset.Shifted at h
  have hm' : o.val + m < 2 ^ 64 := by omega
  have hstop : o'.val + m = x.utf8ByteSize + (o.val + m) := by omega
  rw [reads, reads, Span.ofLength_eq_ok hm, Span.ofLength_eq_ok hm']
  exact ⟨rfl, h, hstop⟩

/-- The same character stands at both cursors. -/
theorem peek_append (h : o.Shifted x.utf8ByteSize o') :
    Cursor.peek ⟨x ++ s, o'⟩ = Cursor.peek ⟨s, o⟩ := by
  show Text.charAt? (x ++ s) o'.val = Text.charAt? s o.val
  rw [show o'.val = x.utf8ByteSize + o.val from h, Text.charAt?_append]

/-- A character that stands at a cursor may be read. -/
theorem add_utf8Size_lt {c : Cursor} {y : Char} (hc : c.input.utf8ByteSize < 2 ^ 64)
    (hy : c.peek = some y) : c.offset.val + y.utf8Size < 2 ^ 64 := by
  obtain ⟨cs, hcs⟩ := Text.charAt?_eq_some_iff.1 hy
  have hsum := hcs.add_width
  rw [Text.width_cons] at hsum
  omega

/-- The end of the text comes as much later as the cursor. -/
theorem endOfInput_translates : Translates x s endOfInput := by
  intro o o' h
  -- the size of the text grows by as much as the offset
  have hended : Cursor.ended ⟨x ++ s, o'⟩ = Cursor.ended ⟨s, o⟩ := by
    unfold Offset.Shifted at h
    rw [Bool.eq_iff_iff]
    simp only [Cursor.ended, decide_eq_true_eq, String.utf8ByteSize_append, h]
    omega
  unfold endOfInput
  rw [hended]
  split
  · exact ⟨rfl, h, h⟩
  · exact expected_shifted _ h

/-- A symbol stands at both cursors or at none. -/
theorem symbol_translates (hsize : (x ++ s).utf8ByteSize < 2 ^ 64) (c : Char) :
    Translates x s (symbol c) := by
  intro o o' h
  have hpeek := peek_append (s := s) h
  unfold symbol
  rw [hpeek]
  -- what stands at the cursor decides, and it is the same on both sides
  cases hc : Cursor.peek ⟨s, o⟩ with
  | none => exact expected_shifted _ h
  | some y =>
    have hlt : o'.val + y.utf8Size < 2 ^ 64 := add_utf8Size_lt hsize (hpeek.trans hc)
    dsimp only
    split
    · exact reads_shifted y hlt h
    · exact expected_shifted _ h

/-- So does a character of a range. -/
theorem range_translates (hsize : (x ++ s).utf8ByteSize < 2 ^ 64) (lo hi : Char) :
    Translates x s (range lo hi) := by
  intro o o' h
  have hpeek := peek_append (s := s) h
  unfold range
  rw [hpeek]
  cases hc : Cursor.peek ⟨s, o⟩ with
  | none => exact expected_shifted _ h
  | some y =>
    have hlt : o'.val + y.utf8Size < 2 ^ 64 := add_utf8Size_lt hsize (hpeek.trans hc)
    dsimp only
    split
    · exact reads_shifted y hlt h
    · exact expected_shifted _ h

/-- So does a word. -/
theorem word_translates (hsize : (x ++ s).utf8ByteSize < 2 ^ 64) (w : String) :
    Translates x s (word w) := by
  intro o o' h
  have hstarts : Cursor.startsWith ⟨x ++ s, o'⟩ w = Cursor.startsWith ⟨s, o⟩ w := by
    show Cursor.startsWithAt (x ++ s) o'.val w.toList = Cursor.startsWithAt s o.val w.toList
    rw [show o'.val = x.utf8ByteSize + o.val from h, Text.startsWithAt_append]
  unfold word
  rw [hstarts]
  split
  · rename_i hw
    rw [← hstarts] at hw
    exact reads_shifted w (Text.add_size_lt_of_startsWithAt hsize hw) h
  · exact expected_shifted _ h

/-! ### Combinators -/

/-- If all alternatives failed, the failure is shifted with how far they came. -/
theorem noAlternative_shifted {furthest furthest' : Offset} (h : o.Shifted x.utf8ByteSize o')
    (hf : furthest.Shifted x.utf8ByteSize furthest') :
    (noAlternative ⟨s, o⟩ furthest).Shifted x.utf8ByteSize (noAlternative ⟨x ++ s, o'⟩ furthest') :=
  ⟨h, h.max hf, rfl⟩

/-- Sequences that began at shifted offsets go on from shifted offsets. -/
theorem sequenceFrom_shifted {ps : List (Parser α)} (hps : ∀ p ∈ ps, Translates x s p)
    {start start' : Offset} (hstart : start.Shifted x.utf8ByteSize start')
    (h : o.Shifted x.utf8ByteSize o') :
    (sequenceFrom start ps ⟨s, o⟩).Shifted x.utf8ByteSize
      (sequenceFrom start' ps ⟨x ++ s, o'⟩) := by
  -- the start of the span stays on both sides, the offsets move on together
  induction ps generalizing o o' with
  | nil => exact Run.shifted_doneAt hstart h []
  | cons p ps ih =>
    rw [sequenceFrom, sequenceFrom]
    refine (hps p List.mem_cons_self o o' h).andThen (fun v s t hspan => ?_) fun f e hf => hf
    exact (ih (fun q hq => hps q (List.mem_cons_of_mem p hq)) hspan.2).mapValue _

/-- Choices whose branches so far came to shifted offsets go on with the others. -/
theorem choiceFrom_shifted {ps : List (Parser α)} (hps : ∀ p ∈ ps, Translates x s p)
    (h : o.Shifted x.utf8ByteSize o') {furthest furthest' : Offset}
    (hf : furthest.Shifted x.utf8ByteSize furthest') :
    (choiceFrom ⟨s, o⟩ furthest ps).Shifted x.utf8ByteSize
      (choiceFrom ⟨x ++ s, o'⟩ furthest' ps) := by
  induction ps generalizing furthest furthest' with
  | nil => exact noAlternative_shifted h hf
  | cons p ps ih =>
    rw [choiceFrom, choiceFrom]
    refine (hps p List.mem_cons_self o o' h).andThen (fun v s t hspan => ⟨rfl, hspan⟩) ?_
    exact fun f e hfe => ih (fun q hq => hps q (List.mem_cons_of_mem p hq)) (hf.max hfe.2.1)

/-- A choice does not look behind its cursor if its branches do not. -/
theorem choice_translates {ps : List (Parser α)} (hps : ∀ p ∈ ps, Translates x s p) :
    Translates x s (choice ps) := by
  intro o o' h
  -- the first branch is tried apart from the loop, which starts with how far that one came
  cases ps with
  | nil => exact noAlternative_shifted h h
  | cons p ps =>
    rw [choice, choice]
    refine (hps p List.mem_cons_self o o' h).andThen (fun v s t hspan => ⟨rfl, hspan⟩) ?_
    exact fun f e hfe =>
      choiceFrom_shifted (fun q hq => hps q (List.mem_cons_of_mem p hq)) h hfe.2.1

/-- The same of tagged choices; the tags do not matter. -/
theorem taggedFrom_shifted {alternatives : List (String × Parser α)}
    (hps : ∀ a ∈ alternatives, Translates x s a.2) (h : o.Shifted x.utf8ByteSize o')
    {furthest furthest' : Offset} (hf : furthest.Shifted x.utf8ByteSize furthest') :
    (taggedFrom ⟨s, o⟩ furthest alternatives).Shifted x.utf8ByteSize
      (taggedFrom ⟨x ++ s, o'⟩ furthest' alternatives) := by
  induction alternatives generalizing furthest furthest' with
  | nil => exact noAlternative_shifted h hf
  | cons alternative alternatives ih =>
    obtain ⟨t, p⟩ := alternative
    rw [taggedFrom, taggedFrom]
    refine (hps (t, p) List.mem_cons_self o o' h).andThen (fun v s q hspan => ⟨rfl, hspan⟩) ?_
    intro f e hfe
    exact (ih (fun a ha => hps a (List.mem_cons_of_mem _ ha)) (hf.max hfe.2.1)).mapValue _

/-- Repetitions that began at shifted offsets go on from shifted offsets. -/
theorem manyFrom_shifted {p : Parser α} (hp : Translates x s p) {start start' : Offset}
    (hstart : start.Shifted x.utf8ByteSize start') (h : o.Shifted x.utf8ByteSize o') :
    (manyFrom p start ⟨s, o⟩).Shifted x.utf8ByteSize (manyFrom p start' ⟨x ++ s, o'⟩) := by
  induction o using Offset.forward_induction generalizing o' with
  | further o ih =>
    rw [manyFrom, manyFrom]
    refine (hp o o' h).andThen (fun v t t' hspan => ?_) fun f e _ => ?_
    · have hstop : t.stop.Shifted x.utf8ByteSize t'.stop := hspan.2
      -- one match leads further exactly if the other does
      have hmoves : o'.val < t'.stop.val ↔ o.val < t.stop.val := by
        unfold Offset.Shifted at h hstop
        omega
      dsimp only
      by_cases hlt : o.val < t.stop.val
      · rw [if_pos hlt, if_pos (hmoves.2 hlt)]
        exact (ih t.stop hlt hstop).mapValue _
      · rw [if_neg hlt, if_neg (hmoves.not.2 hlt)]
        exact Run.shifted_doneAt hstart hstop _
    · exact Run.shifted_doneAt hstart h _

/-- A conversion with an event does not look behind the cursor if its part does not. -/
theorem mapped_translates {p : Parser α} (hp : Translates x s p) (f : α → β) :
    Translates x s (mapped f p) := by
  intro o o' h
  exact (hp o o' h).andThen (fun v s t hspan => ⟨rfl, hspan⟩) fun e e' he => he

/-- Neither does a rule if its body does not. -/
theorem named_translates {p : Parser α} (hp : Translates x s p) (name : String)
    (action : α → β) : Translates x s (named name action p) := by
  intro o o' h
  refine Run.Shifted.of_ending
    ((hp o o' h).andThen (fun v s t hspan => ?_) fun f e hf => ?_) rfl rfl
  · exact ⟨rfl, hspan⟩
  · exact hf

end Parser

/-! ## Grammars -/

namespace Rulebook

variable {book : Rulebook ι κ} {x s : String}

/-- Every kind of node keeps what the parsers in it have. -/
theorem compositional_translates (hsize : (x ++ s).utf8ByteSize < 2 ^ 64) :
    book.Compositional fun _ p => p.Translates x s where
  outOfFuel _ := fun _ _ _ => trivial
  endOfInput := Parser.endOfInput_translates.map _
  symbol c := (Parser.symbol_translates hsize c).map _
  range lo hi := (Parser.range_translates hsize lo hi).map _
  word w := (Parser.word_translates hsize w).map _
  -- the loops begin at two offsets that are as far apart as the texts
  sequence items run h := by
    refine Parser.Translates.map (fun o o' ho => ?_) _
    exact Parser.sequenceFrom_shifted (List.forall_mem_map.2 h) ho ho
  either branches run h := Parser.choice_translates (List.forall_mem_map.2 h)
  oneOf form types branches run h := by
    refine Parser.Translates.map (fun o o' ho => ?_) _
    refine Parser.taggedFrom_shifted (fun a ha => ?_) ho ho
    exact List.forall_mem_map.2 h a.2 (List.of_mem_zip ha).2
  many item p h := by
    refine Parser.Translates.map (fun o o' ho => ?_) _
    exact Parser.manyFrom_shifted h ho ho
  map f inner p h := Parser.mapped_translates h f
  rule i p h := Parser.named_translates h _ _
  watch label inner p h := fun o o' ho => (h o o' ho).of_ending rfl rfl

variable {g : Grammar ι κ}

/-- A run in `s` and the run as much further on in `x ++ s` come to the same. -/
theorem run_translates (hg : book.CustomFree g) (hsize : (x ++ s).utf8ByteSize < 2 ^ 64) :
    Parser.Translates x s (book.run g) :=
  runWith_induction_of_customFree (compositional_translates hsize) book.depthBound hg

/-- Two runs to which one is shifted end alike: that they are no faults leaves one way not to come
    to an outcome. -/
theorem ending_eq_of_shifted {n : Nat} {c c' : Cursor} (hg : book.CustomFree g)
    (hc : c.input.utf8ByteSize < 2 ^ 64) (hc' : c'.input.utf8ByteSize < 2 ^ 64)
    {r : Run (Outcome (Value κ))} (h : r.Shifted n (book.run g c))
    (h' : r.Shifted n (book.run g c')) : (book.run g c).ending = (book.run g c').ending := by
  have hwithin : (book.run g c).Within c := runWith_within hg hc _
  have hwithin' : (book.run g c').Within c' := runWith_within hg hc' _
  -- both runs are shifted from one, so both have an outcome or neither has
  obtain ⟨a, b, hr, hb, hab⟩ | ⟨stop, stop', hr, hstop⟩ := h.cases
  · obtain ⟨a', b', hr', hb', hab'⟩ | ⟨_, _, hr', -⟩ := h'.cases
    · obtain rfl : a = a' := by simpa [hr] using hr'
      rw [hb, hb', hab.unique hab']
    · rw [hr] at hr'
      cases hr'
  · obtain ⟨_, _, hr', -, -⟩ | ⟨_, stop'', -, hstop'⟩ := h'.cases
    · rw [hr] at hr'
      cases hr'
    · rw [hstop, hstop', hwithin.eq_outOfFuel hstop, hwithin'.eq_outOfFuel hstop']

/-- A grammar without custom parsers, run at some offset of `s`, and as much further on in the text
    `x ++ s` as `x` takes bytes. One run comes to an outcome exactly if the other does, and the
    outcomes are the same value with its span shifted, or the same failure with its offsets
    shifted. So any other text of that width would do as well before the cursor. -/
theorem run_shifted (book : Rulebook ι κ) (g : Grammar ι κ) (hg : book.CustomFree g)
    (x s : String) (hsize : (x ++ s).utf8ByteSize < 2 ^ 64) (o : Offset)
    (ho : x.utf8ByteSize + o.val < 2 ^ 64) :
    (book.Finishes g ⟨x ++ s, ⟨x.utf8ByteSize + o.val, ho⟩⟩ ↔ book.Finishes g ⟨s, o⟩) ∧
    (∀ a b, (book.run g ⟨s, o⟩).ending = .ok a →
      (book.run g ⟨x ++ s, ⟨x.utf8ByteSize + o.val, ho⟩⟩).ending = .ok b →
      a.Shifted x.utf8ByteSize b) ∧
    (∀ y : String, y.utf8ByteSize = x.utf8ByteSize →
      (book.run g ⟨y ++ s, ⟨x.utf8ByteSize + o.val, ho⟩⟩).ending =
        (book.run g ⟨x ++ s, ⟨x.utf8ByteSize + o.val, ho⟩⟩).ending) := by
  -- all is read off the two runs of this relation
  have hrun : (book.run g ⟨s, o⟩).Shifted x.utf8ByteSize
      (book.run g ⟨x ++ s, ⟨x.utf8ByteSize + o.val, ho⟩⟩) := run_translates hg hsize o _ rfl
  refine ⟨?_, ?_, ?_⟩
  · rw [finishes_iff, finishes_iff]
    obtain ⟨a, b, ha, hb, -⟩ | ⟨stop, stop', ha, hb⟩ := hrun.cases <;> simp [ha, hb]
  · intro a b ha hb
    obtain ⟨a', b', ha', hb', hab⟩ | ⟨_, _, ha', -⟩ := hrun.cases
    · obtain rfl : a = a' := by simpa [ha] using ha'
      obtain rfl : b = b' := by simpa [hb] using hb'
      exact hab
    · rw [ha] at ha'
      cases ha'
  -- with another text before it, the run in `s` by itself is what both are compared with
  · intro y hy
    have hsize' : (y ++ s).utf8ByteSize < 2 ^ 64 := by
      rw [String.utf8ByteSize_append] at hsize ⊢
      omega
    have hrun' : (book.run g ⟨s, o⟩).Shifted x.utf8ByteSize
        (book.run g ⟨y ++ s, ⟨x.utf8ByteSize + o.val, ho⟩⟩) := by
      have htranslates := run_translates hg hsize' o
      rw [hy] at htranslates
      exact htranslates _ rfl
    exact ending_eq_of_shifted hg hsize' hsize hrun' hrun

/-- A pair of brackets inside another is read behind one wide character as behind two narrow ones,
    and as it is read by itself. -/
theorem run_shifted_brackets :
    Sample.BracketRule.book.CustomFree (.rule .paren) ∧
      ("é" ++ "({})").utf8ByteSize < 2 ^ 64 ∧
      "é".utf8ByteSize + (0 : Offset).val < 2 ^ 64 ∧
      Sample.BracketRule.book.Finishes (.rule .paren) ⟨"é" ++ "({})", 2⟩ ∧
      (Sample.BracketRule.book.run (.rule .paren) ⟨"ab" ++ "({})", 2⟩).ending =
        .ok (.done (.made (.round [.curly []])) ⟨2, 6, by decide⟩) := by
  have hfree : Sample.BracketRule.book.CustomFree (.rule .paren) :=
    customFree_of_all (by intro i; cases i <;> rfl) rfl
  have hsize : ("é" ++ "({})").utf8ByteSize < 2 ^ 64 := by decide
  have ho : "é".utf8ByteSize + (0 : Offset).val < 2 ^ 64 := by decide
  have hends : (Sample.BracketRule.book.runWith 6 (.rule .paren) ⟨"({})", 0⟩).ending =
      .ok (.done (.made (.round [.curly []])) ⟨0, 4, by decide⟩) := by cbv
  have hbehind :
      (Sample.BracketRule.book.runWith 6 (.rule .paren) ⟨"é" ++ "({})", 2⟩).ending =
        .ok (.done (.made (.round [.curly []])) ⟨2, 6, by decide⟩) := by cbv
  have hshifted := run_shifted _ _ hfree "é" "({})" hsize 0 ho
  refine ⟨hfree, hsize, ho, hshifted.1.2 ⟨6, _, hends⟩, ?_⟩
  exact (hshifted.2.2 "ab" (by decide)).trans (ending_run_eq_ok hbehind)

end Rulebook

end ParserKit
