import ParserKit.Proofs.OffsetSafety
import ParserKit.Proofs.Reading

/-!
# Recognition by characters

What a grammar recognizes, told by the characters alone: `book.Derives g cs r` says that `g`, met
with the characters `cs`, consumes `w` of them (`r = some w`) or fails (`r = none`). No offset, no
value and no failure with its blame occurs in it. This file shows that a run at a boundary of a
text and a derivation on the characters that are left there come to the same.

From runs to derivations, the property that a parser shows nothing but what is derived
(`Rulebook.Sound`) is passed on by every kind of node. From derivations to runs, the induction is
on the derivation. A derivation treats the tail of a sequence as a sequence of its own, while a
run goes on in the middle of a loop; `Rulebook.resume` is the run that does so.

## Key results

- `Rulebook.Derives`: ordered choice, sequences and repetitions on lists of characters
- `Rulebook.Derives.isPrefix`: what is consumed stands at the start
- `Rulebook.compositional_sound`: every kind of node shows only what is derived
- `Rulebook.Derives.agrees`: what is derived is what the run comes to
-/

namespace ParserKit

variable {α β ι κ : Type}

namespace Rulebook

/-! ## Derivations -/

/-- `book.Derives g cs r`: on the characters `cs` the grammar `g` consumes `w` if `r` is `some w`,
    and fails if `r` is `none`. A branch of a tagged choice counts if there is a type for it. -/
inductive Derives (book : Rulebook ι κ) : Grammar ι κ → List Char → Option (List Char) → Prop
  | endOfInput : Derives book .endOfInput [] (some [])
  | endOfInput_fails {cs : List Char} : cs ≠ [] → Derives book .endOfInput cs none
  | symbol {x : Char} {cs : List Char} : Derives book (.symbol x) (x :: cs) (some [x])
  | symbol_fails {x : Char} {cs : List Char} :
      cs.head? ≠ some x → Derives book (.symbol x) cs none
  | range {lo hi x : Char} {cs : List Char} :
      lo ≤ x ∧ x ≤ hi → Derives book (.range lo hi) (x :: cs) (some [x])
  | range_fails {lo hi : Char} {cs : List Char} :
      (∀ x, cs.head? = some x → ¬ (lo ≤ x ∧ x ≤ hi)) → Derives book (.range lo hi) cs none
  | word {w : String} {cs : List Char} :
      Derives book (.word w) (w.toList ++ cs) (some w.toList)
  | word_fails {w : String} {cs : List Char} :
      ¬ w.toList <+: cs → Derives book (.word w) cs none
  | sequence_nil {cs : List Char} : Derives book (.sequence []) cs (some [])
  | sequence_next {g : Grammar ι κ} {gs : List (Grammar ι κ)} {w cs : List Char}
      {r : Option (List Char)} :
      Derives book g (w ++ cs) (some w) → Derives book (.sequence gs) cs r →
      Derives book (.sequence (g :: gs)) (w ++ cs) (r.map (w ++ ·))
  | sequence_fails {g : Grammar ι κ} {gs : List (Grammar ι κ)} {cs : List Char} :
      Derives book g cs none → Derives book (.sequence (g :: gs)) cs none
  | either_nil {cs : List Char} : Derives book (.either []) cs none
  | either_first {g : Grammar ι κ} {gs : List (Grammar ι κ)} {w cs : List Char} :
      Derives book g cs (some w) → Derives book (.either (g :: gs)) cs (some w)
  | either_next {g : Grammar ι κ} {gs : List (Grammar ι κ)} {cs : List Char}
      {r : Option (List Char)} :
      Derives book g cs none → Derives book (.either gs) cs r →
      Derives book (.either (g :: gs)) cs r
  | oneOf {form : Form} {types : List String} {branches : List (Grammar ι κ)} {cs : List Char}
      {r : Option (List Char)} :
      Derives book (.either (branches.take types.length)) cs r →
      Derives book (.oneOf form types branches) cs r
  | many_stop {g : Grammar ι κ} {cs : List Char} :
      Derives book g cs none → Derives book (.many g) cs (some [])
  | many_last {g : Grammar ι κ} {cs : List Char} :
      Derives book g cs (some []) → Derives book (.many g) cs (some [])
  | many_next {g : Grammar ι κ} {w v cs : List Char} :
      Derives book g (w ++ cs) (some w) → w ≠ [] → Derives book (.many g) cs (some v) →
      Derives book (.many g) (w ++ cs) (some (w ++ v))
  | map {f : Value κ → Value κ} {g : Grammar ι κ} {cs : List Char} {r : Option (List Char)} :
      Derives book g cs r → Derives book (.map f g) cs r
  | rule {i : ι} {cs : List Char} {r : Option (List Char)} :
      Derives book (book.rule i).body cs r → Derives book (.rule i) cs r
  | watch {label : String} {g : Grammar ι κ} {cs : List Char} {r : Option (List Char)} :
      Derives book g cs r → Derives book (.watch label g) cs r

variable {book : Rulebook ι κ}

/-- What is consumed stands at the start. -/
theorem Derives.isPrefix {g : Grammar ι κ} {cs w : List Char}
    (h : book.Derives g cs (some w)) : w <+: cs := by
  generalize hr : some w = r at h
  -- the rules that fail answer `none`; each of the others puts what it consumed in front
  induction h generalizing w with
  | endOfInput | symbol | range | word => cases hr; exact ⟨_, rfl⟩
  | sequence_nil | many_stop | many_last => cases hr; exact List.nil_prefix
  | endOfInput_fails | symbol_fails | range_fails | word_fails | sequence_fails | either_nil =>
    cases hr
  | sequence_next _ _ _ ih =>
    obtain ⟨v, hv, rfl⟩ := Option.map_eq_some_iff.1 hr.symm
    exact List.prefix_append_right_inj _ |>.2 (ih hv.symm)
  | many_next _ _ _ _ ih =>
    cases hr
    exact List.prefix_append_right_inj _ |>.2 (ih rfl)
  | either_first _ ih => exact ih hr
  | either_next _ _ _ ih => exact ih hr
  | oneOf _ ih | map _ ih | rule _ ih | watch _ ih => exact ih hr

end Rulebook

/-! ## What an outcome says of the characters -/

/-- An outcome at offset `o` says the same as a derivation: it ends behind what is consumed, or it
    is a failure. -/
def Outcome.Agrees (o : Offset) : Outcome α → Option (List Char) → Prop
  | .done _ s, some w => s.stop.val = o.val + Text.width w
  | .failed _, none => True
  | _, _ => False

/-- A conversion of the value does not change what an outcome says of the characters. -/
theorem Outcome.agrees_map {o : Offset} {x : Outcome α} {f : α → β} {r : Option (List Char)} :
    (x.map f).Agrees o r ↔ x.Agrees o r := by
  cases x <;> cases r <;> exact Iff.rfl

/-- The two ways to agree, with what each of them fixes on both sides. -/
theorem Outcome.Agrees.cases {o : Offset} {x : Outcome α} {r : Option (List Char)}
    (h : x.Agrees o r) :
    (∃ v s w, x = .done v s ∧ r = some w ∧ s.stop.val = o.val + Text.width w) ∨
      ∃ f, x = .failed f ∧ r = none := by
  -- a match against `none` and a failure against `some` do not agree
  cases x <;> cases r
  · exact absurd h id
  · exact .inl ⟨_, _, _, rfl, rfl, h⟩
  · exact .inr ⟨_, rfl, rfl⟩
  · exact absurd h id

/-- What an outcome further on says, together with what was consumed on the way there. -/
theorem Outcome.Agrees.after {o p : Offset} {x : Outcome α} {w : List Char}
    {r : Option (List Char)} (hp : p.val = o.val + Text.width w) (h : x.Agrees p r) :
    x.Agrees o (r.map (w ++ ·)) := by
  cases x <;> cases r <;> simp only [Agrees, Option.map] at h ⊢
  rw [Text.width_append]
  omega

/-- The run answers what the derivation says. -/
def Run.Agrees (o : Offset) (d : Option (List Char)) (r : Run (Outcome α)) : Prop :=
  ∃ x, r.ending = .ok x ∧ x.Agrees o d

/-- Whatever the run answers, a derivation in `D` says the same. -/
def Run.Shows (o : Offset) (D : Option (List Char) → Prop) (r : Run (Outcome α)) : Prop :=
  ∀ x, r.ending = .ok x → ∃ d, D d ∧ x.Agrees o d

namespace Run

variable {o p : Offset} {d e : Option (List Char)} {D E : Option (List Char) → Prop}
  {r r' : Run (Outcome α)}

/-! ### Rules for `Agrees` -/

/-- Only the ending of a run counts, not its trace. -/
theorem Agrees.of_ending (h : r.Agrees o d) (he : r'.ending = r.ending) : r'.Agrees o d := by
  obtain ⟨x, hr, hx⟩ := h
  exact ⟨x, by rw [he, hr], hx⟩

/-- What follows is asked only for an outcome that says what the first derivation says. -/
theorem Agrees.andThen {k : Outcome α → Run (Outcome β)} (h : r.Agrees o d)
    (hk : ∀ x, x.Agrees o d → (k x).Agrees p e) : (r.andThen k).Agrees p e := by
  obtain ⟨x, hr, hx⟩ := h
  obtain ⟨y, hy, hagrees⟩ := hk x hx
  refine ⟨y, ?_, hagrees⟩
  rw [ending_andThen, hr]
  exact hy

/-- A conversion of the value changes nothing, in either direction. -/
theorem agrees_mapValue {f : α → β} : (r.mapValue f).Agrees o d ↔ r.Agrees o d := by
  constructor
  -- the converted run has an outcome only if the run itself has one
  · rintro ⟨y, hy, hagrees⟩
    rw [Run.mapValue, ending_map] at hy
    cases hr : r.ending with
    | error stop => rw [hr] at hy; cases hy
    | ok x =>
      rw [hr] at hy
      cases hy
      exact ⟨x, hr, Outcome.agrees_map.1 hagrees⟩
  · rintro ⟨x, hr, hx⟩
    refine ⟨x.map f, ?_, Outcome.agrees_map.2 hx⟩
    rw [Run.mapValue, ending_map, hr]
    rfl

/-- What a run further on agrees with, together with what was consumed on the way there. -/
theorem Agrees.after {w : List Char} (hp : p.val = o.val + Text.width w) (h : r.Agrees p d) :
    r.Agrees o (d.map (w ++ ·)) := by
  obtain ⟨x, hr, hx⟩ := h
  exact ⟨x, hr, hx.after hp⟩

/-- To close the span of a whole agrees with having consumed what lies behind the start. The span
    may begin earlier, as that of a loop does. -/
theorem agrees_doneAt {v : α} {b : Offset} {w : List Char} (hb : b.val ≤ p.val)
    (hp : p.val = o.val + Text.width w) : (Run.doneAt v (Span.between b p)).Agrees o (some w) := by
  rw [Span.between, dif_pos hb]
  exact ⟨_, rfl, hp⟩

/-! ### Rules for `Shows` -/

/-- Only the ending of a run counts, not its trace. -/
theorem Shows.of_ending (h : r.Shows o D) (he : r'.ending = r.ending) : r'.Shows o D := by
  intro x hx
  rw [he] at hx
  exact h x hx

/-- A run has one answer, so what it agrees with is all it shows. -/
theorem Agrees.shows (h : r.Agrees o d) (hd : D d) : r.Shows o D := by
  obtain ⟨x, hx, hagrees⟩ := h
  intro y hy
  rw [hx] at hy
  cases hy
  exact ⟨d, hd, hagrees⟩

/-- What follows is asked only for an outcome that a derivation says the same as. If the first run
    has no outcome, the whole has none and there is nothing to show. -/
theorem Shows.andThen {k : Outcome α → Run (Outcome β)} (h : r.Shows o D)
    (hk : ∀ x d, D d → x.Agrees o d → (k x).Shows p E) : (r.andThen k).Shows p E := by
  intro y hy
  rw [ending_andThen] at hy
  cases hr : r.ending with
  | error stop => rw [hr] at hy; cases hy
  | ok x =>
    rw [hr] at hy
    obtain ⟨d, hd, hx⟩ := h x hr
    exact hk x d hd hx y hy

/-- A conversion of the value changes nothing, in either direction. -/
theorem shows_mapValue {f : α → β} : (r.mapValue f).Shows o D ↔ r.Shows o D := by
  constructor
  -- an outcome of the run is converted to one of the converted run
  · intro h x hx
    have hmap : (r.mapValue f).ending = .ok (x.map f) := by
      rw [Run.mapValue, ending_map, hx]
      rfl
    obtain ⟨d, hd, hagrees⟩ := h _ hmap
    exact ⟨d, hd, Outcome.agrees_map.1 hagrees⟩
  -- and an outcome of the converted run comes from one of the run
  · intro h y hy
    rw [Run.mapValue, ending_map] at hy
    cases hr : r.ending with
    | error stop => rw [hr] at hy; cases hy
    | ok x =>
      rw [hr] at hy
      cases hy
      obtain ⟨d, hd, hagrees⟩ := h x hr
      exact ⟨d, hd, Outcome.agrees_map.2 hagrees⟩

/-- More derivations to choose from. -/
theorem Shows.imp (h : r.Shows o D) (hDE : ∀ d, D d → E d) : r.Shows o E := by
  intro x hx
  obtain ⟨d, hd, hagrees⟩ := h x hx
  exact ⟨d, hDE d hd, hagrees⟩

/-- What a run further on shows, together with what was consumed on the way there. -/
theorem Shows.after {w : List Char} (hp : p.val = o.val + Text.width w) (h : r.Shows p D)
    (hDE : ∀ d, D d → E (d.map (w ++ ·))) : r.Shows o E := by
  intro x hx
  obtain ⟨d, hd, hagrees⟩ := h x hx
  exact ⟨_, hDE d hd, hagrees.after hp⟩

/-- To end with a match shows what was consumed, up to the end of the match. -/
theorem shows_done {v : α} {s : Span} {w : List Char} (hs : s.stop.val = o.val + Text.width w)
    (h : D (some w)) : (Run.done v s).Shows o D := by
  intro x hx
  cases hx
  exact ⟨_, h, hs⟩

/-- To end with a failure shows that there is a derivation that fails. -/
theorem shows_failed {f : Failure} (h : D none) :
    (Run.failed f : Run (Outcome α)).Shows o D := by
  intro x hx
  cases hx
  exact ⟨_, h, trivial⟩

/-- To close the span of a whole shows what was consumed. Where the span is reversed the run ends
    in a fault, and there is nothing to show. -/
theorem shows_doneAt {v : α} {b : Offset} {w : List Char}
    (hp : p.val = o.val + Text.width w) (h : D (some w)) :
    (Run.doneAt v (Span.between b p)).Shows o D := by
  unfold Span.between
  split
  · exact shows_done hp h
  · intro x hx
    cases hx

end Run

/-! ## Parsers by characters -/

namespace Parser

variable {input : String} {p : Parser α} {ps : List (Parser α)} {v : α} {w cs rest : List Char}
  {d : Option (List Char)} {D : Option (List Char) → Prop} {start o furthest : Offset}

/-- Reading characters agrees with having consumed them. -/
theorem Reads.agrees (h : Reads input p (w ++ rest) v rest)
    (ho : Text.Before input o.val (w ++ rest)) : (p ⟨input, o⟩).Agrees o (some w) := by
  obtain ⟨s, hend, -, hs⟩ := h o ho
  refine ⟨_, hend, ?_⟩
  have hw := ho.add_width
  have hw' := hs.add_width
  rw [Text.width_append] at hw
  show s.stop.val = o.val + Text.width w
  omega

/-- Failing on the characters that are left agrees with a derivation that fails. -/
theorem Fails.agrees (h : Fails input p cs) (ho : Text.Before input o.val cs) :
    (p ⟨input, o⟩).Agrees o none := by
  obtain ⟨f, hend⟩ := h o ho
  exact ⟨_, hend, trivial⟩

/-- The alternatives of a tagged choice are those that have a type. -/
private theorem map_snd_zip_types (types : List String) (ps : List (Parser α)) :
    (types.zip ps).map (·.2) = ps.take types.length := by
  induction types generalizing ps with
  | nil => simp
  | cons t types ih => cases ps <;> simp [ih]

/-- A tagged choice answers by characters as the choice of its alternatives does. -/
theorem ending_taggedFrom_zip (types : List String) (ps : List (Parser α)) (c : Cursor)
    (furthest : Offset) :
    ((taggedFrom c furthest (types.zip ps)).mapValue fun w => w.storage.payload).ending =
      (choiceFrom c furthest (ps.take types.length)).ending := by
  rw [ending_taggedFrom, map_snd_zip_types]

/-! ### Steps of the loops

What a loop answers from a derivation for its next part and one for the rest of it. -/

/-- A part is consumed, and the rest of the sequence is met where it ends. -/
theorem sequenceFrom_next (hp : (p ⟨input, o⟩).Agrees o (some w))
    (hps : ∀ q : Offset, q.val = o.val + Text.width w →
      (sequenceFrom start ps ⟨input, q⟩).Agrees q d) :
    (sequenceFrom start (p :: ps) ⟨input, o⟩).Agrees o (d.map (w ++ ·)) := by
  rw [sequenceFrom]
  refine hp.andThen fun x hx => ?_
  -- a failure does not agree with `some w`, so this is the match
  obtain ⟨v, s, _, rfl, ⟨⟩, hs⟩ | ⟨f, rfl, ⟨⟩⟩ := hx.cases
  exact (Run.agrees_mapValue.2 (hps s.stop hs)).after hs

/-- A part fails, and with it the sequence. -/
theorem sequenceFrom_failed (hp : (p ⟨input, o⟩).Agrees o none) :
    (sequenceFrom start (p :: ps) ⟨input, o⟩).Agrees o none := by
  rw [sequenceFrom]
  refine hp.andThen fun x hx => ?_
  obtain ⟨v, s, _, rfl, ⟨⟩, hs⟩ | ⟨f, rfl, -⟩ := hx.cases
  exact ⟨_, rfl, trivial⟩

/-- The first branch decides if it is consumed. -/
theorem choiceFrom_first (hp : (p ⟨input, o⟩).Agrees o (some w)) :
    (choiceFrom ⟨input, o⟩ furthest (p :: ps)).Agrees o (some w) := by
  rw [choiceFrom]
  refine hp.andThen fun x hx => ?_
  obtain ⟨v, s, _, rfl, ⟨⟩, hs⟩ | ⟨f, rfl, ⟨⟩⟩ := hx.cases
  exact ⟨_, rfl, hs⟩

/-- If the first branch fails, the others decide, however far the failure came. -/
theorem choiceFrom_next (hp : (p ⟨input, o⟩).Agrees o none)
    (hps : ∀ furthest, (choiceFrom ⟨input, o⟩ furthest ps).Agrees o d) :
    (choiceFrom ⟨input, o⟩ furthest (p :: ps)).Agrees o d := by
  rw [choiceFrom]
  refine hp.andThen fun x hx => ?_
  obtain ⟨v, s, _, rfl, ⟨⟩, hs⟩ | ⟨f, rfl, -⟩ := hx.cases
  exact hps _

/-- A repetition ends where its part fails, with nothing more consumed. -/
theorem manyFrom_stop (hstart : start.val ≤ o.val) (hp : (p ⟨input, o⟩).Agrees o none) :
    (manyFrom p start ⟨input, o⟩).Agrees o (some []) := by
  rw [manyFrom]
  refine hp.andThen fun x hx => ?_
  obtain ⟨v, s, _, rfl, ⟨⟩, hs⟩ | ⟨f, rfl, -⟩ := hx.cases
  exact Run.agrees_doneAt hstart (by simp)

/-- A repetition ends with a match that consumes nothing. -/
theorem manyFrom_last (hstart : start.val ≤ o.val) (hp : (p ⟨input, o⟩).Agrees o (some [])) :
    (manyFrom p start ⟨input, o⟩).Agrees o (some []) := by
  rw [manyFrom]
  refine hp.andThen fun x hx => ?_
  obtain ⟨v, s, _, rfl, ⟨⟩, hs⟩ | ⟨f, rfl, ⟨⟩⟩ := hx.cases
  have hstop : s.stop.val = o.val := by simpa using hs
  -- so the guard of the loop sends no further round
  have hstays : ¬ o.val < s.stop.val := by omega
  dsimp only
  rw [if_neg hstays]
  exact Run.agrees_doneAt (by omega) hs

/-- A match that consumes something is followed by another round where it ends. -/
theorem manyFrom_next (hp : (p ⟨input, o⟩).Agrees o (some w)) (hw : w ≠ [])
    (hrest : ∀ q : Offset, q.val = o.val + Text.width w →
      (manyFrom p start ⟨input, q⟩).Agrees q d) :
    (manyFrom p start ⟨input, o⟩).Agrees o (d.map (w ++ ·)) := by
  rw [manyFrom]
  refine hp.andThen fun x hx => ?_
  obtain ⟨v, s, _, rfl, ⟨⟩, hs⟩ | ⟨f, rfl, ⟨⟩⟩ := hx.cases
  -- each character takes at least one byte, so a match of some characters leads further
  have hmoves : o.val < s.stop.val := by
    have hpos := List.length_pos_of_ne_nil hw
    have hlen := Text.length_le_width w
    omega
  dsimp only
  rw [if_pos hmoves]
  exact (Run.agrees_mapValue.2 (hrest s.stop hs)).after hs

/-- A conversion with an event agrees with what its part agrees with. -/
theorem mapped_agrees (hp : (p ⟨input, o⟩).Agrees o d) (f : α → β) :
    (mapped f p ⟨input, o⟩).Agrees o d := by
  refine hp.andThen fun x hx => ?_
  obtain ⟨v, s, w, rfl, rfl, hs⟩ | ⟨e, rfl, rfl⟩ := hx.cases
  · exact ⟨_, rfl, hs⟩
  · exact ⟨_, rfl, trivial⟩

/-- A rule agrees with what its body agrees with, whatever its name and its action. -/
theorem named_agrees (hp : (p ⟨input, o⟩).Agrees o d) (name : String) (action : α → β) :
    (named name action p ⟨input, o⟩).Agrees o d := by
  refine Run.Agrees.of_ending (hp.andThen fun x hx => ?_) rfl
  obtain ⟨v, s, w, rfl, rfl, hs⟩ | ⟨f, rfl, rfl⟩ := hx.cases
  · exact ⟨_, rfl, hs⟩
  · exact ⟨_, rfl, trivial⟩

end Parser

namespace Rulebook

open ParserKit.Parser (Reads Fails sequenceFrom choiceFrom taggedFrom manyFrom)

variable {input : String} {book : Rulebook ι κ} {cs : List Char}

/-! ## From runs to derivations -/

/-- What the parser answers on the characters that are left of a text is derived for the
    grammar. -/
def Sound (book : Rulebook ι κ) (input : String) (g : Grammar ι κ) (p : Parser α) : Prop :=
  ∀ (o : Offset) (cs : List Char), Text.Before input o.val cs →
    (p ⟨input, o⟩).Shows o (book.Derives g cs)

/-- Values do not count for what is derived. -/
theorem Sound.map {g : Grammar ι κ} {p : Parser α} (h : book.Sound input g p) (f : α → β) :
    book.Sound input g (Parser.map f p) := fun o cs ho => Run.shows_mapValue.2 (h o cs ho)

/-- The end of the text is met exactly where no character is left. -/
theorem endOfInput_sound : book.Sound input .endOfInput Parser.endOfInput := by
  intro o cs ho
  cases cs with
  | nil =>
    have hreads : Reads input Parser.endOfInput ([] ++ []) () [] := Parser.endOfInput_reads
    exact (hreads.agrees ho).shows .endOfInput
  | cons x cs =>
    have hne : x :: cs ≠ [] := List.cons_ne_nil x cs
    exact ((Parser.endOfInput_fails hne).agrees ho).shows (.endOfInput_fails hne)

/-- A symbol is met where it is the first of the characters that are left. -/
theorem symbol_sound (hsize : input.utf8ByteSize < 2 ^ 64) (x : Char) :
    book.Sound input (.symbol x) (Parser.symbol x) := by
  intro o cs ho
  by_cases hx : cs.head? = some x
  · obtain ⟨rest, rfl⟩ := List.head?_eq_some_iff.1 hx
    have hreads : Reads input (Parser.symbol x) ([x] ++ rest) x rest :=
      Parser.symbol_reads hsize x
    exact (hreads.agrees ho).shows .symbol
  · exact ((Parser.symbol_fails hx).agrees ho).shows (.symbol_fails hx)

/-- A character of a range is met where the first of the characters that are left lies in it. -/
theorem range_sound (hsize : input.utf8ByteSize < 2 ^ 64) (lo hi : Char) :
    book.Sound input (.range lo hi) (Parser.range lo hi) := by
  intro o cs ho
  -- the negation of the first case is the side condition of `range_fails`
  by_cases hx : ∃ x, cs.head? = some x ∧ lo ≤ x ∧ x ≤ hi
  · obtain ⟨x, hhead, hin⟩ := hx
    obtain ⟨rest, rfl⟩ := List.head?_eq_some_iff.1 hhead
    have hreads : Reads input (Parser.range lo hi) ([x] ++ rest) x rest :=
      Parser.range_reads hsize hin
    exact (hreads.agrees ho).shows (.range hin)
  · have hout : ∀ x, cs.head? = some x → ¬ (lo ≤ x ∧ x ≤ hi) := fun x hhead hin =>
      hx ⟨x, hhead, hin⟩
    exact ((Parser.range_fails hout).agrees ho).shows (.range_fails hout)

/-- A word is met where the characters that are left begin with it. -/
theorem word_sound (hsize : input.utf8ByteSize < 2 ^ 64) (w : String) :
    book.Sound input (.word w) (Parser.word w) := by
  intro o cs ho
  by_cases hw : w.toList <+: cs
  · obtain ⟨rest, rfl⟩ := hw
    exact ((Parser.word_reads hsize w).agrees ho).shows .word
  · exact ((Parser.word_fails hw).agrees ho).shows (.word_fails hw)

section

variable {items : List (Grammar ι κ)} {run : Grammar ι κ → Parser (Value κ)}

/-- A sequence that began at `start` and is now at `o` shows what is derived for the parts that are
    still to come. -/
theorem sequenceFrom_shows (h : ∀ g ∈ items, book.Sound input g (run g)) (start o : Offset)
    (ho : Text.Before input o.val cs) :
    (sequenceFrom start (items.map run) ⟨input, o⟩).Shows o
      (book.Derives (.sequence items) cs) := by
  -- the characters and the offset both move on with each part, the start of the span does not
  induction items generalizing o cs with
  | nil => exact Run.shows_doneAt (w := []) (by simp) .sequence_nil
  | cons g items ih =>
    rw [List.map_cons, sequenceFrom]
    refine (h g List.mem_cons_self o cs ho).andThen fun x d hd hx => ?_
    obtain ⟨v, s, w, rfl, rfl, hs⟩ | ⟨f, rfl, rfl⟩ := hx.cases
    -- what was consumed is cut off in front; the rest is left at the end of the match
    · obtain ⟨rest, rfl⟩ := hd.isPrefix
      have hrest : Text.Before input s.stop.val rest := by rw [hs]; exact ho.advance_append
      have htail := ih (fun k hk => h k (List.mem_cons_of_mem g hk)) s.stop hrest
      exact Run.shows_mapValue.2 (htail.after hs fun d hd' => .sequence_next hd hd')
    · exact Run.shows_failed (.sequence_fails hd)

/-- A choice shows what is derived for its branches, however far those before came. -/
theorem choiceFrom_shows (h : ∀ g ∈ items, book.Sound input g (run g)) (o furthest : Offset)
    (ho : Text.Before input o.val cs) :
    (choiceFrom ⟨input, o⟩ furthest (items.map run)).Shows o
      (book.Derives (.either items) cs) := by
  -- every branch is tried at `o`; only the furthest offset changes on the way
  induction items generalizing furthest with
  | nil => exact Run.shows_failed .either_nil
  | cons g items ih =>
    rw [List.map_cons, choiceFrom]
    refine (h g List.mem_cons_self o cs ho).andThen fun x d hd hx => ?_
    obtain ⟨v, s, w, rfl, rfl, hs⟩ | ⟨f, rfl, rfl⟩ := hx.cases
    · exact Run.shows_done hs (.either_first hd)
    · have htail := ih (fun k hk => h k (List.mem_cons_of_mem g hk))
        (Offset.max furthest f.furthest)
      exact htail.imp fun d hd' => .either_next hd hd'

/-- A tagged choice shows what is derived for the choice of those branches that have a type. -/
theorem tagged_shows (h : ∀ g ∈ items, book.Sound input g (run g)) (types : List String)
    (o : Offset) (ho : Text.Before input o.val cs) :
    (Parser.tagged (types.zip (items.map run)) ⟨input, o⟩).Shows o
      (book.Derives (.either (items.take types.length)) cs) := by
  -- branches beyond the types are never tried
  have hbranches : ∀ g ∈ items.take types.length, book.Sound input g (run g) :=
    fun g hg => h g (List.mem_of_mem_take hg)
  have htake := choiceFrom_shows hbranches o o ho
  rw [List.map_take] at htake
  exact Run.shows_mapValue.1 (htake.of_ending (Parser.ending_taggedFrom_zip types _ _ o))

end

/-- A repetition that began at `start` and is now at `o` shows what is derived for it from here on.
    -/
theorem manyFrom_shows {g : Grammar ι κ} {p : Parser (Value κ)} (h : book.Sound input g p)
    (start o : Offset) (ho : Text.Before input o.val cs) :
    (manyFrom p start ⟨input, o⟩).Shows o (book.Derives (.many g) cs) := by
  -- another round runs only behind a match that led further, so the offset carries the induction
  induction o using Offset.forward_induction generalizing cs with
  | further o ih =>
    rw [manyFrom]
    refine (h o cs ho).andThen fun x d hd hx => ?_
    obtain ⟨v, s, w, rfl, rfl, hs⟩ | ⟨f, rfl, rfl⟩ := hx.cases
    · obtain ⟨rest, rfl⟩ := hd.isPrefix
      have hlen := Text.length_le_width w
      dsimp only
      split
      · rename_i hmoves
        -- a match that leads further has consumed something
        have hw : w ≠ [] := by
          rintro rfl
          rw [hs, Text.width_nil] at hmoves
          omega
        have hrest : Text.Before input s.stop.val rest := by rw [hs]; exact ho.advance_append
        refine Run.shows_mapValue.2 ((ih s.stop hmoves hrest).after hs fun d hd' => ?_)
        cases d with
        | none => cases hd'
        | some v => exact .many_next hd hw hd'
      · -- the match stays where it is, so it consumed nothing
        have hw : w = [] := List.length_eq_zero_iff.1 (by omega)
        subst hw
        exact Run.shows_doneAt hs (.many_last hd)
    · exact Run.shows_doneAt (w := []) (by simp) (.many_stop hd)

/-- A conversion with an event shows what is derived for its part. -/
theorem mapped_sound {g : Grammar ι κ} {p : Parser (Value κ)} (h : book.Sound input g p)
    (f : Value κ → Value κ) : book.Sound input (.map f g) (Parser.mapped f p) := by
  intro o cs ho
  refine (h o cs ho).andThen fun x d hd hx => ?_
  obtain ⟨v, s, w, rfl, rfl, hs⟩ | ⟨e, rfl, rfl⟩ := hx.cases
  · exact Run.Shows.of_ending (Run.shows_done hs (.map hd)) rfl
  · exact Run.shows_failed (.map hd)

/-- A rule shows what is derived for its body. -/
theorem named_sound {i : ι} {p : Parser (Value κ)} (h : book.Sound input (book.rule i).body p) :
    book.Sound input (.rule i) (Parser.named (book.rule i).name (book.rule i).action p) := by
  intro o cs ho
  refine Run.Shows.of_ending ((h o cs ho).andThen fun x d hd hx => ?_) rfl
  obtain ⟨v, s, w, rfl, rfl, hs⟩ | ⟨e, rfl, rfl⟩ := hx.cases
  · exact Run.Shows.of_ending (Run.shows_done hs (.rule hd)) rfl
  · exact Run.Shows.of_ending (Run.shows_failed (.rule hd)) rfl

/-- Every kind of node shows only what is derived. -/
theorem compositional_sound (hsize : input.utf8ByteSize < 2 ^ 64) :
    book.Compositional fun g p => book.Sound input g p where
  outOfFuel i := fun _ _ _ x hx => by cases hx
  endOfInput := endOfInput_sound.map _
  symbol x := (symbol_sound hsize x).map _
  range lo hi := (range_sound hsize lo hi).map _
  word w := (word_sound hsize w).map _
  sequence items run h := fun o cs ho => Run.shows_mapValue.2 (sequenceFrom_shows h o o ho)
  either branches run h := by
    intro o cs ho
    rw [Parser.choice_eq_choiceFrom]
    exact choiceFrom_shows h o Offset.zero ho
  oneOf form types branches run h := fun o cs ho =>
    Run.shows_mapValue.2 ((tagged_shows h types o ho).imp fun d hd => .oneOf hd)
  many item p h := fun o cs ho => Run.shows_mapValue.2 (manyFrom_shows h o o ho)
  map f inner p h := mapped_sound h f
  rule i p h := named_sound h
  watch label inner p h := fun o cs ho => ((h o cs ho).imp fun d hd => .watch hd).of_ending rfl

/-! ## From derivations to runs -/

/-- The run of a grammar in the middle of its loop: of a sequence or a repetition that began at
    `start`, or of a choice whose branches before came to `furthest`. -/
def resume (book : Rulebook ι κ) (start furthest : Offset) : Grammar ι κ → Parser (Value κ)
  | .sequence items => Parser.map .seq (sequenceFrom start (items.map book.run))
  | .either branches => fun c => choiceFrom c furthest (branches.map book.run)
  | .many item => Parser.map .many (manyFrom (book.run item) start)
  | g => book.run g

/-- A run is in its loop from where it begins. -/
theorem run_eq_resume (g : Grammar ι κ) (c : Cursor) :
    book.run g c = book.resume c.offset Offset.zero g c := by
  cases g with
  | sequence items => rw [run_sequence]; rfl
  | either branches => rw [run_either]; exact Parser.choice_eq_choiceFrom _ c
  | _ => rfl

/-- What is derived on the characters that are left is what the run answers there, and what it
    answers in the middle of its loop. -/
theorem Derives.agrees_resume (hsize : input.utf8ByteSize < 2 ^ 64) {g : Grammar ι κ}
    {d : Option (List Char)} (h : book.Derives g cs d) {o : Offset}
    (ho : Text.Before input o.val cs) {start : Offset} (hstart : start.val ≤ o.val)
    (furthest : Offset) : (book.resume start furthest g ⟨input, o⟩).Agrees o d := by
  -- a part starts a loop of its own, at the place where it is run
  have begun {k : Grammar ι κ} {p : Offset} {e : Option (List Char)}
      (hk : (book.resume p Offset.zero k ⟨input, p⟩).Agrees p e) :
      (book.run k ⟨input, p⟩).Agrees p e := by
    rwa [run_eq_resume]
  -- the tail of a sequence is derived as a sequence, but run as the loop of the whole goes on; so
  -- the offset, the start of the loop and the furthest offset vary along the derivation
  induction h generalizing o start furthest with
  -- terminals: reading and failing by characters is known
  | endOfInput =>
    have hreads : Reads input (book.run .endOfInput) ([] ++ []) .eof [] := reads_endOfInput
    exact hreads.agrees ho
  | endOfInput_fails hne => exact (fails_endOfInput hne).agrees ho
  | @symbol x cs =>
    have hreads : Reads input (book.run (.symbol x)) ([x] ++ cs) (.char x) cs :=
      reads_symbol hsize x
    exact hreads.agrees ho
  | symbol_fails hne => exact (fails_symbol hne).agrees ho
  | @range lo hi x cs hin =>
    have hreads : Reads input (book.run (.range lo hi)) ([x] ++ cs) (.char x) cs :=
      reads_range hsize hin
    exact hreads.agrees ho
  | range_fails hout => exact (fails_range hout).agrees ho
  | word => exact ((Parser.word_reads hsize _).map _).agrees ho
  | word_fails hw => exact (Fails.map (Parser.word_fails hw) _).agrees ho
  -- sequences: the first part runs as begun here, the others as the loop behind it
  | sequence_nil => exact Run.agrees_mapValue.2 (Run.agrees_doneAt hstart (by simp))
  | @sequence_next g gs w cs r _ _ ihg ihgs =>
    have hg := begun (ihg ho (Nat.le_refl _) Offset.zero)
    refine Run.agrees_mapValue.2 (Parser.sequenceFrom_next hg fun q hq => ?_)
    have hrest : Text.Before input q.val cs := by rw [hq]; exact ho.advance_append
    exact Run.agrees_mapValue.1 (ihgs hrest (by omega) furthest)
  | sequence_fails _ ih =>
    have hg := begun (ih ho (Nat.le_refl _) Offset.zero)
    exact Run.agrees_mapValue.2 (Parser.sequenceFrom_failed hg)
  -- choices: all branches are run at the same offset, with any furthest offset
  | either_nil => exact ⟨_, rfl, trivial⟩
  | either_first _ ih =>
    exact Parser.choiceFrom_first (begun (ih ho (Nat.le_refl _) Offset.zero))
  | either_next _ _ ihg ihgs =>
    have hg := begun (ihg ho (Nat.le_refl _) Offset.zero)
    exact Parser.choiceFrom_next hg fun furthest => ihgs ho hstart furthest
  | @oneOf form types branches _ _ _ ih =>
    have hchoice := ih ho hstart o
    simp only [resume, List.map_take] at hchoice
    rw [resume, run_oneOf]
    -- the run tags what the choice of the same branches answers
    · have htagged := hchoice.of_ending (Parser.ending_taggedFrom_zip types _ _ o)
      exact Run.agrees_mapValue.2 (Run.agrees_mapValue.1 htagged)
    all_goals exact nofun
  -- repetitions: the part runs as begun here, a further round as the loop behind it
  | many_stop _ ih =>
    have hg := begun (ih ho (Nat.le_refl _) Offset.zero)
    exact Run.agrees_mapValue.2 (Parser.manyFrom_stop hstart hg)
  | many_last _ ih =>
    have hg := begun (ih ho (Nat.le_refl _) Offset.zero)
    exact Run.agrees_mapValue.2 (Parser.manyFrom_last hstart hg)
  | @many_next g w v cs _ hw _ ihg ihrest =>
    have hg := begun (ihg ho (Nat.le_refl _) Offset.zero)
    refine Run.agrees_mapValue.2 (Parser.manyFrom_next (d := some v) hg hw fun q hq => ?_)
    have hrest : Text.Before input q.val cs := by rw [hq]; exact ho.advance_append
    exact Run.agrees_mapValue.1 (ihrest hrest (by omega) furthest)
  | map _ ih => exact Parser.mapped_agrees (begun (ih ho (Nat.le_refl _) Offset.zero)) _
  | rule _ ih =>
    have hbody := begun (ih ho (Nat.le_refl _) Offset.zero)
    exact (Parser.named_agrees hbody _ _).of_ending (ending_run_rule _ _)
  | watch _ ih => exact (begun (ih ho (Nat.le_refl _) Offset.zero)).of_ending rfl

/-- What is derived on the characters that are left is what the run answers there. -/
theorem Derives.agrees (hsize : input.utf8ByteSize < 2 ^ 64) {g : Grammar ι κ}
    {d : Option (List Char)} (h : book.Derives g cs d) {o : Offset}
    (ho : Text.Before input o.val cs) : (book.run g ⟨input, o⟩).Agrees o d := by
  rw [run_eq_resume]
  exact h.agrees_resume hsize ho (Nat.le_refl _) Offset.zero

/-! ## Both ways -/

variable {g : Grammar ι κ}

/-- An answer at a boundary has a derivation on the characters that are left. -/
theorem exists_derives (hg : book.CustomFree g) (hsize : input.utf8ByteSize < 2 ^ 64)
    {o : Offset} (ho : Text.Before input o.val cs) {x : Outcome (Value κ)}
    (hx : (book.run g ⟨input, o⟩).ending = .ok x) : ∃ d, book.Derives g cs d ∧ x.Agrees o d :=
  runWith_induction_of_customFree (compositional_sound hsize) book.depthBound hg o cs ho x hx

/-- A grammar without custom parsers, run at a boundary of a text, against the derivations on the
    characters from there on. It reads a span exactly if a beginning of these characters that is
    as wide as the span is consumed, it fails exactly if there is a derivation that fails, and it
    comes to an outcome exactly if there is a derivation at all. -/
theorem run_iff_derives (book : Rulebook ι κ) (g : Grammar ι κ) (hg : book.CustomFree g)
    (input : String) (hsize : input.utf8ByteSize < 2 ^ 64) (o : Offset)
    (ho : Text.isBoundary input o.val = true) :
    (∀ w, (w <+: (Cursor.mk input o).remaining.toList ∧
        ∃ v s, (book.run g ⟨input, o⟩).ending = .ok (.done v s) ∧ s.begin = o ∧
          s.stop.val = o.val + Text.width w) ↔
      book.Derives g (Cursor.mk input o).remaining.toList (some w)) ∧
    ((∃ f, (book.run g ⟨input, o⟩).ending = .ok (.failed f)) ↔
      book.Derives g (Cursor.mk input o).remaining.toList none) ∧
    (book.Finishes g ⟨input, o⟩ ↔
      ∃ d, book.Derives g (Cursor.mk input o).remaining.toList d) := by
  obtain ⟨cs, hcs⟩ := Text.isBoundary_iff.1 ho
  have hrest : (Cursor.mk input o).remaining.toList = cs := Text.toList_dropTo hcs
  rw [hrest]
  refine ⟨fun w => ⟨?_, ?_⟩, ⟨?_, ?_⟩, ?_⟩
  -- a match is derived as the characters it is as wide as
  · rintro ⟨hw, v, s, hend, -, hstop⟩
    obtain ⟨d, hd, hagrees⟩ := exists_derives hg hsize hcs hend
    obtain ⟨_, _, w', ⟨⟩, rfl, hstop'⟩ | ⟨_, ⟨⟩, -⟩ := hagrees.cases
    -- two beginnings of the same characters are equal if they are equally wide
    have hwidth : Text.width w = Text.width w' := by omega
    rw [Text.eq_of_isPrefix hw hd.isPrefix hwidth]
    exact hd
  -- what is derived as consumed is a match; that it begins at `o` is known of every match
  · intro hd
    obtain ⟨x, hend, hagrees⟩ := hd.agrees hsize hcs
    obtain ⟨v, s, _, rfl, ⟨⟩, hstop⟩ | ⟨_, -, ⟨⟩⟩ := hagrees.cases
    exact ⟨hd.isPrefix, v, s, hend, begin_eq_of_run hg hsize hend, hstop⟩
  -- a failure is derived as one, since nothing else agrees with it
  · rintro ⟨f, hend⟩
    obtain ⟨d, hd, hagrees⟩ := exists_derives hg hsize hcs hend
    obtain ⟨_, _, _, ⟨⟩, -, -⟩ | ⟨_, -, rfl⟩ := hagrees.cases
    exact hd
  · intro hd
    obtain ⟨x, hend, hagrees⟩ := hd.agrees hsize hcs
    obtain ⟨_, _, _, -, ⟨⟩, -⟩ | ⟨f, rfl, -⟩ := hagrees.cases
    exact ⟨f, hend⟩
  -- to come to an outcome is to have a derivation, whichever of the two it is
  · rw [finishes_iff]
    constructor
    · rintro ⟨x, hend⟩
      obtain ⟨d, hd, -⟩ := exists_derives hg hsize hcs hend
      exact ⟨d, hd⟩
    · rintro ⟨d, hd⟩
      obtain ⟨x, hend, -⟩ := hd.agrees hsize hcs
      exact ⟨x, hend⟩

/-- Behind a wide character, a pair of brackets inside another is recognized. -/
theorem run_iff_derives_brackets :
    Sample.BracketRule.book.CustomFree (.rule .paren) ∧ "é(\x7b\x7d)".utf8ByteSize < 2 ^ 64 ∧
      Text.isBoundary "é(\x7b\x7d)" 2 = true ∧
      Sample.BracketRule.book.Derives (.rule .paren) ['(', '\x7b', '\x7d', ')']
        (some ['(', '\x7b', '\x7d', ')']) := by
  have hfree : Sample.BracketRule.book.CustomFree (.rule .paren) :=
    customFree_of_all (by intro i; cases i <;> rfl) rfl
  have hsize : "é(\x7b\x7d)".utf8ByteSize < 2 ^ 64 := by decide
  have hboundary : Text.isBoundary "é(\x7b\x7d)" 2 = true := by cbv
  have hrest : (Cursor.mk "é(\x7b\x7d)" 2).remaining.toList = ['(', '\x7b', '\x7d', ')'] := by cbv
  have hends : (Sample.BracketRule.book.runWith 6 (.rule .paren) ⟨"é(\x7b\x7d)", 2⟩).ending =
      .ok (.done (.made (.round [.curly []])) ⟨2, 6, by decide⟩) := by cbv
  have hderives := (run_iff_derives _ _ hfree _ hsize 2 hboundary).1 ['(', '\x7b', '\x7d', ')']
  rw [hrest] at hderives
  exact ⟨hfree, hsize, hboundary,
    hderives.1 ⟨List.prefix_refl _, _, _, ending_run_eq_ok hends, rfl, by decide +kernel⟩⟩

end Rulebook

end ParserKit
