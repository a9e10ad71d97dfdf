import Mathlib.Data.Set.Finite.List
import Mathlib.Order.WellFounded
import ParserKit.Proofs.FuelIndependence
import ParserKit.Proofs.OffsetSafety

/-!
# Termination without left recursion

A parse can only go on for ever by entering a rule again and again where it has read nothing in
between. `book.LeadsTo i j` says that the rule `j` stands in the body of `i` where nothing need have
been read before it. If no rule that is met leads back to itself, every parse comes to an outcome,
at whatever offset of whatever text it begins.

Three inductions are nested. The outer one is on the offsets that are left, the next one on the
rules along `LeadsTo`, the inner one on the grammar. What makes them fit together is that a match
which has read nothing is a match of a nullable grammar (`run_advances`): behind an item of a
sequence that is not nullable, everything runs further on. A repetition needs no such care, since
it ends with the first match that leads no further.

## Key results

- `Rulebook.Nullable`, `Rulebook.Leading`: what may read nothing, and what may be met before
  anything is read
- `Rulebook.run_advances`: only a nullable grammar reads nothing
- `Rulebook.ended_of_leading`: a run ends if its leading rules do, and all that runs further on
- `Rulebook.run_ended`: without left recursion every run ends
-/

namespace ParserKit

variable {α β γ ι κ : Type}

namespace Rulebook

/-! ## Left recursion -/

/-- `book.Nullable g`: the grammar `g` may read nothing. -/
inductive Nullable (book : Rulebook ι κ) : Grammar ι κ → Prop
  | endOfInput : Nullable book .endOfInput
  | word : Nullable book (.word "")
  | sequence {items : List (Grammar ι κ)} :
      (∀ g ∈ items, Nullable book g) → Nullable book (.sequence items)
  | either {branches : List (Grammar ι κ)} {g : Grammar ι κ} :
      g ∈ branches → Nullable book g → Nullable book (.either branches)
  | oneOf {form : Form} {types : List String} {branches : List (Grammar ι κ)}
      {g : Grammar ι κ} :
      g ∈ branches → Nullable book g → Nullable book (.oneOf form types branches)
  | many {item : Grammar ι κ} : Nullable book (.many item)
  | map {f : Value κ → Value κ} {g : Grammar ι κ} : Nullable book g → Nullable book (.map f g)
  | rule {i : ι} : Nullable book (book.rule i).body → Nullable book (.rule i)
  | watch {label : String} {g : Grammar ι κ} : Nullable book g → Nullable book (.watch label g)

/-- `book.Leading g h`: the node `h` stands in `g` where only nullable items of sequences stand
    before it. Rules are not followed. -/
inductive Leading (book : Rulebook ι κ) : Grammar ι κ → Grammar ι κ → Prop
  | refl (g : Grammar ι κ) : Leading book g g
  | sequence {before after : List (Grammar ι κ)} {g h : Grammar ι κ} :
      (∀ k ∈ before, book.Nullable k) → Leading book g h →
      Leading book (.sequence (before ++ g :: after)) h
  | either {branches : List (Grammar ι κ)} {g h : Grammar ι κ} :
      g ∈ branches → Leading book g h → Leading book (.either branches) h
  | oneOf {form : Form} {types : List String} {branches : List (Grammar ι κ)}
      {g h : Grammar ι κ} :
      g ∈ branches → Leading book g h → Leading book (.oneOf form types branches) h
  | many {g h : Grammar ι κ} : Leading book g h → Leading book (.many g) h
  | map {f : Value κ → Value κ} {g h : Grammar ι κ} :
      Leading book g h → Leading book (.map f g) h
  | watch {label : String} {g h : Grammar ι κ} :
      Leading book g h → Leading book (.watch label g) h

/-- The rule `i` leads to the rule `j`: in the body of `i`, nothing need be read before `j`. -/
def LeadsTo (book : Rulebook ι κ) (i j : ι) : Prop := book.Leading (book.rule i).body (.rule j)

/-- No rule that is reached from `g` leads back to itself. -/
def LeftRecursionFree (book : Rulebook ι κ) (g : Grammar ι κ) : Prop :=
  ∀ i, book.Reaches g (.rule i) → ¬ Relation.TransGen book.LeadsTo i i

variable {book : Rulebook ι κ}

/-- What leads a grammar is one of the nodes that are met from it. -/
theorem Leading.reaches {g h : Grammar ι κ} (hgh : book.Leading g h) : book.Reaches g h := by
  induction hgh with
  | refl g => exact .refl g
  | sequence _ _ ih => exact .child (List.mem_append_right _ List.mem_cons_self) ih
  | either hmem _ ih | oneOf hmem _ ih => exact .child hmem ih
  | many _ ih | map _ ih | watch _ ih => exact .child (List.mem_singleton_self _) ih

/-- A rule that leads a sequence leads its first item, or the items behind that one if it is
    nullable. -/
theorem Leading.of_sequence_cons {g : Grammar ι κ} {gs : List (Grammar ι κ)} {i : ι}
    (h : book.Leading (.sequence (g :: gs)) (.rule i)) :
    book.Leading g (.rule i) ∨ book.Nullable g ∧ book.Leading (.sequence gs) (.rule i) := by
  -- the constructor splits its list of items anywhere, so the list is named before the cases
  generalize hs : Grammar.sequence (g :: gs) = s at h
  cases h with
  | @sequence before after k _ hbefore hk =>
    have hitems : g :: gs = before ++ k :: after := by simpa using hs
    cases before with
    -- the rule leads the first item
    | nil =>
      obtain ⟨rfl, rfl⟩ : g = k ∧ gs = after := by simpa using hitems
      exact .inl hk
    -- the rule leads an item behind the first, so the first is nullable
    | cons b before =>
      obtain ⟨rfl, rfl⟩ : g = b ∧ gs = before ++ k :: after := by simpa using hitems
      have hrest : ∀ k ∈ before, book.Nullable k := fun k hk' =>
        hbefore k (List.mem_cons_of_mem g hk')
      exact .inr ⟨hbefore g List.mem_cons_self, .sequence hrest hk⟩
  | _ => cases hs

/-- Rules can be numbered against left recursion: it is enough that a rule leads only to rules with
    smaller numbers. -/
theorem leftRecursionFree_of_rank (rank : ι → Nat)
    (h : ∀ i j, book.LeadsTo i j → rank j < rank i) (g : Grammar ι κ) :
    book.LeftRecursionFree g := by
  intro i _ hcycle
  -- along any chain of rules the numbers fall
  have hlt : ∀ {j}, Relation.TransGen book.LeadsTo i j → rank j < rank i := by
    intro j hj
    induction hj with
    | single hij => exact h i _ hij
    | tail _ hjk ih =>
      have hjk := h _ _ hjk
      omega
  exact Nat.lt_irrefl _ (hlt hcycle)

/-- Without left recursion, one may do induction on rules along `LeadsTo`. -/
theorem LeftRecursionFree.wellFounded {g : Grammar ι κ} (h : book.LeftRecursionFree g) :
    WellFounded fun j i : { i // book.Reaches g (.rule i) } => book.LeadsTo i j := by
  let Above (j i : { i // book.Reaches g (.rule i) }) : Prop :=
    Relation.TransGen book.LeadsTo i j
  -- a transitive and irreflexive relation on finitely many rules is well founded
  have hfinite : Finite ι :=
    Set.finite_univ_iff.1 (book.keys.finite_toSet.subset fun i _ => book.mem_keys i)
  have htrans : IsTrans _ Above := ⟨fun _ _ _ hab hbc => Relation.TransGen.trans hbc hab⟩
  have hirrefl : Std.Irrefl Above := ⟨fun i => h i.val i.property⟩
  have habove : WellFounded Above := Finite.wellFounded_of_trans_of_irrefl Above
  exact Subrelation.wf (fun hij => Relation.TransGen.single hij) habove

end Rulebook

/-! ## Runs that advance -/

/-- A match of the run, begun at `o`, ends no earlier, and it ends at `o` itself only if `N`. -/
def Run.Advances (o : Offset) (N : Prop) (r : Run (Outcome α)) : Prop :=
  ∀ v s, r.ending = .ok (.done v s) → o.val ≤ s.stop.val ∧ (s.stop.val = o.val → N)

namespace Run

variable {o p : Offset} {N M : Prop} {r r' : Run (Outcome α)}

/-- Only the ending of a run counts, not its trace. -/
theorem Advances.of_ending (h : r.Advances o N) (he : r'.ending = r.ending) :
    r'.Advances o N := by
  intro v s hs
  rw [he] at hs
  exact h v s hs

/-- The condition for staying may be weakened. -/
theorem Advances.imp (h : r.Advances o N) (hNM : N → M) : r.Advances o M := fun v s hs =>
  ⟨(h v s hs).1, fun heq => hNM ((h v s hs).2 heq)⟩

/-- A run from further on advances all the more. -/
theorem Advances.after (h : r.Advances p N) (hop : o.val ≤ p.val)
    (hNM : p.val = o.val → N → M) : r.Advances o M := by
  intro v s hs
  obtain ⟨hle, hN⟩ := h v s hs
  refine ⟨by omega, fun heq => ?_⟩
  have hp : p.val = o.val := by omega
  exact hNM hp (hN (by omega))

/-- What follows a match may count on how far the match advanced. What follows a failure must
    advance from the start. -/
theorem Advances.andThen {k : Outcome α → Run (Outcome β)} (h : r.Advances o N)
    (hdone : ∀ v s, o.val ≤ s.stop.val → (s.stop.val = o.val → N) →
      (k (.done v s)).Advances o M)
    (hfailed : ∀ f, (k (.failed f)).Advances o M) : (r.andThen k).Advances o M := by
  intro w t ht
  rw [ending_andThen] at ht
  cases hr : r.ending with
  | error stop => rw [hr] at ht; cases ht
  | ok x =>
    rw [hr] at ht
    cases x with
    | done v s => exact hdone v s (h v s hr).1 (h v s hr).2 w t ht
    | failed f => exact hfailed f w t ht

/-- A conversion of the value moves nothing. -/
theorem Advances.mapValue (h : r.Advances o N) (f : α → β) : (r.mapValue f).Advances o N := by
  intro w t ht
  rw [Run.mapValue, ending_map] at ht
  cases hr : r.ending with
  | error stop => rw [hr] at ht; cases ht
  | ok x =>
    rw [hr] at ht
    cases x with
    | done v s => cases ht; exact h v _ hr
    | failed f => cases ht

/-- A match advances as far as its span says. -/
theorem advances_done {v : α} {s : Span} (hle : o.val ≤ s.stop.val)
    (hN : s.stop.val = o.val → N) : (Run.done v s).Advances o N := by
  intro w t ht
  cases ht
  exact ⟨hle, hN⟩

/-- A failure is no match. -/
theorem advances_failed (f : Failure) : (Run.failed f : Run (Outcome α)).Advances o N := by
  intro v s hs
  cases hs

/-- A span that is closed at `p` ends there; one that would be reversed is a fault and no match. -/
theorem advances_doneAt {v : α} {b : Offset} (hle : o.val ≤ p.val) (hN : p.val = o.val → N) :
    (Run.doneAt v (Span.between b p)).Advances o N := by
  unfold Span.between
  split
  · exact advances_done hle hN
  · intro w t ht
    cases ht

end Run

namespace Parser

/-- Wherever it runs, the parser never goes back, and it stays where it is only if `N`. -/
def Advances (N : Prop) (p : Parser α) : Prop := ∀ c : Cursor, (p c).Advances c.offset N

variable {N : Prop} {p : Parser α}

/-! ### Terminals -/

/-- To read `n` bytes is to stay only if `n` is 0. -/
theorem reads_advances (v : α) (n : Nat) (c : Cursor) :
    (reads v n c).Advances c.offset (n = 0) := by
  intro w s hs
  rw [reads] at hs
  cases hspan : Span.ofLength c.offset n with
  | error f => rw [hspan] at hs; cases hs
  | ok t =>
    rw [hspan] at hs
    cases hs
    have hstop := Span.stop_of_ofLength hspan
    omega

/-- The end of the text takes no bytes. -/
theorem endOfInput_advances : Advances True endOfInput := by
  intro c
  unfold endOfInput
  split
  · exact Run.advances_done (Nat.le_refl _) fun _ => trivial
  · exact Run.advances_failed _

/-- A character takes bytes. -/
theorem reads_char_advances (y : Char) (c : Cursor) :
    (reads y y.utf8Size c).Advances c.offset False :=
  (reads_advances y y.utf8Size c).imp fun hzero => by
    have hpos := y.utf8Size_pos
    omega

/-- A symbol never stays where it is. -/
theorem symbol_advances (x : Char) : Advances False (symbol x) := by
  intro c
  unfold symbol
  split
  · split
    · exact reads_char_advances _ c
    · exact Run.advances_failed _
  · exact Run.advances_failed _

/-- A character of a range never stays where it is. -/
theorem range_advances (lo hi : Char) : Advances False (range lo hi) := by
  intro c
  unfold range
  split
  · split
    · exact reads_char_advances _ c
    · exact Run.advances_failed _
  · exact Run.advances_failed _

/-- A word stays where it is only if it is empty. -/
theorem word_advances (w : String) : Advances (w = "") (word w) := by
  intro c
  unfold word
  split
  · exact (reads_advances w w.utf8ByteSize c).imp String.utf8ByteSize_eq_zero_iff.1
  · exact Run.advances_failed _

/-! ### Combinators -/

section

variable {run : γ → Parser α} {N : γ → Prop} {items : List γ}

/-- A sequence stays where it is only if all of its items may. -/
theorem sequenceFrom_advances (h : ∀ g ∈ items, Advances (N g) (run g)) (start : Offset)
    (c : Cursor) :
    (sequenceFrom start (items.map run) c).Advances c.offset (∀ g ∈ items, N g) := by
  induction items generalizing c with
  | nil => exact Run.advances_doneAt (Nat.le_refl _) fun _ g hg => absurd hg List.not_mem_nil
  | cons g items ih =>
    rw [List.map_cons, sequenceFrom]
    refine (h g List.mem_cons_self c).andThen (fun v s hle hg => ?_) fun f => ?_
    -- the others run from the end of the match on; the whole stays only if both stay
    · have htail := ih (fun k hk => h k (List.mem_cons_of_mem g hk)) (c.moveTo s.stop)
      exact (htail.mapValue _).after hle fun hstays hitems =>
        List.forall_mem_cons.2 ⟨hg hstays, hitems⟩
    · exact Run.advances_failed f

/-- A choice stays where it is only if one of its branches may. -/
theorem choiceFrom_advances (h : ∀ g ∈ items, Advances (N g) (run g)) (furthest : Offset)
    (c : Cursor) :
    (choiceFrom c furthest (items.map run)).Advances c.offset (∃ g ∈ items, N g) := by
  induction items generalizing furthest with
  | nil => exact Run.advances_failed _
  | cons g items ih =>
    rw [List.map_cons, choiceFrom]
    refine (h g List.mem_cons_self c).andThen (fun v s hle hg => ?_) fun f => ?_
    · exact Run.advances_done hle fun hstays => ⟨g, List.mem_cons_self, hg hstays⟩
    · refine (ih (fun k hk => h k (List.mem_cons_of_mem g hk)) _).imp ?_
      rintro ⟨k, hk, hN⟩
      exact ⟨k, List.mem_cons_of_mem g hk, hN⟩

/-- The same for a choice from its start. -/
theorem choice_advances (h : ∀ g ∈ items, Advances (N g) (run g)) :
    Advances (∃ g ∈ items, N g) (choice (items.map run)) := by
  intro c
  rw [choice_eq_choiceFrom]
  exact choiceFrom_advances h Offset.zero c

/-- A tagged choice stays where it is only if one of its branches may. -/
theorem taggedFrom_advances (h : ∀ g ∈ items, Advances (N g) (run g)) (types : List String)
    (furthest : Offset) (c : Cursor) :
    (taggedFrom c furthest (types.zip (items.map run))).Advances c.offset (∃ g ∈ items, N g) := by
  induction items generalizing types furthest with
  | nil =>
    rw [List.map_nil, List.zip_nil_right]
    exact Run.advances_failed _
  | cons g items ih =>
    -- a branch without a type is not tried
    cases types with
    | nil => exact Run.advances_failed _
    | cons t types =>
      rw [List.map_cons, List.zip_cons_cons, taggedFrom]
      refine (h g List.mem_cons_self c).andThen (fun v s hle hg => ?_) fun f => ?_
      · exact Run.advances_done hle fun hstays => ⟨g, List.mem_cons_self, hg hstays⟩
      · have htail := ih (fun k hk => h k (List.mem_cons_of_mem g hk)) types
          (Offset.max furthest f.furthest)
        refine (htail.mapValue _).imp ?_
        rintro ⟨k, hk, hN⟩
        exact ⟨k, List.mem_cons_of_mem g hk, hN⟩

end

variable {N : Prop} {p : Parser α}

/-- A repetition never goes back. It may always stay, having no matches. -/
theorem manyFrom_advances (h : Advances N p) (start : Offset) (c : Cursor) :
    (manyFrom p start c).Advances c.offset True := by
  -- a round that leads further is followed by others from further on
  induction c using Cursor.forward_induction with
  | further c ih =>
    rw [manyFrom]
    refine (h c).andThen (fun v s hle _ => ?_) fun f => ?_
    · dsimp only
      split
      · rename_i hmoves
        exact ((ih s.stop hmoves).mapValue _).after hle fun _ _ => trivial
      · exact Run.advances_doneAt hle fun _ => trivial
    · exact Run.advances_doneAt (Nat.le_refl _) fun _ => trivial

/-- A conversion with an event advances as its part does. -/
theorem mapped_advances (h : Advances N p) (f : α → β) : Advances N (mapped f p) := fun c =>
  (h c).andThen (fun _ _ hle hN => Run.Advances.of_ending (Run.advances_done hle hN) rfl)
    fun e => Run.advances_failed e

/-- A rule advances as its body does. -/
theorem named_advances (h : Advances N p) (name : String) (action : α → β) :
    Advances N (named name action p) := by
  intro c
  refine Run.Advances.of_ending ((h c).andThen (fun v s hle hN => ?_) fun f => ?_) rfl
  · exact Run.Advances.of_ending (Run.advances_done hle hN) rfl
  · exact Run.Advances.of_ending (Run.advances_failed f) rfl

end Parser

namespace Rulebook

variable {book : Rulebook ι κ}

/-- Every kind of node stays where it is only if it is nullable. -/
theorem compositional_advances :
    book.Compositional fun g p => p.Advances (book.Nullable g) where
  outOfFuel _ := by
    intro c v s hs
    cases hs
  -- a terminal is nullable if it can match nothing, which symbols and ranges never do
  endOfInput := fun c => ((Parser.endOfInput_advances c).imp fun _ => .endOfInput).mapValue _
  symbol x := fun c => ((Parser.symbol_advances x c).imp False.elim).mapValue _
  range lo hi := fun c => ((Parser.range_advances lo hi c).imp False.elim).mapValue _
  word w := fun c => ((Parser.word_advances w c).imp (fun h => h ▸ .word)).mapValue _
  sequence _ _ h := fun c =>
    ((Parser.sequenceFrom_advances h c.offset c).imp .sequence).mapValue _
  either _ _ h := by
    intro c
    refine (Parser.choice_advances h c).imp ?_
    rintro ⟨g, hg, hN⟩
    exact .either hg hN
  oneOf _ types _ _ h := by
    intro c
    refine ((Parser.taggedFrom_advances h types c.offset c).imp ?_).mapValue _
    rintro ⟨g, hg, hN⟩
    exact .oneOf hg hN
  many _ _ h := fun c => ((Parser.manyFrom_advances h c.offset c).imp fun _ => .many).mapValue _
  map f _ _ h := fun c => (Parser.mapped_advances h f c).imp .map
  rule _ _ h := fun c => (Parser.named_advances h _ _ c).imp .rule
  watch _ _ _ h := fun c => ((h c).imp .watch).of_ending rfl

/-- Only a nullable grammar may end where it began. -/
theorem run_advances {g : Grammar ι κ} (hg : book.CustomFree g) :
    (book.run g).Advances (book.Nullable g) :=
  runWith_induction_of_customFree compositional_advances book.depthBound hg

end Rulebook

/-! ## Runs that end -/

/-- The bound on the nesting of rules did not cut the run off. -/
def Run.Ended (r : Run β) : Prop := r.ending ≠ .error .outOfFuel

namespace Run

/-- A run that has an answer was not cut off. -/
theorem ended_answer (b : β) : (Run.answer b).Ended := by
  intro hstop
  cases hstop

theorem Ended.of_ending {r r' : Run β} (h : r.Ended) (he : r'.ending = r.ending) :
    r'.Ended := by
  unfold Ended
  rw [he]
  exact h

/-- What follows is asked only for answers that the first run can have. -/
theorem Ended.andThen {r : Run (Outcome α)} {k : Outcome α → Run β} (h : r.Ended)
    (hdone : ∀ v s, r.ending = .ok (.done v s) → (k (.done v s)).Ended)
    (hfailed : ∀ f, (k (.failed f)).Ended) : (r.andThen k).Ended := by
  unfold Ended
  rw [ending_andThen]
  -- a stop of the first run is the stop of the whole
  cases hr : r.ending with
  | error stop =>
    intro hstop
    cases hstop
    exact h hr
  | ok x =>
    cases x with
    | done v s => exact hdone v s hr
    | failed f => exact hfailed f

/-- A conversion of the value cuts nothing off. -/
theorem Ended.mapValue {r : Run (Outcome α)} (h : r.Ended) (f : α → β) :
    (r.mapValue f).Ended := by
  unfold Ended
  rw [Run.mapValue, ending_map]
  cases hr : r.ending with
  | error stop =>
    intro hstop
    cases hstop
    exact h hr
  | ok x => exact ended_answer (x.map f)

/-- To close a span is an answer or a fault, and neither is to be cut off. -/
theorem ended_doneAt (v : α) (s : Except Fault Span) : (Run.doneAt v s).Ended := by
  cases s with
  | ok s => exact ended_answer _
  | error f =>
    intro hstop
    cases hstop

end Run

namespace Parser

/-! ### Terminals -/

/-- A terminal calls no rules, so it is never cut off; the same holds of the next three. -/
theorem endOfInput_ended (c : Cursor) : (endOfInput c).Ended := by
  unfold endOfInput
  split <;> exact Run.ended_answer _

theorem symbol_ended (x : Char) (c : Cursor) : (symbol x c).Ended := by
  unfold symbol
  split
  · split
    · exact Run.ended_doneAt _ _
    · exact Run.ended_answer _
  · exact Run.ended_answer _

theorem range_ended (lo hi : Char) (c : Cursor) : (range lo hi c).Ended := by
  unfold range
  split
  · split
    · exact Run.ended_doneAt _ _
    · exact Run.ended_answer _
  · exact Run.ended_answer _

theorem word_ended (w : String) (c : Cursor) : (word w c).Ended := by
  unfold word
  split
  · exact Run.ended_doneAt _ _
  · exact Run.ended_answer _

/-! ### Combinators -/

variable {input : String} {o : Offset} {p : Parser α} {ps : List (Parser α)}

/-- A sequence ends if each item ends where it may be tried: at `o`, if all before it may read
    nothing, and further on. -/
theorem sequenceFrom_ended {run : γ → Parser α} {N : γ → Prop} {items : List γ}
    (hadvances : ∀ g ∈ items, Advances (N g) (run g))
    (hhere : ∀ before g after, items = before ++ g :: after → (∀ k ∈ before, N k) →
      (run g ⟨input, o⟩).Ended)
    (hlater : ∀ g ∈ items, ∀ q : Offset, o.val < q.val → (run g ⟨input, q⟩).Ended)
    {before after : List γ} (hitems : items = before ++ after) {q : Offset} (hq : o.val ≤ q.val)
    (hbefore : q.val = o.val → ∀ k ∈ before, N k) (start : Offset) :
    (sequenceFrom start (after.map run) ⟨input, q⟩).Ended := by
  -- the items are split into those before and those still to come; the offset is back at `o` only
  -- if all before are such as may read nothing
  induction after generalizing before q with
  | nil => exact Run.ended_doneAt _ _
  | cons g after ih =>
    have hmem : g ∈ items := hitems ▸ List.mem_append_right before List.mem_cons_self
    rw [List.map_cons, sequenceFrom]
    -- the next item is tried either at `o` itself or further on
    have hg : (run g ⟨input, q⟩).Ended := by
      rcases Nat.eq_or_lt_of_le hq with heq | hlt
      · obtain rfl : o = q := Fin.ext heq
        exact hhere before g after hitems (hbefore rfl)
      · exact hlater g hmem q hlt
    refine hg.andThen (fun v s hs => ?_) fun f => Run.ended_answer _
    obtain ⟨hle, hstays⟩ := hadvances g hmem ⟨input, q⟩ v s hs
    have hle : q.val ≤ s.stop.val := hle
    have hstays : s.stop.val = q.val → N g := hstays
    have hsplit : items = (before ++ [g]) ++ after := by simp [hitems]
    refine (ih hsplit (Nat.le_trans hq hle) fun hback k hk => ?_).mapValue _
    -- back at `o`, nothing was read on the way
    have hq' : q.val = o.val := by omega
    rcases List.mem_append.1 hk with hk | hk
    · exact hbefore hq' k hk
    · rw [List.mem_singleton.1 hk]
      exact hstays (by omega)

/-- A choice ends if each of its branches ends where the choice is tried. -/
theorem choiceFrom_ended {c : Cursor} (h : ∀ p ∈ ps, (p c).Ended) (furthest : Offset) :
    (choiceFrom c furthest ps).Ended := by
  induction ps generalizing furthest with
  | nil => exact Run.ended_answer _
  | cons p ps ih =>
    rw [choiceFrom]
    refine (h p List.mem_cons_self).andThen (fun v s _ => Run.ended_answer _) fun f => ?_
    exact ih (fun q hq => h q (List.mem_cons_of_mem p hq)) _

theorem choice_ended {c : Cursor} (h : ∀ p ∈ ps, (p c).Ended) : (choice ps c).Ended := by
  rw [choice_eq_choiceFrom]
  exact choiceFrom_ended h Offset.zero

/-- A tagged choice ends if each of its branches ends where the choice is tried. -/
theorem taggedFrom_ended {c : Cursor} {alternatives : List (String × Parser α)}
    (h : ∀ a ∈ alternatives, (a.2 c).Ended) (furthest : Offset) :
    (taggedFrom c furthest alternatives).Ended := by
  induction alternatives generalizing furthest with
  | nil => exact Run.ended_answer _
  | cons alternative alternatives ih =>
    obtain ⟨t, p⟩ := alternative
    rw [taggedFrom]
    refine (h (t, p) List.mem_cons_self).andThen (fun v s _ => Run.ended_answer _) fun f => ?_
    exact (ih (fun a ha => h a (List.mem_cons_of_mem _ ha)) _).mapValue _

/-- A repetition ends if its item ends from the cursor on: each match but the last leads
    further. -/
theorem manyFrom_ended (h : ∀ q : Offset, o.val ≤ q.val → (p ⟨input, q⟩).Ended)
    (start : Offset) : (manyFrom p start ⟨input, o⟩).Ended := by
  -- the item is tried only from here on, and another round begins further on
  induction o using Offset.forward_induction with
  | further o ih =>
    rw [manyFrom]
    refine (h o (Nat.le_refl _)).andThen (fun v s _ => ?_) fun f => Run.ended_doneAt _ _
    dsimp only
    split
    · rename_i hmoves
      have hlater : ∀ q : Offset, s.stop.val ≤ q.val → (p ⟨input, q⟩).Ended := fun q hq =>
        h q (Nat.le_trans (Nat.le_of_lt hmoves) hq)
      exact (ih s.stop hmoves hlater).mapValue _
    · exact Run.ended_doneAt _ _

/-- A conversion with an event ends if its part does. -/
theorem mapped_ended {c : Cursor} (h : (p c).Ended) (f : α → β) : (mapped f p c).Ended := by
  refine h.andThen (fun v s _ => ?_) fun e => ?_
  · exact (Run.ended_answer (.done (f v) s)).of_ending rfl
  · exact Run.ended_answer (Outcome.failed e)

/-- A rule ends if the parser of its body does, whatever its name and its action. -/
theorem named_ended {c : Cursor} (h : (p c).Ended) (name : String) (action : α → β) :
    (named name action p c).Ended := by
  refine Run.Ended.of_ending (h.andThen (fun v s _ => ?_) fun f => ?_) rfl
  · exact (Run.ended_answer (.done (action v) s)).of_ending rfl
  · exact (Run.ended_answer (Outcome.failed f)).of_ending rfl

end Parser

namespace Rulebook

variable {book : Rulebook ι κ} {input : String} {g : Grammar ι κ}

/-- The run of a grammar at `o` ends if the rules that may be met before anything is read end
    there, and everything in the grammar ends further on. -/
theorem ended_of_leading {o : Offset} (hfree : book.CustomFree g)
    (hleading : ∀ i, book.Leading g (.rule i) → (book.run (.rule i) ⟨input, o⟩).Ended)
    (hlater : ∀ h, book.Reaches g h → ∀ q : Offset, o.val < q.val →
      (book.run h ⟨input, q⟩).Ended) : (book.run g ⟨input, o⟩).Ended := by
  induction g using Grammar.structural_induction with
  | node g ih =>
    -- a child of which every leading node leads the whole may be run at `o` as well
    have hchild : ∀ h ∈ g.children, (∀ k, book.Leading h k → book.Leading g k) →
        (book.run h ⟨input, o⟩).Ended := fun h hh hl =>
      ih h hh (fun read hr => hfree read (.child hh hr)) (fun i hi => hleading i (hl _ hi))
        fun k hk => hlater k (.child hh hk)
    cases g with
    | endOfInput => exact (Parser.endOfInput_ended _).mapValue _
    | symbol x => exact (Parser.symbol_ended x _).mapValue _
    | range lo hi => exact (Parser.range_ended lo hi _).mapValue _
    | word w => exact (Parser.word_ended w _).mapValue _
    | sequence items =>
      rw [run_sequence]
      have hadvances : ∀ g ∈ items, (book.run g).Advances (book.Nullable g) := fun g hg =>
        run_advances fun read hr => hfree read (.child hg hr)
      -- an item behind nullable ones leads the sequence
      have hhere : ∀ before g after, items = before ++ g :: after →
          (∀ k ∈ before, book.Nullable k) → (book.run g ⟨input, o⟩).Ended := by
        rintro before g after rfl hbefore
        have hmem : g ∈ before ++ g :: after := List.mem_append_right _ List.mem_cons_self
        exact hchild g hmem fun k hk => .sequence hbefore hk
      -- no item has been read at the start, so the items before are none
      refine (Parser.sequenceFrom_ended hadvances hhere (fun g hg => ?_) (List.nil_append _).symm
        (Nat.le_refl _) (fun _ k hk => absurd hk List.not_mem_nil) o).mapValue _
      exact hlater g (.child hg (.refl g))
    | either branches =>
      rw [run_either]
      exact Parser.choice_ended (List.forall_mem_map.2 fun g hg => hchild g hg fun _ => .either hg)
    | oneOf form types branches =>
      rw [run_oneOf]
      refine (Parser.taggedFrom_ended (fun a ha => ?_) o).mapValue _
      obtain ⟨g, hg, hrun⟩ := List.mem_map.1 (List.of_mem_zip ha).2
      rw [← hrun]
      exact hchild g hg fun _ => .oneOf hg
    | many item =>
      have hmem : item ∈ (Grammar.many item).children := List.mem_singleton_self item
      refine (Parser.manyFrom_ended (fun q hq => ?_) o).mapValue _
      -- the first round is at `o`, any other further on
      rcases Nat.eq_or_lt_of_le hq with heq | hlt
      · obtain rfl : o = q := Fin.ext heq
        exact hchild item hmem fun _ => .many
      · exact hlater item (.child hmem (.refl item)) q hlt
    | map f inner =>
      exact Parser.mapped_ended (hchild inner (List.mem_singleton_self _) fun _ => .map) f
    | rule i => exact hleading i (.refl _)
    | watch label inner => exact hchild inner (List.mem_singleton_self _) fun _ => .watch
    | custom read => exact absurd (.refl _) (hfree read)

/-- A rule ends if its body does. -/
theorem ended_rule {i : ι} {c : Cursor} (h : (book.run (book.rule i).body c).Ended) :
    (book.run (.rule i) c).Ended :=
  (Parser.named_ended h _ _).of_ending (ending_run_rule i c)

/-- Without left recursion, every run of what is met ends. -/
theorem run_ended (hfree : book.CustomFree g) (hleft : book.LeftRecursionFree g)
    {h : Grammar ι κ} (hh : book.Reaches g h) (o : Offset) :
    (book.run h ⟨input, o⟩).Ended := by
  -- on the offset: what runs further on ends
  induction o using Offset.forward_induction generalizing h with
  | further o ihoffset =>
    have hlater : ∀ k, book.Reaches g k → ∀ q : Offset, o.val < q.val →
        (book.run k ⟨input, q⟩).Ended := fun k hk q hq => ihoffset q hq hk
    -- on the rules: what a rule leads to ends here
    have hrules : ∀ i : { i // book.Reaches g (.rule i) },
        (book.run (.rule i.val) ⟨input, o⟩).Ended := by
      intro i
      induction i using hleft.wellFounded.induction with
      | _ i ihrule =>
        have hbody : book.Reaches g (book.rule i).body := i.property.trans (.body (.refl _))
        refine ended_rule (ended_of_leading (fun read hr => hfree read (hbody.trans hr)) ?_ ?_)
        · exact fun j hj => ihrule ⟨j, hbody.trans hj.reaches⟩ hj
        · exact fun k hk => hlater k (hbody.trans hk)
    refine ended_of_leading (fun read hr => hfree read (hh.trans hr)) ?_ ?_
    · exact fun i hi => hrules ⟨i, hh.trans hi.reaches⟩
    · exact fun k hk => hlater k (hh.trans hk)

/-- A grammar without custom parsers and without left recursion comes to an outcome on every text
    and from every offset, on a boundary or off it, within the text or past its end. -/
theorem finishes_of_leftRecursionFree (book : Rulebook ι κ) (g : Grammar ι κ)
    (hfree : book.CustomFree g) (hleft : book.LeftRecursionFree g) (input : String)
    (hsize : input.utf8ByteSize < 2 ^ 64) (o : Offset) : book.Finishes g ⟨input, o⟩ := by
  have hended : (book.run g ⟨input, o⟩).Ended := run_ended hfree hleft (.refl g) o
  have hwithin : (book.run g ⟨input, o⟩).Within ⟨input, o⟩ := runWith_within hfree hsize _
  -- a run without custom parsers has an answer or is cut off, and it is not cut off
  rw [finishes_iff]
  cases hr : (book.run g ⟨input, o⟩).ending with
  | ok x => exact ⟨x, rfl⟩
  | error stop => exact absurd (hwithin.eq_outOfFuel hr ▸ hr) hended

/-- Balanced round brackets: a rule that refers to itself and may read nothing. -/
def balanced : Rulebook (Fin 1) Unit :=
  ofList [⟨"Balanced", .many (.sequence [.symbol '(', .rule 0, .symbol ')']), id⟩] rfl

/-- Balanced brackets come to an outcome even if they are repeated, which may read nothing, in a
    text that they do not cover. -/
theorem finishes_of_leftRecursionFree_balanced :
    balanced.CustomFree (.many (.rule 0)) ∧ balanced.LeftRecursionFree (.many (.rule 0)) ∧
      balanced.Nullable (.rule 0) ∧ "(())(".utf8ByteSize < 2 ^ 64 ∧
      balanced.Finishes (.many (.rule 0)) ⟨"(())(", 0⟩ := by
  have hfree : balanced.CustomFree (.many (.rule 0)) :=
    customFree_of_all (by intro i; fin_cases i; rfl) rfl
  -- the body begins with a bracket, so no rule leads to any
  have hleads : ∀ i j, ¬ balanced.LeadsTo i j := by
    intro i j h
    fin_cases i
    have hbody : balanced.Leading (.many (.sequence [.symbol '(', .rule 0, .symbol ')']))
        (.rule j) := h
    obtain _ | _ | _ | _ | hitems := hbody
    -- the opening bracket is not nullable, so nothing behind it is leading
    rcases hitems.of_sequence_cons with hopening | ⟨hopening, -⟩
    · cases hopening
    · cases hopening
  have hleft : balanced.LeftRecursionFree (.many (.rule 0)) :=
    leftRecursionFree_of_rank (fun _ => 0) (fun i j h => absurd h (hleads i j)) _
  have hsize : "(())(".utf8ByteSize < 2 ^ 64 := by decide
  have hnullable : balanced.Nullable (.rule 0) := .rule .many
  exact ⟨hfree, hleft, hnullable, hsize, finishes_of_leftRecursionFree _ _ hfree hleft _ hsize 0⟩

end Rulebook

end ParserKit
