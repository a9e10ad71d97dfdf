import Mathlib.Data.List.Forall2
import ParserKit.Proofs.Reading

/-!
# Ordered choice

A choice does what the first of its parsers does that does not fail, and if all of them fail, its
failure is made from its start and the furthest offset that any of them came to
(`Parser.choice_cases`). Nothing is asked of the parsers, so all of this holds of parsers of one's
own as well, whatever they report.

From this an algebra follows. A choice among the parsers of a choice may be replaced by its own
parsers. A parser that was there before may be left out. The order makes no difference to a
failure, and none to a success if there are no two parsers that could decide.

## Key results

- `Parser.choice_cases`: what a choice does
- `Parser.choice_eq_failed_iff`, `Parser.tagged_eq_failed_iff`: when a choice fails, and how
- `Parser.choiceFrom_nested`: a choice inside a choice
- `Parser.choiceFrom_repeated`: a parser that failed before
- `Parser.choice_eq_failed_perm`, `Parser.ending_choice_perm`: other orders

The three laws are put together last.
-/

namespace ParserKit

variable {α : Type}

/-! ## The furthest offset -/

/-- The furthest offset that one of the failures came to, or `o` if that is further. -/
def Failure.furthestOf (o : Offset) (es : List Failure) : Offset :=
  es.foldr (fun e q => Offset.max e.furthest q) o

namespace Failure

/-- One failure more, and the furthest offset is the later of two. -/
theorem val_furthestOf_cons (o : Offset) (e : Failure) (es : List Failure) :
    (furthestOf o (e :: es)).val = max e.furthest.val (furthestOf o es).val :=
  Offset.val_max _ _

/-- The furthest offset as a maximum of numbers. -/
theorem val_furthestOf (o : Offset) (es : List Failure) :
    (furthestOf o es).val = (es.map fun e => e.furthest.val).foldr max o.val := by
  induction es with
  | nil => rfl
  | cons e es ih => rw [List.map_cons, List.foldr_cons, ← ih, val_furthestOf_cons]

/-- The furthest offset is not before the start. -/
theorem le_furthestOf (o : Offset) (es : List Failure) : o.val ≤ (furthestOf o es).val := by
  induction es with
  | nil => exact Nat.le_refl _
  | cons e es ih =>
    rw [val_furthestOf_cons]
    omega

/-- No failure came further than the furthest. -/
theorem le_furthestOf_of_mem {e : Failure} {es : List Failure} (he : e ∈ es) (o : Offset) :
    e.furthest.val ≤ (furthestOf o es).val := by
  induction es with
  | nil => cases he
  | cons e' es ih =>
    rw [val_furthestOf_cons]
    rcases List.mem_cons.1 he with rfl | he
    · omega
    · have hle := ih he
      omega

/-- Where none of the failures came further, nor is the start, the furthest offset is not further
    either. -/
theorem furthestOf_le {o q : Offset} {es : List Failure} (ho : o.val ≤ q.val)
    (hes : ∀ e ∈ es, e.furthest.val ≤ q.val) : (furthestOf o es).val ≤ q.val := by
  induction es with
  | nil => exact ho
  | cons e es ih =>
    obtain ⟨he, hes⟩ := List.forall_mem_cons.1 hes
    rw [val_furthestOf_cons]
    exact Nat.max_le.2 ⟨he, ih hes⟩

/-- To start further on is to come there at least. -/
theorem furthestOf_max (a b : Offset) (es : List Failure) :
    (furthestOf (Offset.max a b) es).val = max b.val (furthestOf a es).val := by
  induction es with
  | nil =>
    rw [Nat.max_comm]
    exact Offset.val_max _ _
  | cons e es ih =>
    rw [val_furthestOf_cons, val_furthestOf_cons, ih]
    omega

/-- The order of the failures does not matter. -/
theorem furthestOf_perm {es es' : List Failure} (h : es.Perm es') (o : Offset) :
    furthestOf o es = furthestOf o es' := by
  apply Fin.ext
  rw [val_furthestOf, val_furthestOf]
  exact (h.map _).foldr_eq _

end Failure

namespace Parser

variable {c : Cursor} {p : Parser α} {ps qs before inner after : List (Parser α)}
  {es es' : List Failure} {f : Failure} {furthest furthest' : Offset}

/-- What was reached before the start of a choice leaves no mark on its failure. -/
theorem noAlternative_congr
    (h : Offset.max c.offset furthest = Offset.max c.offset furthest') :
    noAlternative c furthest = noAlternative c furthest' := by
  simp only [noAlternative, Failure.reached, Failure.expecting, h]

/-- Of what was reached behind the start, the furthest is kept. -/
theorem furthest_noAlternative (h : c.offset.val ≤ furthest.val) :
    (noAlternative c furthest).furthest = furthest := if_pos h

/-- The start of a choice counts as reached, whether it is counted before or not. -/
theorem noAlternative_furthestOf (h : furthest.val ≤ c.offset.val) (es : List Failure) :
    noAlternative c (Failure.furthestOf furthest es) =
      noAlternative c (Failure.furthestOf c.offset es) := by
  have hmax : Offset.max furthest c.offset = c.offset := if_pos h
  have hstart := Failure.furthestOf_max furthest c.offset es
  rw [hmax] at hstart
  apply noAlternative_congr
  apply Fin.ext
  rw [Offset.val_max, Offset.val_max, hstart]
  omega

/-! ## What a choice does -/

/-- Each of the parsers fails at the cursor, with the failure that stands in its place. -/
def FailEach (c : Cursor) : List (Parser α) → List Failure → Prop :=
  List.Forall₂ fun p e => (p c).ending = .ok (.failed e)

/-- There is one failure in each place. -/
theorem FailEach.unique (h : FailEach c ps es) (h' : FailEach c ps es') : es = es' := by
  induction h generalizing es' with
  | nil =>
    cases h'
    rfl
  | cons hp _ ih =>
    obtain _ | ⟨hp', hps'⟩ := h'
    rw [hp] at hp'
    cases hp'
    rw [ih hps']

/-- Where each of the parsers fails, so does any of them. -/
theorem FailEach.exists_of_mem (h : FailEach c ps es) (hp : p ∈ ps) :
    ∃ e, (p c).ending = .ok (.failed e) := by
  induction h with
  | nil => cases hp
  | cons he _ ih =>
    rcases List.mem_cons.1 hp with rfl | hp
    · exact ⟨_, he⟩
    · exact ih hp

/-- What is known of every failure of the parsers holds of those that stand in their places. -/
theorem FailEach.forall_mem {P : Failure → Prop} (h : FailEach c ps es)
    (hP : ∀ p ∈ ps, ∀ e, (p c).ending = .ok (.failed e) → P e) : ∀ e ∈ es, P e := by
  induction h with
  | nil => nofun
  | cons he _ ih =>
    obtain ⟨hp, hps⟩ := List.forall_mem_cons.1 hP
    exact List.forall_mem_cons.2 ⟨hp _ he, ih hps⟩

/-- If the parsers of a choice fail, it fails from its start, and comes as far as they did. Else the
    first that does not fail decides. -/
theorem choiceFrom_cases (ps : List (Parser α)) (c : Cursor) (furthest : Offset) :
    (∃ es, FailEach c ps es ∧ (choiceFrom c furthest ps).ending =
      .ok (.failed (noAlternative c (Failure.furthestOf furthest es)))) ∨
    ∃ before p after, ps = before ++ p :: after ∧
      (∀ q ∈ before, ∃ e, (q c).ending = .ok (.failed e)) ∧
      (∀ e, (p c).ending ≠ .ok (.failed e)) ∧
      (choiceFrom c furthest ps).ending = (p c).ending := by
  -- on the parsers: the first decides or fails, and then the others go on from how far it came
  induction ps generalizing furthest with
  | nil => exact .inl ⟨[], .nil, rfl⟩
  | cons p ps ih =>
    rw [choiceFrom, Run.ending_andThen]
    rcases hp : (p c).ending with stop | ⟨v, s⟩ | e
    · exact .inr ⟨[], p, ps, rfl, List.forall_mem_nil _, by simp [hp], by rw [hp]; rfl⟩
    · exact .inr ⟨[], p, ps, rfl, List.forall_mem_nil _, by simp [hp], by rw [hp]; rfl⟩
    · rcases ih (Offset.max furthest e.furthest) with
        ⟨es, hes, hend⟩ | ⟨before, q, after, rfl, hbefore, hq, hend⟩
      · refine .inl ⟨e :: es, .cons hp hes, hend.trans ?_⟩
        -- what `p` came to may be counted before the others or with them
        have hsame : Failure.furthestOf (Offset.max furthest e.furthest) es =
            Failure.furthestOf furthest (e :: es) := by
          apply Fin.ext
          rw [Failure.furthestOf_max, Failure.val_furthestOf_cons]
        rw [hsame]
      · refine .inr ⟨p :: before, q, after, rfl, ?_, hq, hend⟩
        exact List.forall_mem_cons.2 ⟨⟨e, hp⟩, hbefore⟩

/-- The same for a choice from its start. -/
theorem choice_cases (ps : List (Parser α)) (c : Cursor) :
    (∃ es, FailEach c ps es ∧ (choice ps c).ending =
      .ok (.failed (noAlternative c (Failure.furthestOf c.offset es)))) ∨
    ∃ before p after, ps = before ++ p :: after ∧
      (∀ q ∈ before, ∃ e, (q c).ending = .ok (.failed e)) ∧
      (∀ e, (p c).ending ≠ .ok (.failed e)) ∧ (choice ps c).ending = (p c).ending := by
  rw [choice_eq_choiceFrom]
  rcases choiceFrom_cases ps c Offset.zero with ⟨es, hes, hend⟩ | hdecides
  · rw [noAlternative_furthestOf (Nat.zero_le _)] at hend
    exact .inl ⟨es, hes, hend⟩
  · exact .inr hdecides

/-- A choice fails exactly if all of its parsers do, and their failures decide how. -/
theorem choiceFrom_eq_failed_iff (h : furthest.val ≤ c.offset.val) :
    (choiceFrom c furthest ps).ending = .ok (.failed f) ↔
      ∃ es, FailEach c ps es ∧ f = noAlternative c (Failure.furthestOf c.offset es) := by
  rcases choiceFrom_cases ps c furthest with ⟨es, hes, hend⟩ | ⟨before, p, after, rfl, -, hp, hend⟩
  · rw [hend, noAlternative_furthestOf h]
    constructor
    · intro hf
      cases hf
      exact ⟨es, hes, rfl⟩
    · rintro ⟨es', hes', rfl⟩
      rw [hes.unique hes']
  · rw [hend]
    constructor
    · exact fun hf => absurd hf (hp f)
    · rintro ⟨es, hes, -⟩
      obtain ⟨e, he⟩ := hes.exists_of_mem (List.mem_append_right before List.mem_cons_self)
      exact absurd he (hp e)

/-- When a choice fails, and how. -/
theorem choice_eq_failed_iff :
    (choice ps c).ending = .ok (.failed f) ↔
      ∃ es, FailEach c ps es ∧ f = noAlternative c (Failure.furthestOf c.offset es) := by
  rw [choice_eq_choiceFrom]
  exact choiceFrom_eq_failed_iff (Nat.zero_le _)

/-- A tagged choice fails when and how the choice of its alternatives does. -/
theorem tagged_eq_failed_iff {alternatives : List (String × Parser α)} :
    (tagged alternatives c).ending = .ok (.failed f) ↔
      ∃ es, FailEach c (alternatives.map (·.2)) es ∧
        f = noAlternative c (Failure.furthestOf c.offset es) := by
  have hpayload := ending_taggedFrom alternatives c c.offset
  rw [← choiceFrom_eq_failed_iff (Nat.le_refl _), ← hpayload, Run.mapValue_eq_failed, tagged]

/-- Behind parsers that fail, one that does not fail decides. -/
theorem ending_choice_of_first (hbefore : ∀ q ∈ before, ∃ e, (q c).ending = .ok (.failed e))
    (hp : ∀ e, (p c).ending ≠ .ok (.failed e)) (after : List (Parser α)) :
    (choice (before ++ p :: after) c).ending = (p c).ending := by
  rw [choice_eq_choiceFrom]
  -- each failure changes how far the choice came, so that is not fixed
  generalize Offset.zero = furthest
  induction before generalizing furthest with
  | nil =>
    rw [List.nil_append, choiceFrom, Run.ending_andThen]
    rcases hend : (p c).ending with stop | ⟨v, s⟩ | e
    · rfl
    · rfl
    · exact absurd hend (hp e)
  | cons q before ih =>
    obtain ⟨⟨e, he⟩, hbefore⟩ := List.forall_mem_cons.1 hbefore
    rw [List.cons_append, choiceFrom, Run.ending_andThen, he]
    exact ih hbefore _

/-! ## Nested and repeated parsers -/

/-- What counts as reached before makes a difference only behind the start. -/
theorem choiceFrom_congr_furthest
    (h : Offset.max c.offset furthest = Offset.max c.offset furthest') (ps : List (Parser α)) :
    choiceFrom c furthest ps = choiceFrom c furthest' ps := by
  -- every failure on the way is counted in on both sides
  induction ps generalizing furthest furthest' with
  | nil => rw [choiceFrom, choiceFrom, noAlternative_congr h]
  | cons p ps ih =>
    rw [choiceFrom, choiceFrom]
    congr 1
    funext x
    cases x with
    | done v s => rfl
    | failed e =>
      apply ih
      simp only [Fin.ext_iff, Offset.val_max] at h ⊢
      omega

/-- What stands behind some parsers may be exchanged for what ends alike. -/
theorem ending_choiceFrom_append (before : List (Parser α))
    (h : ∀ furthest, (choiceFrom c furthest ps).ending = (choiceFrom c furthest qs).ending)
    (furthest : Offset) :
    (choiceFrom c furthest (before ++ ps)).ending =
      (choiceFrom c furthest (before ++ qs)).ending := by
  induction before generalizing furthest with
  | nil => exact h furthest
  | cons p before ih =>
    simp only [List.cons_append, choiceFrom, Run.ending_andThen]
    rcases (p c).ending with stop | ⟨v, s⟩ | e
    · rfl
    · rfl
    · exact ih _

/-- The parsers of an inner choice, followed by those behind it. -/
theorem choiceFrom_nested (c : Cursor) (furthest reached : Offset)
    (inner after : List (Parser α)) :
    ((choiceFrom c reached inner).andThen fun
      | .done v s => Run.done v s
      | .failed e => choiceFrom c (Offset.max furthest e.furthest) after).ending =
      (choiceFrom c (Offset.max furthest reached) (inner ++ after)).ending := by
  -- the inner choice goes on, or it is through and the parsers behind it follow
  induction inner generalizing reached with
  | nil =>
    -- the inner choice has come to its start, which is that of the outer one
    refine congrArg Run.ending (choiceFrom_congr_furthest ?_ after)
    apply Fin.ext
    simp only [noAlternative, Failure.reached, Failure.expecting, Offset.val_max]
    omega
  | cons p inner ih =>
    simp only [List.cons_append, choiceFrom, Run.ending_andThen] at ih ⊢
    rcases (p c).ending with stop | ⟨v, s⟩ | e
    · rfl
    · rfl
    -- what a failure came to may be counted into the inner choice first or into the whole
    · have hassoc : Offset.max furthest (Offset.max reached e.furthest) =
          Offset.max (Offset.max furthest reached) e.furthest := by
        apply Fin.ext
        simp only [Offset.val_max]
        omega
      exact (ih _).trans (by rw [hassoc]; rfl)

/-- A parser that failed before makes no difference when it is tried again. -/
theorem choiceFrom_repeated (hp : (p c).ending = .ok (.failed f))
    (hf : f.furthest.val ≤ furthest.val) (mid after : List (Parser α)) :
    (choiceFrom c furthest (mid ++ p :: after)).ending =
      (choiceFrom c furthest (mid ++ after)).ending := by
  induction mid generalizing furthest with
  | nil =>
    -- tried again, the parser comes no further than has been counted
    have hmax : Offset.max furthest f.furthest = furthest := by
      apply Fin.ext
      rw [Offset.val_max]
      omega
    rw [List.nil_append, List.nil_append, choiceFrom, Run.ending_andThen, hp]
    simp only [Except.bind, hmax]
  | cons q mid ih =>
    simp only [List.cons_append, choiceFrom, Run.ending_andThen]
    rcases (q c).ending with stop | ⟨v, s⟩ | e
    · rfl
    · rfl
    · apply ih
      rw [Offset.val_max]
      omega

/-! ## Other orders -/

/-- The parser succeeds at the cursor. -/
def SucceedsAt (p : Parser α) (c : Cursor) : Prop := ∃ v s, (p c).ending = .ok (.done v s)

/-- Parsers in another order fail with the same failures in that order. -/
theorem FailEach.perm (hes : FailEach c ps es) (h : qs.Perm ps) :
    ∃ es', FailEach c qs es' ∧ es'.Perm es := List.perm_comp_forall₂ h hes

/-- The failure of a choice does not depend on the order of its parsers. -/
theorem choice_eq_failed_perm (h : ps.Perm qs) :
    (choice ps c).ending = .ok (.failed f) ↔ (choice qs c).ending = .ok (.failed f) := by
  -- one direction for both, as a permutation may be read backwards
  suffices himp : ∀ {ps qs : List (Parser α)}, qs.Perm ps →
      (choice ps c).ending = .ok (.failed f) → (choice qs c).ending = .ok (.failed f) from
    ⟨himp h.symm, himp h⟩
  intro ps qs h hf
  obtain ⟨es, hes, rfl⟩ := choice_eq_failed_iff.1 hf
  obtain ⟨es', hes', hperm⟩ := hes.perm h
  exact choice_eq_failed_iff.2 ⟨es', hes', by rw [Failure.furthestOf_perm hperm]⟩

/-- A choice between parsers that come to an outcome succeeds exactly if one of them does, and then
    as the only one that does, if there are no two. -/
theorem choice_eq_done_iff_of_pairwise (hfinish : ∀ p ∈ ps, ∃ x, (p c).ending = .ok x)
    (hone : ps.Pairwise fun p q => ¬ (p.SucceedsAt c ∧ q.SucceedsAt c)) {v : α} {s : Span} :
    (choice ps c).ending = .ok (.done v s) ↔ ∃ p ∈ ps, (p c).ending = .ok (.done v s) := by
  -- if all fail, none of them succeeds; else it is the one that decides
  rcases choice_cases ps c with ⟨es, hes, hend⟩ | ⟨before, p, after, rfl, -, hp, hend⟩
  · rw [hend]
    constructor
    · nofun
    · rintro ⟨p, hp, hdone⟩
      obtain ⟨e, he⟩ := hes.exists_of_mem hp
      rw [he] at hdone
      cases hdone
  · have hmem : p ∈ before ++ p :: after := List.mem_append_right before List.mem_cons_self
    rw [hend]
    refine ⟨fun h => ⟨p, hmem, h⟩, ?_⟩
    rintro ⟨q, hq, hdone⟩
    obtain ⟨x, hx⟩ := hfinish p hmem
    cases x with
    | failed e => exact absurd hx (hp e)
    | done w t =>
      -- two places would hold parsers that succeed, unless they are the same
      by_cases hpq : p = q
      · rwa [hpq]
      · have : Std.Symm fun p q : Parser α => ¬ (p.SucceedsAt c ∧ q.SucceedsAt c) :=
          ⟨fun _ _ hne h => hne h.symm⟩
        exact absurd ⟨⟨w, t, hx⟩, ⟨v, s, hdone⟩⟩ (hone.forall hmem hq hpq)

/-- Of parsers that come to an outcome, no two of which succeed, a choice does the same in every
    order. -/
theorem ending_choice_perm (h : ps.Perm qs) (hfinish : ∀ p ∈ ps, ∃ x, (p c).ending = .ok x)
    (hone : ps.Pairwise fun p q => ¬ (p.SucceedsAt c ∧ q.SucceedsAt c)) :
    (choice ps c).ending = (choice qs c).ending := by
  have hfinish' : ∀ p ∈ qs, ∃ x, (p c).ending = .ok x := fun p hp => hfinish p (h.mem_iff.2 hp)
  have hone' : qs.Pairwise fun p q => ¬ (p.SucceedsAt c ∧ q.SucceedsAt c) :=
    (h.pairwise_iff fun hne h => hne h.symm).1 hone
  rcases choice_cases ps c with ⟨es, hes, hend⟩ | ⟨before, p, after, rfl, -, hp, hend⟩
  · exact hend.trans ((choice_eq_failed_perm h).1 hend).symm
  -- the parser that decides in one order is the only one that succeeds, so it decides in the other
  · have hmem : p ∈ before ++ p :: after := List.mem_append_right before List.mem_cons_self
    obtain ⟨x, hx⟩ := hfinish p hmem
    cases x with
    | failed e => exact absurd hx (hp e)
    | done v s =>
      rw [hend, hx]
      exact ((choice_eq_done_iff_of_pairwise hfinish' hone').2 ⟨p, h.mem_iff.1 hmem, hx⟩).symm

/-- The laws of ordered choice at a cursor, for any parsers and any number of them.

    - A choice that stands among the parsers of a choice may be replaced by its own parsers.
    - A parser that stands there before may be left out.
    - If all of the parsers come to an outcome and no two of them succeed, the order of the parsers
      makes no difference.
    - To a failure it never makes a difference. -/
theorem choice_laws (c : Cursor) :
    (∀ before inner after : List (Parser α),
      (choice (before ++ choice inner :: after) c).ending =
        (choice (before ++ inner ++ after) c).ending) ∧
    (∀ (before after : List (Parser α)) (p : Parser α), p ∈ before →
      (choice (before ++ p :: after) c).ending = (choice (before ++ after) c).ending) ∧
    (∀ ps qs : List (Parser α), ps.Perm qs → (∀ p ∈ ps, ∃ x, (p c).ending = .ok x) →
      (ps.Pairwise fun p q => ¬ (p.SucceedsAt c ∧ q.SucceedsAt c)) →
      (choice ps c).ending = (choice qs c).ending) ∧
    (∀ ps qs : List (Parser α), ps.Perm qs → ∀ f,
      (choice ps c).ending = .ok (.failed f) ↔ (choice qs c).ending = .ok (.failed f)) := by
  refine ⟨fun before inner after => ?_, fun before after p hp => ?_,
    fun ps qs => ending_choice_perm, fun ps qs h f => choice_eq_failed_perm h⟩
  · rw [choice_eq_choiceFrom, choice_eq_choiceFrom, List.append_assoc]
    refine ending_choiceFrom_append before (fun furthest => ?_) Offset.zero
    -- before the inner choice nothing counts as reached but what the outer one came to
    have hmax : Offset.max furthest Offset.zero = furthest := by
      apply Fin.ext
      exact (Offset.val_max _ _).trans (Nat.max_eq_left (Nat.zero_le _))
    rw [choiceFrom, choice_eq_choiceFrom]
    exact (choiceFrom_nested c furthest Offset.zero inner after).trans (by rw [hmax])
  -- the first place of the parser fails or decides; if it fails, the second place changes nothing
  · obtain ⟨first, mid, rfl⟩ := List.append_of_mem hp
    rw [choice_eq_choiceFrom, choice_eq_choiceFrom, List.append_assoc, List.append_assoc]
    refine ending_choiceFrom_append first (fun furthest => ?_) Offset.zero
    simp only [List.cons_append, choiceFrom, Run.ending_andThen]
    rcases hend : (p c).ending with stop | ⟨v, s⟩ | e
    · rfl
    · rfl
    · refine choiceFrom_repeated hend ?_ mid after
      rw [Offset.val_max]
      exact Nat.le_max_right _ _

/-- The words one after the other. -/
def words (ws : List String) : Parser (List String) := sequence (ws.map word)

private theorem words_abc : (words ["a", "b", "c"] ⟨"abd", 0⟩).ending =
    .ok (.failed (Failure.expecting (.word "c") 2)) := by cbv

private theorem words_ax : (words ["a", "x"] ⟨"abd", 0⟩).ending =
    .ok (.failed (Failure.expecting (.word "x") 1)) := by cbv

private theorem words_ab : (words ["a", "b"] ⟨"abd", 0⟩).ending =
    .ok (.done ["a", "b"] ⟨0, 2, by decide⟩) := by cbv

/-- Of three rows of words, only the last one tried is read, whether it comes last or in between;
    nested or repeated, the others make no difference. Without it, the choice fails in both orders
    behind the two words that one of the others came to read. -/
theorem choice_laws_words :
    words ["a", "x"] ∈ [words ["a", "x"]] ∧
      [words ["a", "b", "c"], words ["a", "x"], words ["a", "b"]].Perm
        [words ["a", "b", "c"], words ["a", "b"], words ["a", "x"]] ∧
      (∀ p ∈ [words ["a", "b", "c"], words ["a", "x"], words ["a", "b"]],
        ∃ x, (p ⟨"abd", 0⟩).ending = .ok x) ∧
      ([words ["a", "b", "c"], words ["a", "x"], words ["a", "b"]].Pairwise fun p q =>
        ¬ (p.SucceedsAt ⟨"abd", 0⟩ ∧ q.SucceedsAt ⟨"abd", 0⟩)) ∧
      (choice [words ["a", "b", "c"], words ["a", "b"], words ["a", "x"]] ⟨"abd", 0⟩).ending =
        .ok (.done ["a", "b"] ⟨0, 2, by decide⟩) ∧
      (choice [words ["a", "x"], choice [words ["a", "b", "c"]]] ⟨"abd", 0⟩).ending =
        (choice [words ["a", "x"], words ["a", "b", "c"]] ⟨"abd", 0⟩).ending ∧
      (choice [words ["a", "x"], words ["a", "x"], words ["a", "b", "c"]] ⟨"abd", 0⟩).ending =
        (choice [words ["a", "x"], words ["a", "b", "c"]] ⟨"abd", 0⟩).ending ∧
      (choice [words ["a", "b", "c"], words ["a", "x"]] ⟨"abd", 0⟩).ending =
        .ok (.failed ⟨0, 2, .alternative, by decide⟩) := by
  have hfinish : ∀ p ∈ [words ["a", "b", "c"], words ["a", "x"], words ["a", "b"]],
      ∃ x, (p ⟨"abd", 0⟩).ending = .ok x := by
    simp [words_abc, words_ax, words_ab]
  have hone : [words ["a", "b", "c"], words ["a", "x"], words ["a", "b"]].Pairwise fun p q =>
      ¬ (p.SucceedsAt ⟨"abd", 0⟩ ∧ q.SucceedsAt ⟨"abd", 0⟩) := by
    simp [SucceedsAt, words_abc, words_ax]
  have hfirst : (choice [words ["a", "b", "c"], words ["a", "x"], words ["a", "b"]]
      ⟨"abd", 0⟩).ending = .ok (.done ["a", "b"] ⟨0, 2, by decide⟩) := by cbv
  have hfails : (choice [words ["a", "x"], words ["a", "b", "c"]] ⟨"abd", 0⟩).ending =
      .ok (.failed ⟨0, 2, .alternative, by decide⟩) := by cbv
  have hperm : [words ["a", "b", "c"], words ["a", "x"], words ["a", "b"]].Perm
      [words ["a", "b", "c"], words ["a", "b"], words ["a", "x"]] := (List.Perm.swap _ _ _).cons _
  obtain ⟨hnested, hrepeated, horder, hfailure⟩ := choice_laws (α := List String) ⟨"abd", 0⟩
  have hflat := hnested [words ["a", "x"]] [words ["a", "b", "c"]] []
  have honce := hrepeated [words ["a", "x"]] [words ["a", "b", "c"]] (words ["a", "x"])
    (List.mem_singleton_self _)
  have hswapped := (hfailure [words ["a", "x"], words ["a", "b", "c"]]
    [words ["a", "b", "c"], words ["a", "x"]] (List.Perm.swap _ _ _) _).1 hfails
  exact ⟨List.mem_singleton_self _, hperm, hfinish, hone,
    (horder _ _ hperm hfinish hone).symm.trans hfirst, hflat, honce, hswapped⟩

end Parser

end ParserKit
