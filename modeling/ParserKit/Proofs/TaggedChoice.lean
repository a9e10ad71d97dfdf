import ParserKit.Proofs.Inlining
import ParserKit.Proofs.OrderedChoice
import ParserKit.Proofs.RepetitionByRule
import ParserKit.Proofs.Selection

/-!
# Tagged choice as ordered choice

A tagged choice builds its variant from the inside out, around what the branch read that succeeded,
and counts the offset it starts at as reached before any branch is tried. An ordered choice knows
nothing of variants and starts with what its first branch came to. Both are the same if each branch
of the ordered choice injects what it reads at its own number (`Parser.injected`): they end alike,
and the map of the branch that decides runs where the map around the tagged choice would.

A function of the variant that comes out can then be moved into the branches. There it meets a
variant whose number is known, so that a conversion to a common type, be it chosen by the tag or
found by splitting alternatives off, becomes the conversion of that branch (`Parser.converted`).

## Key results

- `Run.Matches.andThen`, `Run.matches_assoc`: runs up to how their traces are joined
- `Parser.mapped_taggedFrom_matches`: a function of the variant, moved into the branches
- `Parser.taggedFrom_eq_done_iff`: which branch decides, and what it makes of the variant

The comparison of all three forms is stated last.
-/

namespace ParserKit

variable {α β γ : Type}

/-- To unify is to use the conversion of the active alternative. -/
theorem Variant.unify_eq (convert : Nat → α → β) (v : Variant α) :
    v.unify convert = convert v.tag v.storage.payload := by
  simp only [unify, ← v.depth_eq, Chain.unifyAt_depth, Option.get_some]

/-! ## Runs with the same events -/

namespace Run

variable {r r' r'' : Run β}

/-- Runs that end and record alike do so in either order. -/
theorem Matches.symm_eq (h : r.Matches Eq r') : r'.Matches Eq r := ⟨h.ending.symm, h.trace.symm⟩

/-- Matching may be put together step by step. -/
theorem Matches.trans_eq (h : r.Matches Eq r') (h' : r'.Matches Eq r'') : r.Matches Eq r'' :=
  ⟨h.ending.trans h'.ending, h.trace.trans h'.trace⟩

/-- What is gone on with adds its events to those of the run. -/
theorem toList_andThen (r : Run β) (k : β → Run γ) :
    (r.andThen k).trace.toList = r.trace.toList ++
      match r.ending with
      | .ok b => (k b).trace.toList
      | .error _ => [] := by
  cases hr : r.ending with
  | error stop => rw [toList_andThen_of_error hr, List.append_nil]
  | ok b => rw [toList_andThen_of_ok hr]

/-- Going on in the same way keeps the ending and the events the same. -/
theorem Matches.andThen {k k' : β → Run γ} (h : r.Matches Eq r')
    (hk : ∀ b, (k b).Matches Eq (k' b)) : (r.andThen k).Matches Eq (r'.andThen k') where
  ending := by
    rw [ending_andThen, ending_andThen, h.ending]
    cases r'.ending with
    | error stop => rfl
    | ok b => exact (hk b).ending
  trace := by
    rw [toList_andThen, toList_andThen, h.ending, h.trace]
    cases r'.ending with
    | error stop => rfl
    | ok b =>
      show r'.trace.toList ++ (k b).trace.toList = r'.trace.toList ++ (k' b).trace.toList
      rw [(hk b).trace]

/-- Going on twice is going on once with both. -/
theorem matches_assoc {δ : Type} (r : Run β) (k : β → Run γ) (m : γ → Run δ) :
    ((r.andThen k).andThen m).Matches Eq (r.andThen fun b => (k b).andThen m) where
  ending := by
    simp only [ending_andThen]
    cases r.ending <;> rfl
  trace := by
    simp only [toList_andThen, ending_andThen]
    cases r.ending with
    | error stop => simp [Except.bind]
    | ok b => simp [Except.bind]

end Run

namespace Parser

/-! ## Moving a function of the variant into the branches -/

/-- The branches of an ordered choice, each with what it reads as the alternative of its number, of
    which `g` makes a value. -/
def injectedInto (g : Variant α → β) (alternatives : List (String × Parser α)) :
    List (Parser β) :=
  List.ofFn fun k : Fin alternatives.length =>
    mapped (fun v => g (Variant.inject (alternatives.map (·.1)) k.val v (by simp)))
      alternatives[k].2

/-- The branches of an ordered choice, each with what it reads as the alternative of its number. -/
def injected (alternatives : List (String × Parser α)) : List (Parser (Variant α)) :=
  List.ofFn fun k : Fin alternatives.length =>
    mapped (fun v => Variant.inject (alternatives.map (·.1)) k.val v (by simp)) alternatives[k].2

/-- The branches of an ordered choice, each with what it reads brought to a common type by the
    conversion of its number. -/
def converted (convert : Nat → α → β) (alternatives : List (String × Parser α)) :
    List (Parser β) :=
  List.ofFn fun k : Fin alternatives.length => mapped (convert k.val) alternatives[k].2

/-- The first branch makes a variant of the first alternative. The others make theirs among one
    alternative less, and move it one place up. -/
theorem injectedInto_cons (g : Variant α → β) (t : String) (p : Parser α)
    (rest : List (String × Parser α)) :
    injectedInto g ((t, p) :: rest) =
      mapped (fun v => g (Variant.ofHead t (rest.map (·.1)) v)) p ::
        injectedInto (fun w => g (Variant.ofTail t w)) rest := by
  -- the variant at the number after `k` is that at `k` with one more alternative before it
  simp only [injectedInto, List.length_cons, List.ofFn_succ]
  rfl

variable {c : Cursor} {furthest : Offset} {alternatives : List (String × Parser α)}

/-- A map around a run whose values are transformed is one map. -/
private theorem mapped_mapValue (g : β → γ) (f : α → β) (r : Run (Outcome α)) (c : Cursor) :
    mapped g (fun _ => r.mapValue f) c = mapped (fun v => g (f v)) (fun _ => r) c := by
  obtain ⟨trace, ending⟩ := r
  rcases ending with stop | ⟨v, s⟩ | e <;> rfl

/-- What is made of the variant of a tagged choice may be made of it by the branches. The events are
    the same as well, as the one map that runs comes after the last branch that is tried. -/
theorem mapped_taggedFrom_matches (g : Variant α → β) (c : Cursor) (furthest : Offset)
    (alternatives : List (String × Parser α)) :
    (mapped g (fun _ => taggedFrom c furthest alternatives) c).Matches Eq
      (choiceFrom c furthest (injectedInto g alternatives)) := by
  -- on the branches; what is made of the variant takes the place of each alternative that was taken
  -- off, so it varies
  induction alternatives generalizing g furthest with
  | nil => exact ⟨rfl, rfl⟩
  | cons a rest ih =>
    obtain ⟨t, p⟩ := a
    rw [injectedInto_cons]
    -- on both sides the branch runs first; what differs is how the rest is grouped
    apply (Run.matches_assoc (p c) _ _).trans_eq
    apply Run.Matches.symm_eq
    apply (Run.matches_assoc (p c) _ _).trans_eq
    apply Run.Matches.andThen ⟨rfl, rfl⟩
    intro x
    cases x with
    | done v s => exact ⟨rfl, rfl⟩
    | failed f =>
      have hrest := ih (fun w => g (Variant.ofTail t w)) (Offset.max furthest f.furthest)
      rw [← mapped_mapValue g (Variant.ofTail t)] at hrest
      exact hrest.symm_eq

/-- A tagged choice counts its start as reached before it tries a branch. An ordered one does not,
    but no failure of it comes less far. -/
private theorem choiceFrom_start (ps : List (Parser β)) (c : Cursor) :
    choiceFrom c c.offset ps = choice ps c := by
  rw [choice_eq_choiceFrom]
  apply choiceFrom_congr_furthest
  apply Fin.ext
  simp only [Offset.val_max, Offset.zero]
  omega

/-- What is made of the variant of a tagged choice may be made of it by the branches. -/
theorem mapped_tagged_matches (g : Variant α → β) (alternatives : List (String × Parser α))
    (c : Cursor) :
    (mapped g (tagged alternatives) c).Matches Eq (choice (injectedInto g alternatives) c) := by
  rw [← choiceFrom_start]
  exact mapped_taggedFrom_matches g c c.offset alternatives

/-- A conversion that depends on the alternative meets the alternative of the branch. -/
theorem injectedInto_eq_converted {g : Variant α → β} {convert : Nat → α → β}
    (hg : ∀ v, g v = convert v.tag v.storage.payload)
    (alternatives : List (String × Parser α)) :
    injectedInto g alternatives = converted convert alternatives := by
  -- the variant that a branch makes has the tag of the branch, and its value
  have hinject (k : Nat) (h : k < (alternatives.map (·.1)).length) (v : α) :
      g (Variant.inject (alternatives.map (·.1)) k v h) = convert k v := by
    rw [hg]
    show convert k (Chain.inject k v).payload = convert k v
    rw [Chain.payload_inject]
  unfold injectedInto converted
  congr 1
  funext k
  congr 1
  funext v
  exact hinject k.val _ v

/-! ## Which branch decides -/

/-- A tagged choice reads what its first branch reads, as the first alternative. If that one fails,
    it reads what the others read, moved one place up. -/
theorem taggedFrom_cons_eq_done {t : String} {p : Parser α} {rest : List (String × Parser α)}
    {w : Variant α} {s : Span} :
    (taggedFrom c furthest ((t, p) :: rest)).ending = .ok (.done w s) ↔
      (∃ v, (p c).ending = .ok (.done v s) ∧ w = Variant.ofHead t (rest.map (·.1)) v) ∨
      ∃ f, (p c).ending = .ok (.failed f) ∧
        ∃ u, (taggedFrom c (Offset.max furthest f.furthest) rest).ending = .ok (.done u s) ∧
          w = Variant.ofTail t u := by
  rw [taggedFrom, Run.andThen_eq_ok]
  -- the first branch reads, or it fails and the others go on from how far it came
  constructor
  · rintro ⟨x, hx, h⟩
    cases x with
    | done v s' =>
      cases h
      exact .inl ⟨v, hx, rfl⟩
    | failed f =>
      obtain ⟨u, hu, rfl⟩ := Run.mapValue_eq_done.1 h
      exact .inr ⟨f, hx, u, hu, rfl⟩
  · rintro (⟨v, hv, rfl⟩ | ⟨f, hf, u, hu, rfl⟩)
    · exact ⟨_, hv, rfl⟩
    · exact ⟨_, hf, Run.mapValue_eq_done.2 ⟨u, hu, rfl⟩⟩

/-- Branch `k` decides at `c`: the ones before fail, and it reads `v` from `s`. -/
def DecidedBy (alternatives : List (String × Parser α)) (c : Cursor) (k : Nat) (v : α) (s : Span) :
    Prop :=
  (∀ a ∈ alternatives.take k, ∃ f, (a.2 c).ending = .ok (.failed f)) ∧
    ∃ a, alternatives[k]? = some a ∧ (a.2 c).ending = .ok (.done v s)

/-- A tagged choice reads a variant exactly if the first branch that does not fail reads the value
    of it, and the tag is the number of that branch. How far the choice came before does not
    matter. -/
theorem taggedFrom_eq_done_iff {w : Variant α} {s : Span} :
    (taggedFrom c furthest alternatives).ending = .ok (.done w s) ↔
      ∃ k v, DecidedBy alternatives c k v s ∧
        ∃ h, w = Variant.inject (alternatives.map (·.1)) k v h := by
  -- on the branches; the number of the one that decides is counted from the first that is left
  induction alternatives generalizing furthest w with
  | nil =>
    constructor
    · intro h
      cases h
    · rintro ⟨k, v, -, h, -⟩
      cases h
  | cons a rest ih =>
    obtain ⟨t, p⟩ := a
    rw [taggedFrom_cons_eq_done]
    constructor
    -- from the run: the first branch decides, or the first of the others is one place further on
    · rintro (⟨v, hv, rfl⟩ | ⟨f, hf, u, hu, rfl⟩)
      · exact ⟨0, v, ⟨fun a ha => absurd ha List.not_mem_nil, _, rfl, hv⟩, Nat.succ_pos _, rfl⟩
      · obtain ⟨k, v, ⟨hbefore, hk⟩, h, rfl⟩ := ih.1 hu
        have hbefore' : ∀ a ∈ ((t, p) :: rest).take (k + 1),
            ∃ f, (a.2 c).ending = .ok (.failed f) :=
          List.forall_mem_cons.2 ⟨⟨f, hf⟩, hbefore⟩
        exact ⟨k + 1, v, ⟨hbefore', hk⟩, Nat.succ_lt_succ h, rfl⟩
    -- from the branch that decides: it is the first, or the first failed and it is among the others
    · rintro ⟨k, v, ⟨hbefore, a, ha, hv⟩, h, rfl⟩
      cases k with
      | zero =>
        cases ha
        exact .inl ⟨v, hv, rfl⟩
      | succ k =>
        obtain ⟨⟨f, hf⟩, hbefore⟩ := List.forall_mem_cons.1 hbefore
        have hk : k < (rest.map (·.1)).length := Nat.lt_of_succ_lt_succ h
        exact .inr ⟨f, hf, _, ih.2 ⟨k, v, ⟨hbefore, a, ha, hv⟩, hk, rfl⟩, rfl⟩

/-! ## The comparison -/

/-- Take any parsers, of one's own as well, whose types may repeat, and any cursor. A tagged choice
    of them ends exactly as the ordered choice of their maps to variants: with the same variant and
    span, or the same failure, or the same stop. Its variant is what the first parser that does not
    fail reads, at the number of this parser. If the variant is then converted to a common type, by
    its tag or by splitting alternatives off one by one, the run is that of the ordered choice whose
    branches convert what they read. -/
theorem tagged_matches_choice (alternatives : List (String × Parser α)) (c : Cursor) :
    (tagged alternatives c).ending = (choice (injected alternatives) c).ending ∧
      (mapped id (tagged alternatives) c).Matches Eq (choice (injected alternatives) c) ∧
      (∀ w s, (tagged alternatives c).ending = .ok (.done w s) ↔
        ∃ k v, DecidedBy alternatives c k v s ∧
          ∃ h, w = Variant.inject (alternatives.map (·.1)) k v h) ∧
      ∀ {β : Type} (convert : Nat → α → β),
        (mapped (Variant.unify convert) (tagged alternatives) c).Matches Eq
          (choice (converted convert alternatives) c) ∧
        (mapped (Variant.peel convert) (tagged alternatives) c).Matches Eq
          (choice (converted convert alternatives) c) := by
  -- the variant is made by the branches instead of by the choice; the other forms are conversions
  -- of it
  have hinjected : (mapped id (tagged alternatives) c).Matches Eq
      (choice (injected alternatives) c) := mapped_tagged_matches id alternatives c
  have hending : (mapped id (tagged alternatives) c).ending = (tagged alternatives c).ending := by
    rw [ending_mapped, Run.mapValue, Run.ending_map]
    rcases (tagged alternatives c).ending with stop | ⟨w, s⟩ | f <;> rfl
  refine ⟨hending.symm.trans hinjected.ending, hinjected, fun w s => taggedFrom_eq_done_iff, ?_⟩
  intro β convert
  constructor
  · rw [← injectedInto_eq_converted (Variant.unify_eq convert)]
    exact mapped_tagged_matches _ alternatives c
  · rw [← injectedInto_eq_converted (Variant.peel_eq convert)]
    exact mapped_tagged_matches _ alternatives c

-- a parser of one's own may fail behind the start of the choice, which counts as reached anyway
example :
    (choice (injected [("()", (fun _ => Run.failed (Failure.expecting .endOfInput 0) :
      Parser Unit))]) ⟨"abcd", 3⟩).ending = .ok (.failed (Failure.expecting .alternative 3)) := by
  rfl

end Parser

end ParserKit
