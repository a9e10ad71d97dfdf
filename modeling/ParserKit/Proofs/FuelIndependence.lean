import Mathlib.Data.Finset.Prod
import Mathlib.Data.Fintype.Card
import Mathlib.Order.Monotone.Basic
import ParserKit.Proofs.Congruence

/-!
# Fuel independence

Running a grammar takes fuel for the nesting of rules. Extra fuel never changes a run that came to
an end, and the fuel that `Rulebook.run` takes is as good as any: what finishes with some amount
finishes with that one. So `Rulebook.run` may be reasoned about without fuel, by the equation that
a rule runs as its body does (`ending_run_rule`).

The bound holds because a run is a function of the rule and the offset. With one unit of fuel more,
either a further pair of rule and offset finishes, or none ever will again; and there are only so
many pairs.

## Key results

- `call_approximates_of_le`: more fuel never changes a finished answer
- `runWith_eq_run`: `Rulebook.run` is every run that finishes
- `finishes_iff`: a parse finishes with some amount of fuel exactly if `Rulebook.run` does
- `ending_run_rule`: a rule ends as its body does under its name
-/

namespace ParserKit

variable {α β γ ι κ : Type}

/-! ## Approximation -/

namespace Run

/-- `r'` is `r` unless `r` was out of fuel. -/
def Approximates (r r' : Run β) : Prop := r.ending = .error .outOfFuel ∨ r = r'

@[refl] theorem Approximates.refl (r : Run β) : r.Approximates r := .inr rfl

/-- What is more than more fuel is more fuel. -/
theorem Approximates.trans {r s t : Run β} (hrs : r.Approximates s) (hst : s.Approximates t) :
    r.Approximates t := by
  rcases hrs with h | rfl
  · exact .inl h
  · exact hst

/-- A run that did not run out of fuel is what it approximates. -/
theorem Approximates.eq {r r' : Run β} (h : r.Approximates r')
    (hr : r.ending ≠ .error .outOfFuel) : r = r' := h.resolve_left hr

/-- Runs that approximate each other end alike. -/
theorem Approximates.ending_eq {r r' : Run β} (h : r.Approximates r')
    (h' : r'.Approximates r) : r.ending = r'.ending := by
  rcases h with hr | rfl
  · rcases h' with hr' | rfl
    · rw [hr, hr']
    · rfl
  · rfl

/-- Going on keeps approximation: out of fuel first, or later, or never. -/
theorem Approximates.andThen {r r' : Run β} {k k' : β → Run γ} (h : r.Approximates r')
    (hk : ∀ b, (k b).Approximates (k' b)) : (r.andThen k).Approximates (r'.andThen k') := by
  rcases h with h | rfl
  -- out of fuel in the first run
  · left
    rw [ending_andThen, h]
    rfl
  · cases hr : r.ending with
    | error stop =>
      right
      simp only [Run.andThen, hr]
    | ok b =>
      -- the first run is the same in both, and what follows approximates
      rcases hk b with hb | hb
      · left
        rw [ending_andThen, hr]
        exact hb
      · right
        simp only [Run.andThen, hr, hb]

/-- So what approximates part by part approximates as a whole. -/
theorem approximates_congruence : Congruence fun _ => Approximates where
  refl := .refl
  andThen := .andThen

end Run

namespace Parser

/-- At every offset of `input`, `q` does what `p` does unless `p` is out of fuel there. -/
def Approximates (input : String) (p q : Parser α) : Prop :=
  ∀ o, (p ⟨input, o⟩).Approximates (q ⟨input, o⟩)

variable {input : String}

/-- Every parser approximates itself. -/
theorem Approximates.refl (p : Parser α) : Approximates input p p := fun _ => .refl _

/-- Approximations of parsers may be put one after the other. -/
theorem Approximates.trans {p q r : Parser α} (hpq : Approximates input p q)
    (hqr : Approximates input q r) : Approximates input p r := fun o => (hpq o).trans (hqr o)

end Parser

/-! ## More fuel -/

variable {input : String}

/-- A grammar approximates when what it does with rules does. -/
theorem Grammar.parser_approximates {call call' : ι → Parser (Value κ)}
    (h : ∀ i, Parser.Approximates input (call i) (call' i)) (g : Grammar ι κ) :
    Parser.Approximates input (g.parser call) (g.parser call') :=
  Grammar.parser_congr Run.approximates_congruence h g

/-- A rule approximates when what its body does with rules does. -/
theorem Rule.named_approximates {call call' : ι → Parser (Value κ)}
    (h : ∀ i, Parser.Approximates input (call i) (call' i)) (r : Rule ι κ) :
    Parser.Approximates input (Parser.named r.name r.action (r.body.parser call))
      (Parser.named r.name r.action (r.body.parser call')) :=
  Parser.named_congr Run.approximates_congruence (Grammar.parser_approximates h r.body) _ _

namespace Rulebook

variable {book : Rulebook ι κ}

/-- One unit of fuel more never changes a finished answer. -/
theorem call_approximates_succ (n : Nat) (i : ι) :
    Parser.Approximates input (book.call n i) (book.call (n + 1) i) := by
  induction n generalizing i with
  | zero => exact fun o => .inl rfl
  | succ n ih => exact Rule.named_approximates ih (book.rule i)

/-- More fuel never changes a finished answer. -/
theorem call_approximates_of_le {m n : Nat} (h : m ≤ n) (i : ι) :
    Parser.Approximates input (book.call m i) (book.call n i) := by
  induction h with
  | refl => exact .refl _
  | step _ ih => exact ih.trans (call_approximates_succ _ i)

/-! ## Enough fuel -/

open scoped Classical in
/-- The rules and the offsets of `input` at which they finish with fuel `n`. -/
private noncomputable def finishing (book : Rulebook ι κ) (input : String) (n : Nat) :
    Finset (ι × Offset) :=
  (book.keys.toFinset ×ˢ Finset.univ).filter fun x =>
    (book.call n x.1 ⟨input, x.2⟩).ending ≠ .error .outOfFuel

/-- The pairs that are in the set are those that finish. -/
private theorem mem_finishing {n : Nat} {i : ι} {o : Offset} :
    (i, o) ∈ finishing book input n ↔
      (book.call n i ⟨input, o⟩).ending ≠ .error .outOfFuel := by
  simp [finishing, book.mem_keys]

/-- There are no more pairs than rules times offsets. -/
private theorem card_finishing_le (n : Nat) :
    (finishing book input n).card ≤ book.depthBound := by
  classical
  calc (finishing book input n).card
      ≤ (book.keys.toFinset ×ˢ (Finset.univ : Finset Offset)).card := Finset.card_filter_le _ _
    _ = book.keys.toFinset.card * 0x10000000000000000 := by
        rw [Finset.card_product, Finset.card_univ, Fintype.card_fin]
    _ ≤ book.depthBound := by
        rw [depthBound, Nat.mul_comm]
        exact Nat.mul_le_mul_left _ (List.toFinset_card_le _)

/-- What finishes goes on finishing. -/
private theorem finishing_subset_succ (n : Nat) :
    finishing book input n ⊆ finishing book input (n + 1) := by
  rintro ⟨i, o⟩ h
  rw [mem_finishing] at h ⊢
  rw [← (call_approximates_succ n i o).eq h]
  exact h

/-- Where one unit more lets no further pair finish, it changes nothing. -/
private theorem call_succ_approximates {n : Nat}
    (h : finishing book input (n + 1) = finishing book input n) (i : ι) :
    Parser.Approximates input (book.call (n + 1) i) (book.call n i) := by
  intro o
  by_cases hn : (book.call (n + 1) i ⟨input, o⟩).ending = .error .outOfFuel
  · exact .inl hn
  · have hmem := mem_finishing.2 hn
    rw [h, mem_finishing] at hmem
    rw [(call_approximates_succ n i o).eq hmem]

/-- Where one unit more lets no further pair finish, the next one does not either. -/
private theorem finishing_stable {n : Nat}
    (h : finishing book input (n + 1) = finishing book input n) :
    finishing book input (n + 2) = finishing book input (n + 1) := by
  refine Finset.Subset.antisymm ?_ (finishing_subset_succ _)
  rintro ⟨i, o⟩ hio
  rw [mem_finishing] at hio ⊢
  have hnext : Parser.Approximates input (book.call (n + 2) i) (book.call (n + 1) i) :=
    Rule.named_approximates (call_succ_approximates h) (book.rule i)
  rw [← (hnext o).eq hio]
  exact hio

/-- As many pairs finish with fuel `book.depthBound` as with any more. -/
private theorem finishing_depthBound {n : Nat} (hn : book.depthBound ≤ n) :
    finishing book input n = finishing book input book.depthBound := by
  have hmono : Monotone (finishing book input) := monotone_nat_of_le_succ finishing_subset_succ
  have hcard : Monotone fun n => (finishing book input n).card :=
    fun _ _ h => Finset.card_le_card (hmono h)
  refine (Finset.eq_of_subset_of_card_le (hmono hn) (Nat.le_of_eq ?_)).symm
  -- a set that grows until it grows no more is through before its size is reached
  refine Nat.stabilises_of_monotone hcard card_finishing_le (fun m hm => ?_) hn
  have hset := Finset.eq_of_subset_of_card_le (finishing_subset_succ m) (Nat.le_of_eq hm.symm)
  exact congrArg Finset.card (finishing_stable hset.symm).symm

/-- With any amount of fuel, a rule comes to no other answer than with `book.depthBound`. -/
theorem call_approximates_depthBound (n : Nat) (i : ι) :
    Parser.Approximates input (book.call n i) (book.call book.depthBound i) := by
  rcases Nat.le_total n book.depthBound with hn | hn
  · exact call_approximates_of_le hn i
  -- with more fuel than the bound, no pair finishes that did not before
  · intro o
    by_cases hfin : (book.call n i ⟨input, o⟩).ending = .error .outOfFuel
    · exact .inl hfin
    · have hmem := mem_finishing.2 hfin
      rw [finishing_depthBound hn, mem_finishing] at hmem
      rw [(call_approximates_of_le hn i o).eq hmem]

/-- A run that finishes with some amount of fuel is the run of the grammar. -/
theorem runWith_eq_run {n : Nat} {g : Grammar ι κ} {c : Cursor}
    (h : (book.runWith n g c).ending ≠ .error .outOfFuel) : book.runWith n g c = book.run g c :=
  (Grammar.parser_approximates (call_approximates_depthBound n) g c.offset).eq h

/-- What a run comes to with some amount of fuel, the run of the grammar comes to. -/
theorem ending_run_eq_ok {n : Nat} {g : Grammar ι κ} {c : Cursor} {o : Outcome (Value κ)}
    (h : (book.runWith n g c).ending = .ok o) : (book.run g c).ending = .ok o := by
  have hfinished : (book.runWith n g c).ending ≠ .error .outOfFuel := by
    rw [h]
    exact nofun
  rw [← runWith_eq_run hfinished, h]

/-- The run of a grammar finishes if it does with some amount of fuel. -/
theorem run_finishes_iff {g : Grammar ι κ} {c : Cursor} :
    (book.run g c).ending ≠ .error .outOfFuel ↔
      ∃ n, (book.runWith n g c).ending ≠ .error .outOfFuel := by
  constructor
  · exact fun h => ⟨book.depthBound, h⟩
  · rintro ⟨n, h⟩
    rwa [← runWith_eq_run h]

/-- The parse of `g` at `c` comes to an outcome: with some bound on the nesting of rules, its run
    does. -/
def Finishes (book : Rulebook ι κ) (g : Grammar ι κ) (c : Cursor) : Prop :=
  ∃ fuel o, (book.runWith fuel g c).ending = .ok o

/-- A parse comes to the outcome of the run, if to any. -/
theorem finishes_iff {g : Grammar ι κ} {c : Cursor} :
    book.Finishes g c ↔ ∃ o, (book.run g c).ending = .ok o := by
  constructor
  · rintro ⟨fuel, o, ho⟩
    exact ⟨o, ending_run_eq_ok ho⟩
  · rintro ⟨o, ho⟩
    exact ⟨book.depthBound, o, ho⟩

/-! ## Runs without fuel -/

/-- What the body of a rule does under its name, the rule does. -/
theorem named_approximates_run (book : Rulebook ι κ) (i : ι) :
    Parser.Approximates input
      (Parser.named (book.rule i).name (book.rule i).action (book.run (book.rule i).body))
      (book.run (.rule i)) :=
  call_approximates_depthBound (book.depthBound + 1) i

/-- A rule ends as its body does under its name. -/
theorem ending_run_rule (i : ι) (c : Cursor) :
    (book.run (.rule i) c).ending =
      (Parser.named (book.rule i).name (book.rule i).action (book.run (book.rule i).body)
        c).ending :=
  (call_approximates_succ book.depthBound i c.offset).ending_eq
    (named_approximates_run book i c.offset)

/-- The equations of a run, node by node, without fuel: a sequence runs the runs of its items. -/
theorem run_sequence (items : List (Grammar ι κ)) :
    book.run (.sequence items) = Parser.map .seq (Parser.sequence (items.map book.run)) :=
  runWith_sequence _ items

/-- A choice runs the runs of its branches. -/
theorem run_either (branches : List (Grammar ι κ)) :
    book.run (.either branches) = Parser.choice (branches.map book.run) :=
  runWith_either _ branches

/-- A tagged choice runs the runs of its branches, each with its type, and answers in its form. -/
theorem run_oneOf (form : Form) (types : List String) (branches : List (Grammar ι κ)) :
    book.run (.oneOf form types branches) = Parser.map (Grammar.formValue form)
      (Parser.tagged (types.zip (branches.map book.run))) :=
  runWith_oneOf _ form types branches

/-- A repetition runs the run of its item. -/
theorem run_many (item : Grammar ι κ) :
    book.run (.many item) = Parser.map .many (Parser.many (book.run item)) := rfl

end Rulebook

end ParserKit
