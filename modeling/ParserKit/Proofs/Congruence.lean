import Mathlib.Data.List.Forall2
import ParserKit.Proofs.GrammarInduction

/-!
# Congruences of runs

Every combinator is built with `Run.andThen`. So a relation between runs that holds of each run and
itself and goes through `andThen` (`Run.Congruence`) goes through every combinator as well, and
through every grammar: two parsers put together in the same way are related if their parts are. None
of them leaves the text, so one text is enough.

## Key results

- `sequenceFrom_congr`, `choiceFrom_congr`, `taggedFrom_congr`, `manyFrom_congr`: every loop is
  related if its parts are
- `Grammar.parser_congr`: a grammar does related things if its rules do
-/

namespace ParserKit

variable {α β γ ι κ : Type}

/-- A relation between runs of the same type that goes through all combinators. -/
structure Run.Congruence (S : (β : Type) → Run β → Run β → Prop) : Prop where
  /-- Every run is related to itself. -/
  refl {β : Type} (r : Run β) : S β r r
  /-- Going on from related runs in related ways gives related runs. -/
  andThen {β γ : Type} {r r' : Run β} {k k' : β → Run γ} :
    S β r r' → (∀ b, S γ (k b) (k' b)) → S γ (r.andThen k) (r'.andThen k')

variable {S : (β : Type) → Run β → Run β → Prop}

namespace Run

/-- To convert the answer is to go on with an answer that was given at once. -/
theorem map_eq_andThen (f : β → γ) (r : Run β) : r.map f = r.andThen fun b => answer (f b) := by
  obtain ⟨trace, ending⟩ := r
  cases ending with
  | error stop => rfl
  | ok b =>
    -- an answer leaves no trace
    cases trace <;> rfl

/-- An event before a run is a run of its own that is gone on from. -/
theorem after_eq_andThen (e : Event) (r : Run β) :
    r.after e = (⟨.single e, .ok ()⟩ : Run Unit).andThen fun _ => r := rfl

namespace Congruence

variable {r r' : Run β}

/-- Converted answers of related runs are related. -/
theorem map (hS : Congruence S) (h : S β r r') (f : β → γ) : S γ (r.map f) (r'.map f) := by
  rw [map_eq_andThen, map_eq_andThen]
  exact hS.andThen h fun b => hS.refl _

/-- Related runs after the same event are related. -/
theorem after (hS : Congruence S) (h : S β r r') (e : Event) : S β (r.after e) (r'.after e) := by
  rw [after_eq_andThen, after_eq_andThen]
  exact hS.andThen (hS.refl _) fun _ => h

end Congruence

end Run

namespace Parser

/-- At every offset of `input`, what `p` and `q` do is related. -/
def Related (S : (β : Type) → Run β → Run β → Prop) (input : String) (p q : Parser α) : Prop :=
  ∀ o, S _ (p ⟨input, o⟩) (q ⟨input, o⟩)

variable {input : String}

/-- Every parser is related to itself. -/
theorem Related.refl (hS : Run.Congruence S) (p : Parser α) : Related S input p p :=
  fun _ => hS.refl _

/-! ## Combinators -/

section

variable {ps qs : List (Parser α)}

/-- Sequences are related if their parts are, pair by pair. -/
theorem sequenceFrom_congr (hS : Run.Congruence S) (h : List.Forall₂ (Related S input) ps qs)
    (start o : Offset) :
    S _ (sequenceFrom start ps ⟨input, o⟩) (sequenceFrom start qs ⟨input, o⟩) := by
  -- both go on at the end of the same match
  induction h generalizing o with
  | nil => exact hS.refl _
  | cons hp _ ih =>
    simp only [sequenceFrom]
    apply hS.andThen (hp o)
    rintro (⟨v, s⟩ | f)
    · exact hS.map (ih s.stop) _
    · exact hS.refl _

/-- Choices are related if their branches are, pair by pair. -/
theorem choiceFrom_congr (hS : Run.Congruence S) (h : List.Forall₂ (Related S input) ps qs)
    (o furthest : Offset) :
    S _ (choiceFrom ⟨input, o⟩ furthest ps) (choiceFrom ⟨input, o⟩ furthest qs) := by
  induction h generalizing furthest with
  | nil => exact hS.refl _
  | cons hp _ ih =>
    simp only [choiceFrom]
    apply hS.andThen (hp o)
    rintro (⟨v, s⟩ | f)
    · exact hS.refl _
    · exact ih _

/-- The same for choices from their start. -/
theorem choice_congr (hS : Run.Congruence S) (h : List.Forall₂ (Related S input) ps qs) :
    Related S input (choice ps) (choice qs) := by
  intro o
  rw [choice_eq_choiceFrom, choice_eq_choiceFrom]
  exact choiceFrom_congr hS h o Offset.zero

/-- The types of the alternatives are those of the list, however many parsers there are. -/
private theorem map_fst_zip_congr {R : Parser α → Parser α → Prop} (h : List.Forall₂ R ps qs)
    (types : List String) : (types.zip ps).map (·.1) = (types.zip qs).map (·.1) := by
  induction h generalizing types with
  | nil => rfl
  | cons _ _ ih =>
    cases types with
    | nil => rfl
    | cons t types => simp [ih types]

/-- Tagged choices are related if their branches are, pair by pair, under the same types. -/
theorem taggedFrom_congr (hS : Run.Congruence S) (h : List.Forall₂ (Related S input) ps qs)
    (types : List String) (o furthest : Offset) :
    S _ (taggedFrom ⟨input, o⟩ furthest (types.zip ps))
      (taggedFrom ⟨input, o⟩ furthest (types.zip qs)) := by
  -- the branches and their types are taken off together
  induction h generalizing types furthest with
  | nil => exact hS.refl _
  | cons hp htail ih =>
    cases types with
    | nil => exact hS.refl _
    | cons t types =>
      simp only [List.zip_cons_cons, taggedFrom]
      apply hS.andThen (hp o)
      rintro (⟨v, s⟩ | f)
      · -- the types that are left do not depend on the parsers
        simp only [map_fst_zip_congr htail types]
        exact hS.refl _
      · exact hS.map (ih types _) _

end

variable {p q : Parser α}

/-- Repetitions are related if their items are. -/
theorem manyFrom_congr (hS : Run.Congruence S) (h : Related S input p q) (start o : Offset) :
    S _ (manyFrom p start ⟨input, o⟩) (manyFrom q start ⟨input, o⟩) := by
  induction o using Offset.forward_induction with
  | further o ih =>
    rw [manyFrom, manyFrom]
    apply hS.andThen (h o)
    rintro (⟨v, s⟩ | f)
    · dsimp only
      -- only a match that leads further is followed by another round
      split
      · rename_i hmoves
        exact hS.map (ih s.stop hmoves) _
      · exact hS.refl _
    · exact hS.refl _

/-- Conversions with an event are related if their parts are. -/
theorem mapped_congr (hS : Run.Congruence S) (h : Related S input p q) (f : α → β) :
    Related S input (mapped f p) (mapped f q) := fun o => hS.andThen (h o) fun _ => hS.refl _

/-- Rules of one name and action are related if their bodies are. -/
theorem named_congr (hS : Run.Congruence S) (h : Related S input p q) (name : String)
    (action : α → β) : Related S input (named name action p) (named name action q) := fun o =>
  hS.after (hS.andThen (h o) fun _ => hS.refl _) _

/-- Watched under one label, related parsers are related. -/
theorem watched_congr (hS : Run.Congruence S) (h : Related S input p q) (label : String) :
    Related S input (watched label p) (watched label q) := fun o => hS.after (h o) _

end Parser

/-! ## Grammars -/

/-- A grammar does related things if what it does with rules is related. -/
theorem Grammar.parser_congr {input : String} (hS : Run.Congruence S)
    {call call' : ι → Parser (Value κ)} (h : ∀ i, Parser.Related S input (call i) (call' i))
    (g : Grammar ι κ) : Parser.Related S input (g.parser call) (g.parser call') := by
  induction g using Grammar.structural_induction with
  | node g ih =>
    -- the parts of the node, once with each meaning of the rules
    have hchildren : List.Forall₂ (Parser.Related S input) (g.children.map (parser call))
        (g.children.map (parser call')) := by
      rw [List.forall₂_map_left_iff, List.forall₂_map_right_iff]
      exact List.forall₂_same.2 ih
    cases g with
    | endOfInput | symbol | range | word | custom => exact .refl hS _
    | sequence items =>
      simp only [parser, parsers_eq_map]
      exact fun o => hS.map (Parser.sequenceFrom_congr hS hchildren o o) _
    | either branches =>
      simp only [parser, parsers_eq_map]
      exact Parser.choice_congr hS hchildren
    | oneOf form types branches =>
      simp only [parser, parsers_eq_map]
      exact fun o => hS.map (Parser.taggedFrom_congr hS hchildren types o o) _
    | many item =>
      have hitem := ih item (List.mem_singleton_self item)
      exact fun o => hS.map (Parser.manyFrom_congr hS hitem o o) _
    | map f inner => exact Parser.mapped_congr hS (ih inner (List.mem_singleton_self inner)) f
    | rule i => exact h i
    | watch label inner =>
      exact Parser.watched_congr hS (ih inner (List.mem_singleton_self inner)) label

end ParserKit
