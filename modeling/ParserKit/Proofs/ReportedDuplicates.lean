import ParserKit.Proofs.CheckCorrect

/-!
# The pair that a tagged choice is refused for

A tagged choice whose types repeat is refused before its branches are looked at. The refusal names
the first duplicate of its types (`Alternatives.IsFirstDuplicate`), whatever else repeats among
them, wherever the check began and whichever rules it has entered by then. A tagged choice whose
types are distinct is refused for its branches only.

## Key results

- `check_oneOf_of_isFirstDuplicate`: the report on a tagged choice whose types repeat
- `check_oneOf_of_nodup`: with distinct types the check goes on with the branches
- `reports_first_duplicate`: the search, the test of a list and the check of a grammar agree on
  the pair
-/

namespace ParserKit

variable {ι κ : Type} {form : Form} {types : List String} {branches : List (Grammar ι κ)}
  {i j : Nat} {t : String}

/-- A tagged choice in which a type is repeated has the first duplicate as its flaw. -/
theorem Grammar.flaw?_oneOf_of_isFirstDuplicate
    (h : Alternatives.IsFirstDuplicate types i j t) :
    (Grammar.oneOf form types branches).flaw? = some (.duplicateAlternative ⟨i, j, t⟩) := by
  have hdistinct : Alternatives.distinct types = .error ⟨i, j, t⟩ :=
    Alternatives.distinct_eq_error_iff.2 ⟨t, h, rfl⟩
  simp only [flaw?, hdistinct]

namespace Rulebook

variable {book : Rulebook ι κ} {v : Visited}

/-! ## The check of one tagged choice -/

/-- Nothing is entered and no branch is looked at. -/
theorem check_oneOf_of_isFirstDuplicate (h : Alternatives.IsFirstDuplicate types i j t) :
    book.check v (.oneOf form types branches) =
      ⟨.error (.duplicateAlternative ⟨i, j, t⟩), v, [.duplicateMet ⟨i, j, t⟩]⟩ :=
  walk_flawed (Grammar.flaw?_oneOf_of_isFirstDuplicate h) []

/-- A tagged choice over distinct types is checked as its branches are. -/
theorem check_oneOf_of_nodup (h : types.Nodup) :
    book.check v (.oneOf form types branches) = book.walk v branches := by
  have hflaw : (Grammar.oneOf form types branches).flaw? = none := Grammar.flaw?_eq_none_iff.2 h
  have hrule : ∀ i, Grammar.oneOf form types branches ≠ .rule i := by simp
  rw [check, walk_node hflaw hrule, Grammar.children, List.append_nil]

/-! ## Agreement on the pair -/

/-- Take any number of alternatives, whose types are told apart in any way and shown by any names.
    No pair is found, and the list passes, exactly when the types are pairwise distinct. Otherwise
    the first duplicate is found: two positions in range that hold one type, such that no pair of
    positions that hold one type ends before it, and none that ends where it does begins before it.
    So the types before the second position are pairwise distinct, and the type at the second one
    is among them at the first one only. The list is refused with this pair and the name of the
    type.

    A tagged choice over types that are known by their names reports the same pair and name, from
    its check, whichever rules are entered before, and when it is to be accepted by itself. When
    its types are distinct, it is checked and accepted as its branches are. -/
theorem reports_first_duplicate :
    (∀ {τ : Type} [DecidableEq τ] [ToString τ] (types : List τ),
      (Alternatives.firstDuplicate? types = none ↔ types.Nodup) ∧
      (Alternatives.distinct types = .ok () ↔ types.Nodup) ∧
      (¬ types.Nodup → ∃ i j t, Alternatives.firstDuplicate? types = some (i, j) ∧
        Alternatives.IsFirstDuplicate types i j t ∧ j < types.length ∧
        (types.take j).Nodup ∧ (∀ k < j, types[k]? = some t ↔ k = i) ∧
        Alternatives.distinct types = .error ⟨i, j, toString t⟩)) ∧
    ∀ {ι κ : Type} (book : Rulebook ι κ) (form : Form) (types : List String)
      (branches : List (Grammar ι κ)),
      (types.Nodup →
        (∀ v, book.check v (.oneOf form types branches) = book.walk v branches) ∧
        book.accept (.oneOf form types branches) =
          (book.walk Visited.empty branches).ending.map fun _ => .oneOf form types branches) ∧
      (¬ types.Nodup → ∃ i j t, Alternatives.firstDuplicate? types = some (i, j) ∧
        Alternatives.IsFirstDuplicate types i j t ∧
        (∀ v, book.check v (.oneOf form types branches) =
          ⟨.error (.duplicateAlternative ⟨i, j, t⟩), v, [.duplicateMet ⟨i, j, t⟩]⟩) ∧
        book.accept (.oneOf form types branches) =
          .error (.duplicateAlternative ⟨i, j, t⟩)) := by
  refine ⟨fun types => ⟨Alternatives.firstDuplicate?_eq_none_iff, Alternatives.distinct_eq_ok_iff,
    fun hrepeats => ?_⟩, fun book form types branches => ⟨fun hnodup => ?_, fun hrepeats => ?_⟩⟩
  · obtain ⟨i, j, t, h⟩ := Alternatives.exists_isFirstDuplicate hrepeats
    -- where the type stands is known of the positions before the second one
    have honly : ∀ k < j, types[k]? = some t ↔ k = i := by
      intro k hk
      constructor
      · exact h.eq_first hk
      · rintro rfl
        exact h.first
    exact ⟨i, j, t, Alternatives.firstDuplicate?_eq_some_iff.2 ⟨t, h⟩, h, h.lt_length,
      h.nodup_take, honly, Alternatives.distinct_eq_error_iff.2 ⟨t, h, rfl⟩⟩
  · -- the choice itself has no flaw, so that any flaw found is one of its branches
    refine ⟨fun v => check_oneOf_of_nodup hnodup, ?_⟩
    rw [accept, check_oneOf_of_nodup hnodup]
  -- the check stops at the choice and comes to none of the branches
  · obtain ⟨i, j, t, h⟩ := Alternatives.exists_isFirstDuplicate hrepeats
    refine ⟨i, j, t, Alternatives.firstDuplicate?_eq_some_iff.2 ⟨t, h⟩, h,
      fun v => check_oneOf_of_isFirstDuplicate h, ?_⟩
    rw [accept, check_oneOf_of_isFirstDuplicate h]
    rfl

/-- Of two pairs, one within the other, the inner one is reported, for it ends first; the empty
    range in the last branch is not come to. -/
theorem reports_first_duplicate_inner :
    ¬ ["char", "&str", "&str", "char"].Nodup ∧
      (noRules : Rulebook Empty Unit).accept
        (.oneOf .tagged ["char", "&str", "&str", "char"]
          [.symbol 'a', .word "b", .word "c", .range 'z' 'a']) =
        .error (.duplicateAlternative ⟨1, 2, "&str"⟩) := by
  have hrepeats : ¬ ["char", "&str", "&str", "char"].Nodup := by decide
  obtain ⟨i, j, t, hpair, hfirst, -, haccept⟩ :=
    (reports_first_duplicate.2 (noRules : Rulebook Empty Unit) .tagged
      ["char", "&str", "&str", "char"]
      [.symbol 'a', .word "b", .word "c", .range 'z' 'a']).2 hrepeats
  have hfound : Alternatives.firstDuplicate? ["char", "&str", "&str", "char"] = some (1, 2) := by
    decide
  -- the pair is computed, and with it the type
  obtain ⟨rfl, rfl⟩ : 1 = i ∧ 2 = j := by
    simpa using hfound.symm.trans hpair
  obtain rfl : "&str" = t := Option.some.inj hfirst.first
  exact ⟨hrepeats, haccept⟩

end Rulebook

end ParserKit
