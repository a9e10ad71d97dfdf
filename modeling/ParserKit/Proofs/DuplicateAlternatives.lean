import Mathlib.Data.List.Nodup
import ParserKit.Alternatives

/-!
# Duplicates among alternatives

`Alternatives.firstDuplicate?` finds a pair of positions that hold the same type exactly when there
is one, and `Alternatives.distinct` refuses exactly the lists with such a pair. Which pair it is
among several, `Alternatives.IsFirstDuplicate` says without a search: by the smallest second
position, then by the smallest first one.

## Key results

- `firstDuplicate?_eq_some_iff`: the pair that is found is the first duplicate
- `firstDuplicate?_eq_none_iff`: no pair is found if and only if no type occurs twice
- `distinct_eq_ok_iff` / `distinct_eq_error_iff`: a list passes if and only if no type occurs
  twice, and a refusal names the first duplicate and its type
-/

namespace ParserKit.Alternatives

variable {τ : Type} {types : List τ} {i j : Nat} {t : τ}

/-! ## The first duplicate -/

/-- The positions `i` and `j` both hold `t`, no pair of positions that hold one type ends before
    `j`, and none that ends at `j` begins before `i`. -/
structure IsFirstDuplicate (types : List τ) (i j : Nat) (t : τ) : Prop where
  lt : i < j
  first : types[i]? = some t
  second : types[j]? = some t
  second_le : ∀ {k l : Nat} {u : τ}, k < l → types[k]? = some u → types[l]? = some u → j ≤ l
  first_le : ∀ {k : Nat}, k < j → types[k]? = some t → i ≤ k

namespace IsFirstDuplicate

/-- The second position is one of the list. -/
theorem lt_length (h : IsFirstDuplicate types i j t) : j < types.length :=
  (List.getElem?_eq_some_iff.1 h.second).1

/-- Before the second position, the type stands at the first position alone. -/
theorem eq_first (h : IsFirstDuplicate types i j t) {k : Nat} (hk : k < j)
    (ht : types[k]? = some t) : k = i := by
  rcases Nat.lt_or_eq_of_le (h.first_le hk ht) with hlt | rfl
  · -- `i` and `k` would be a pair that ends before `j`
    exact absurd (h.second_le hlt h.first ht) (Nat.not_le.2 hk)
  · rfl

/-- The types before the second position are pairwise distinct. -/
theorem nodup_take (h : IsFirstDuplicate types i j t) : (types.take j).Nodup := by
  rw [List.nodup_iff_getElem?_ne_getElem?]
  intro k l hkl hl hsame
  have hlj : l < j := Nat.lt_of_lt_of_le hl (List.length_take_le _ _)
  have hlt : l < types.length := Nat.lt_trans hlj h.lt_length
  rw [List.getElem?_take_of_lt (Nat.lt_trans hkl hlj), List.getElem?_take_of_lt hlj,
    List.getElem?_eq_getElem hlt] at hsame
  -- a pair among them would end before `j`
  have hle : j ≤ l := h.second_le hkl hsame (List.getElem?_eq_getElem hlt)
  omega

end IsFirstDuplicate

/-! ## The search -/

variable [DecidableEq τ]

/-- The first position before `j` that holds the same as `j`. -/
theorem earlier?_eq_some_iff :
    earlier? types j = some i ↔
      i < j ∧ types[i]? = types[j]? ∧ ∀ k < i, types[k]? ≠ types[j]? := by
  simp only [earlier?, List.find?_range_eq_some, decide_eq_true_eq, List.mem_range,
    Bool.not_eq_true', decide_eq_false_iff_not]
  exact and_left_comm

/-- There is none if `j` holds something new. -/
theorem earlier?_eq_none_iff : earlier? types j = none ↔ ∀ i < j, types[i]? ≠ types[j]? := by
  simp [earlier?]

/-- Searching the numbers below `n` in order answers with the smallest that has an answer. -/
private theorem findSome?_range_eq_some_iff {β : Type} {f : Nat → Option β} {n : Nat} {b : β} :
    (List.range n).findSome? f = some b ↔ ∃ j < n, f j = some b ∧ ∀ k < j, f k = none := by
  -- one number more is searched last, after none of those before had an answer
  induction n with
  | zero => simp
  | succ n ih =>
    rw [List.range_succ, List.findSome?_append, Option.or_eq_some_iff, ih]
    simp only [List.findSome?_eq_none_iff, List.mem_range, List.findSome?_singleton]
    constructor
    · rintro (⟨j, hj, hfound⟩ | ⟨hnone, hn⟩)
      · exact ⟨j, Nat.lt_succ_of_lt hj, hfound⟩
      · exact ⟨n, Nat.lt_succ_self n, hn, hnone⟩
    · rintro ⟨j, hj, hb, hnone⟩
      -- the answer comes from the number that is new, or from one of those before
      rcases Nat.lt_succ_iff_lt_or_eq.1 hj with hlt | rfl
      · exact .inl ⟨j, hlt, hb, hnone⟩
      · exact .inr ⟨hnone, hb⟩

/-- The search stops at the first position that repeats an earlier one. -/
private theorem firstDuplicate?_eq_some_iff_earlier? :
    firstDuplicate? types = some (i, j) ↔
      j < types.length ∧ earlier? types j = some i ∧ ∀ k < j, earlier? types k = none := by
  rw [firstDuplicate?, findSome?_range_eq_some_iff]
  simp only [Option.map_eq_some_iff, Option.map_eq_none_iff, Prod.mk.injEq]
  constructor
  · rintro ⟨second, hlt, ⟨first, hfirst, rfl, rfl⟩, hbefore⟩
    exact ⟨hlt, hfirst, hbefore⟩
  · rintro ⟨hlt, hfirst, hbefore⟩
    exact ⟨j, hlt, ⟨i, hfirst, rfl, rfl⟩, hbefore⟩

/-- The pair that is found is the one whose later position is smallest and, among those, whose
    earlier position is. -/
theorem firstDuplicate?_eq_some_iff :
    firstDuplicate? types = some (i, j) ↔ ∃ t, IsFirstDuplicate types i j t := by
  rw [firstDuplicate?_eq_some_iff_earlier?, earlier?_eq_some_iff]
  simp only [earlier?_eq_none_iff]
  -- the type of the pair is the one at its second position
  constructor
  · rintro ⟨hlt, ⟨hij, hsame, hearliest⟩, hbefore⟩
    have hsecond : types[j]? = some types[j] := List.getElem?_eq_getElem hlt
    refine ⟨types[j], hij, hsame.trans hsecond, hsecond, fun {k l u} hkl hk hl => ?_,
      fun {k} _ hk => ?_⟩
    · by_contra hjl
      exact hbefore l (Nat.not_le.1 hjl) k hkl (hk.trans hl.symm)
    · by_contra hik
      exact hearliest k (Nat.not_le.1 hik) (hk.trans hsecond.symm)
  · rintro ⟨t, h⟩
    refine ⟨h.lt_length, ⟨h.lt, h.first.trans h.second.symm, fun k hk hsame => ?_⟩,
      fun l hl k hkl hsame => ?_⟩
    · exact Nat.not_le.2 hk (h.first_le (Nat.lt_trans hk h.lt) (hsame.trans h.second))
    · -- both positions are in range, so that they hold a type and not nothing
      have hlt : l < types.length := Nat.lt_trans hl h.lt_length
      have hrange : types[l]? = some types[l] := List.getElem?_eq_getElem hlt
      exact Nat.not_le.2 hl (h.second_le hkl (hsame.trans hrange) hrange)

/-- Nothing is found exactly if the types are pairwise distinct. -/
theorem firstDuplicate?_eq_none_iff : firstDuplicate? types = none ↔ types.Nodup := by
  rw [List.nodup_iff_getElem?_ne_getElem?, firstDuplicate?, List.findSome?_eq_none_iff]
  simp only [List.mem_range, Option.map_eq_none_iff, earlier?_eq_none_iff]
  exact ⟨fun h i j hij hj => h j hj i hij, fun h j hj i hij => h i j hij hj⟩

/-- A list in which a type occurs twice has a first duplicate. -/
theorem exists_isFirstDuplicate (h : ¬ types.Nodup) : ∃ i j t, IsFirstDuplicate types i j t := by
  rw [← firstDuplicate?_eq_none_iff, ← ne_eq, Option.ne_none_iff_exists'] at h
  obtain ⟨⟨i, j⟩, hpair⟩ := h
  exact ⟨i, j, firstDuplicate?_eq_some_iff.1 hpair⟩

/-! ## What a refusal names -/

section Named

variable [ToString τ] {d : Duplicate}

/-- The types are accepted exactly if they are pairwise distinct. -/
theorem distinct_eq_ok_iff : distinct types = .ok () ↔ types.Nodup := by
  rw [← firstDuplicate?_eq_none_iff, distinct]
  split <;> simp_all

/-- A refusal names the first duplicate and its type. -/
theorem distinct_eq_error_iff :
    distinct types = .error d ↔
      ∃ t, IsFirstDuplicate types d.first d.second t ∧ toString t = d.typeName := by
  -- the name of the type is looked up where the pair begins
  constructor
  · intro h
    rw [distinct] at h
    split at h
    · cases h
    · rename_i first second hpair
      obtain ⟨t, hfirst⟩ := firstDuplicate?_eq_some_iff.1 hpair
      cases h
      exact ⟨t, hfirst, by rw [hfirst.first]; rfl⟩
  · rintro ⟨t, hfirst, hname⟩
    rw [distinct, firstDuplicate?_eq_some_iff.2 ⟨t, hfirst⟩]
    simp only [hfirst.first, Option.map_some, Option.getD_some, hname]

end Named

/-- A refusal names two positions, the first before the second, and the type at both. -/
theorem distinct_eq_error {types : List String} {d : Duplicate} (h : distinct types = .error d) :
    d.first < d.second ∧ types[d.first]? = some d.typeName ∧
      types[d.second]? = some d.typeName := by
  obtain ⟨t, hfirst, hname⟩ := distinct_eq_error_iff.1 h
  obtain rfl : t = d.typeName := hname
  exact ⟨hfirst.lt, hfirst.first, hfirst.second⟩

end ParserKit.Alternatives
