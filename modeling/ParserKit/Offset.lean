/-!
# Offsets

Positions in a text are byte offsets into its UTF-8 form, and every count the library keeps is of
the same width: a number below `2 ^ 64`. Arithmetic on offsets never wraps: `Offset.add?` answers
`none` where the sum does not fit. As there is a last offset, what holds of an offset whenever it
holds of all further on holds of every offset (`Offset.forward_induction`).
-/

namespace ParserKit

/-- A byte offset or a count, below `2 ^ 64`. -/
abbrev Offset := Fin 0x10000000000000000

/-- The start of a text, and the count of nothing. -/
def Offset.zero : Offset := ⟨0, by decide⟩

/-- The largest offset. -/
def Offset.last : Offset := ⟨0xffffffffffffffff, by decide⟩

/-- `a + n`, where that is an offset. -/
def Offset.add? (a : Offset) (n : Nat) : Option Offset :=
  if h : a.val + n < 0x10000000000000000 then some ⟨a.val + n, h⟩ else none

/-- The earlier of two offsets. -/
protected def Offset.min (a b : Offset) : Offset := if a.val ≤ b.val then a else b

/-- The later of two offsets. -/
protected def Offset.max (a b : Offset) : Offset := if a.val ≤ b.val then b else a

@[simp] theorem Offset.val_min (a b : Offset) : (Offset.min a b).val = min a.val b.val := by
  unfold Offset.min
  split <;> omega

@[simp] theorem Offset.val_max (a b : Offset) : (Offset.max a b).val = max a.val b.val := by
  unfold Offset.max
  split <;> omega

/-- A sum is answered exactly if it is an offset. -/
theorem Offset.add?_eq_some {a b : Offset} {n : Nat} :
    Offset.add? a n = some b ↔ b.val = a.val + n := by
  unfold Offset.add?
  split
  · simp [Fin.ext_iff, eq_comm]
  · have := b.isLt
    simp
    omega

/-- There is no sum exactly if it is too large for an offset. -/
theorem Offset.add?_eq_none {a : Offset} {n : Nat} :
    Offset.add? a n = none ↔ 0x10000000000000000 ≤ a.val + n := by
  unfold Offset.add?
  split <;> simp <;> omega

/-- To prove something of every offset, prove it of one from the same of all that are further on. -/
@[elab_as_elim]
theorem Offset.forward_induction {motive : Offset → Prop}
    (further : ∀ o : Offset, (∀ p : Offset, o.val < p.val → motive p) → motive o) (o : Offset) :
    motive o := by
  -- what is further on leaves less of the offsets
  induction hn : 0x10000000000000000 - o.val using Nat.strongRecOn generalizing o with
  | _ n ih =>
    refine further o fun p hp => ih _ ?_ p rfl
    have hlt := p.isLt
    omega

end ParserKit
