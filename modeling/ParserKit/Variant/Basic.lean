import ParserKit.Text.Shape
import ParserKit.Variant.Chain

/-!
# Variants

A variant is a value of one of several alternatives together with the tag that says which. The
tag and the storage always agree, so whatever walks down the chain by the tag finds the value
(`storage_get?`). A variant can be built at its tag at once (`inject`) or from the inside out
(`ofHead`, `ofTail`), and taken apart from the outside in (`split`).
-/

namespace ParserKit

/-- One of the alternatives `types`, by its tag, with its value. -/
structure Variant (α : Type) where
  types : List String
  tag : Nat
  storage : Chain α
  depth_eq : storage.depth = tag
  tag_lt : tag < types.length
deriving DecidableEq

namespace Variant

variable {α β : Type}

/-- The value `v` as alternative `k`. -/
def inject (types : List String) (k : Nat) (v : α) (h : k < types.length) : Variant α :=
  ⟨types, k, Chain.inject k v, Chain.depth_inject k v, h⟩

/-- The value `v` as the first of the alternatives `t :: others`. -/
def ofHead (t : String) (others : List String) (v : α) : Variant α :=
  ⟨t :: others, 0, .head v, rfl, Nat.succ_pos _⟩

/-- The same value with the alternative `t` put before all others. -/
def ofTail (t : String) (rest : Variant α) : Variant α :=
  ⟨t :: rest.types, rest.tag + 1, .tail rest.storage, by rw [← rest.depth_eq]; rfl,
    Nat.succ_lt_succ rest.tag_lt⟩

/-- Puts a variant together from a tag and a storage. A tag that no alternative has is a fault;
    a storage that holds another alternative makes no variant. -/
def ofParts (types : List String) (tag : Nat) (storage : Chain α) :
    Except Fault (Option (Variant α)) :=
  if ht : tag < types.length then
    if hd : storage.depth = tag then .ok (some ⟨types, tag, storage, hd, ht⟩) else .ok none
  else .error .tagUnknown

/-- The number of alternatives. -/
def size (v : Variant α) : Nat := v.types.length

/-- The type of alternative `k` of `types`. -/
def typeAt (types : List String) (k : Nat) : Except AccessError String :=
  match types[k]? with
  | some t => .ok t
  | none => .error (.tagOutOfRange k types.length)

/-- The type of the value. -/
def typeName (v : Variant α) : String := v.types[v.tag]?.getD "?"

/-- Whether alternative `k` is the active one. -/
def holds (v : Variant α) (k : Nat) : Bool := v.tag == k

/-- The value, if alternative `k` is the active one. -/
def get (v : Variant α) (k : Nat) : Option α := if v.holds k then v.storage.get? k else none

/-- The value, or which alternative is active instead of `k`. -/
def tryGet (v : Variant α) (k : Nat) : Except AccessError α :=
  match v.get k with
  | some x => .ok x
  | none => .error (.wrongAlternative k v.tag)

/-- Overwrites the value if alternative `k` is active: the old value, and the variant with the new
    one. -/
def set (v : Variant α) (k : Nat) (x : α) : Except AccessError (α × Variant α) :=
  if v.holds k then
    match h : v.storage.set? k x with
    | some (old, storage) =>
      .ok (old, ⟨v.types, v.tag, storage, (Chain.depth_of_set? h).trans v.depth_eq, v.tag_lt⟩)
    | none => .error (.wrongAlternative k v.tag)
  else .error (.wrongAlternative k v.tag)

/-- The value out of the variant if alternative `k` is active, else the variant back. -/
def take (v : Variant α) (k : Nat) : Except (Variant α) α :=
  match v.get k with
  | some x => .ok x
  | none => .error v

/-- The storage of a variant holds its value at the tag. -/
theorem storage_get? (v : Variant α) : v.storage.get? v.tag = some v.storage.payload := by
  rw [← v.depth_eq, Chain.get?_depth]

@[simp] theorem get_tag (v : Variant α) : v.get v.tag = some v.storage.payload := by
  simp [get, holds, v.storage_get?]

/-- Nothing is read at another alternative than the active one. -/
theorem get_of_ne {v : Variant α} {k : Nat} (h : k ≠ v.tag) : v.get k = none := by
  simp [get, holds, h.symm]

/-- Nothing is set at another alternative than the active one. -/
theorem set_of_ne {v : Variant α} {k : Nat} (h : k ≠ v.tag) (x : α) :
    v.set k x = .error (.wrongAlternative k v.tag) := by
  simp [set, holds, h.symm]

/-- At the active alternative the value is exchanged, and the old one comes back. -/
theorem set_tag (v : Variant α) (x : α) :
    v.set v.tag x = .ok (v.storage.payload, inject v.types v.tag x v.tag_lt) := by
  have hset : v.storage.set? v.tag x = some (v.storage.payload, Chain.inject v.tag x) := by
    rw [← v.depth_eq, Chain.set?_depth]
  have hholds : v.holds v.tag = true := beq_self_eq_true v.tag
  unfold set
  rw [if_pos hholds]
  split
  · rename_i old storage h
    obtain ⟨rfl, rfl⟩ : v.storage.payload = old ∧ Chain.inject v.tag x = storage := by
      simpa [hset] using h
    rfl
  · rename_i h
    rw [hset] at h
    cases h

/-- The value, whichever alternative it is, brought to a common type. -/
def unify (convert : Nat → α → β) (v : Variant α) : β :=
  (v.storage.unifyAt convert v.tag).get (by rw [← v.depth_eq, Chain.unifyAt_depth]; rfl)

/-- To unify without a conversion is to take the value. -/
theorem unify_eq_payload (v : Variant α) : (v.unify fun _ x => x) = v.storage.payload := by
  simp only [unify, ← v.depth_eq, Chain.unifyAt_depth, Option.get_some]

/-- Splits the first alternative off: its value if that is the active one, else the same value
    among the other alternatives. -/
def split : Variant α → Except (Variant α) α
  | ⟨_, _, .head x, _, _⟩ => .ok x
  | ⟨types, tag, .tail rest, h, h'⟩ =>
    .error ⟨types.tail, tag - 1, rest, by rw [← h]; rfl, by
      have : tag = rest.depth + 1 := h.symm
      rw [List.length_tail]
      omega⟩

/-- Each split lowers the tag. -/
theorem tag_of_split_error {v rest : Variant α} (h : v.split = .error rest) :
    rest.tag < v.tag := by
  obtain ⟨types, tag, storage, hd, ht⟩ := v
  cases storage with
  | head x => simp [split] at h
  | tail r =>
    simp only [split, Except.error.injEq] at h
    subst h
    have : tag = r.depth + 1 := hd.symm
    dsimp only
    omega

/-- The value, whichever alternative it is, found by splitting alternatives off one by one. -/
def peel (convert : Nat → α → β) (v : Variant α) : β :=
  match h : v.split with
  | .ok x => convert 0 x
  | .error rest =>
    have := tag_of_split_error h
    rest.peel fun i => convert (i + 1)
termination_by v.tag

/-- Peeling uses the conversion of the active alternative. -/
theorem peel_eq (convert : Nat → α → β) (v : Variant α) :
    v.peel convert = convert v.tag v.storage.payload := by
  obtain ⟨types, tag, storage, rfl, hlt⟩ := v
  induction storage generalizing types convert with
  | head x => rw [peel]; rfl
  | tail rest ih => rw [peel]; exact ih _ _ _

/-- A variant of the same alternative that holds a copy of the value. -/
def clone (copy : α → β) (v : Variant α) : Variant β :=
  match h : v.storage.cloneAt copy v.tag with
  | some storage => ⟨v.types, v.tag, storage, by
      rw [← v.depth_eq, Chain.cloneAt_depth, Option.some.injEq] at h
      rw [← h, Chain.depth_inject, v.depth_eq], v.tag_lt⟩
  | none => absurd h (by rw [← v.depth_eq, Chain.cloneAt_depth]; exact nofun)

/-- Overwrites the value if alternative `k` is active, as through a reference to it. -/
def edit (v : Variant α) (k : Nat) (x : α) : Option (α × Variant α) := (v.set k x).toOption

/-- The structure of the variant, with that of its value. -/
def shape (describe : α → Text.Shape) (v : Variant α) : Text.Shape :=
  .record "Variant" [.field "tag" (.atom (toString v.tag)),
    .field "value" ((v.storage.describeAt describe v.tag).getD (.tuple "" []))]

/-- Whether both variants hold the same alternative, with values that are the same. -/
def sameAs (same : α → α → Bool) (v w : Variant α) : Bool :=
  v.tag == w.tag && v.storage.eqAt same v.tag w.storage

end Variant

end ParserKit
