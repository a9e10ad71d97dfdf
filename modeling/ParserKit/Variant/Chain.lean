import ParserKit.Fault

/-!
# Chains

The storage of a variant: a value under as many `tail` steps as there are alternatives before its
own. A chain does not say which alternative it holds; who keeps it keeps that number, the tag,
beside it. Each operation here walks down the chain by a tag of its own, and answers nothing when
the chain holds another alternative. Main statements: with the depth of the chain as the tag every
one of them comes to the stored value (`get?_depth` and its companions).
-/

namespace ParserKit

/-- A value at some depth. -/
inductive Chain (α : Type) where
  | head (value : α)
  | tail (rest : Chain α)
deriving DecidableEq, Repr

namespace Chain

variable {α β : Type}

/-- The number of the alternative that is stored. -/
def depth : Chain α → Nat
  | head _ => 0
  | tail rest => rest.depth + 1

/-- The stored value. -/
def payload : Chain α → α
  | head v => v
  | tail rest => rest.payload

/-- Stores `v` as alternative `k`. -/
def inject : Nat → α → Chain α
  | 0, v => head v
  | k + 1, v => tail (inject k v)

/-- The value of alternative `k`. -/
def get? : Nat → Chain α → Option α
  | 0, head v => some v
  | k + 1, tail rest => rest.get? k
  | _, _ => none

/-- Puts `v` in the place of the value of alternative `k`; the value that was there comes back. -/
def set? : Nat → α → Chain α → Option (α × Chain α)
  | 0, v, head old => some (old, head v)
  | k + 1, v, tail rest => (rest.set? k v).map fun (old, new) => (old, tail new)
  | _, _, _ => none

/-- A chain that holds a copy of the value of alternative `k`. -/
def cloneAt (copy : α → β) : Nat → Chain α → Option (Chain β)
  | 0, head v => some (head (copy v))
  | k + 1, tail rest => (rest.cloneAt copy k).map tail
  | _, _ => none

/-- Whether both chains hold alternative `k`, with values that are the same. -/
def eqAt (same : α → α → Bool) : Nat → Chain α → Chain α → Bool
  | 0, head v, head w => same v w
  | k + 1, tail s, tail t => s.eqAt same k t
  | _, _, _ => false

/-- What `describe` says of the value of alternative `k`. -/
def describeAt (describe : α → β) : Nat → Chain α → Option β
  | 0, head v => some (describe v)
  | k + 1, tail rest => rest.describeAt describe k
  | _, _ => none

/-- The value of alternative `k`, brought to a common type by the conversion of that alternative;
    `convert` numbers the conversions from the head of this chain on. -/
def unifyAt (convert : Nat → α → β) : Nat → Chain α → Option β
  | 0, head v => some (convert 0 v)
  | k + 1, tail rest => rest.unifyAt (fun i => convert (i + 1)) k
  | _, _ => none

/-- Takes the value of alternative `k` out to be destroyed as the type that `types` has there. A
    tag without an alternative is a fault; an alternative that is not stored is left alone. -/
def destroyAt (types : List String) (k : Nat) (c : Chain α) : Except Fault (Option (String × α)) :=
  if k < types.length then .ok (destroyWithin types k c)
  else .error (.tagOutOfRange k types.length)
where
  /-- The walk of `destroyAt`, below a tag that is in range. -/
  destroyWithin : List String → Nat → Chain α → Option (String × α)
    | t :: _, 0, head v => some (t, v)
    | _ :: types, k + 1, tail rest => destroyWithin types k rest
    | _, _, _ => none

/-! ## Reading at the depth -/

@[simp] theorem depth_inject (k : Nat) (v : α) : (inject k v).depth = k := by
  induction k with
  | zero => rfl
  | succ k ih => simp [inject, depth, ih]

@[simp] theorem payload_inject (k : Nat) (v : α) : (inject k v).payload = v := by
  induction k with
  | zero => rfl
  | succ k ih => simp [inject, payload, ih]

/-- A chain is its value stored at its depth. -/
theorem inject_depth_payload (c : Chain α) : inject c.depth c.payload = c := by
  induction c with
  | head v => rfl
  | tail rest ih => simp [depth, payload, inject, ih]

/-- The value is found at the depth. -/
@[simp] theorem get?_depth (c : Chain α) : c.get? c.depth = some c.payload := by
  induction c with
  | head v => rfl
  | tail rest ih => simpa [depth, payload, get?] using ih

/-- At the depth, the conversion of that alternative is used. -/
@[simp] theorem unifyAt_depth (convert : Nat → α → β) (c : Chain α) :
    c.unifyAt convert c.depth = some (convert c.depth c.payload) := by
  induction c generalizing convert with
  | head v => rfl
  | tail rest ih => simpa [depth, payload, unifyAt] using ih _

/-- At the depth, the value is copied. -/
@[simp] theorem cloneAt_depth (copy : α → β) (c : Chain α) :
    c.cloneAt copy c.depth = some (inject c.depth (copy c.payload)) := by
  induction c with
  | head v => rfl
  | tail rest ih => simp [depth, payload, inject, cloneAt, ih]

/-- At the depth, the value is exchanged. -/
@[simp] theorem set?_depth (c : Chain α) (v : α) :
    c.set? c.depth v = some (c.payload, inject c.depth v) := by
  induction c with
  | head w => rfl
  | tail rest ih => simp [depth, payload, inject, set?, ih]

/-- A chain is destroyed at its depth by destroying the stored value as the type that stands
    there. -/
theorem destroyAt_depth {types : List String} {t : String} (c : Chain α)
    (h : types[c.depth]? = some t) :
    c.destroyAt types c.depth = .ok (some (t, c.payload)) := by
  have hlt : c.depth < types.length := (List.getElem?_eq_some_iff.1 h).1
  -- the types are taken off along the chain
  have hwithin : destroyAt.destroyWithin types c.depth c = some (t, c.payload) := by
    clear hlt
    induction c generalizing types with
    | head v =>
      cases types with
      | nil => cases h
      | cons u types => cases h; rfl
    | tail rest ih =>
      cases types with
      | nil => cases h
      | cons u types => exact ih h
  rw [destroyAt, if_pos hlt, hwithin]

/-- Exchanging a value does not move it. -/
theorem depth_of_set? {k : Nat} {v old : α} {c new : Chain α}
    (h : c.set? k v = some (old, new)) : new.depth = c.depth := by
  induction c generalizing k new with
  | head w => cases k <;> simp_all [set?, depth, eq_comm]
  | tail rest ih =>
    cases k with
    | zero => simp [set?] at h
    | succ k =>
      simp only [set?, Option.map_eq_some_iff, Prod.mk.injEq] at h
      obtain ⟨⟨o, n⟩, hs, rfl, rfl⟩ := h
      simp [depth, ih hs]

end Chain

end ParserKit
