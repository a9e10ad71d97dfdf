import ParserKit.Variant.Ledger

/-!
# Workspaces

A workspace keeps variants in named slots, and the values that were taken out of them. New variants
have one list of alternatives; splitting the first alternative off for good, or putting one before
all others, leaves a variant with another list. Every operation accounts for the values it makes,
clones and destroys: a variant that loses its slot is dropped, a value that an operation refuses or
overwrites is destroyed, and a value that it hands out is held until it is given to another
operation, discarded or released.
-/

namespace ParserKit

/-- Variants in named slots, the values held outside of them, and the ledger of all values. -/
structure Workspace (α : Type) where
  types : List String
  slots : List (String × Variant (Owned α))
  held : List (Owned α)
  ledger : Ledger α

/-- Where the value that an operation is given comes from. -/
inductive Source (α : Type) where
  /-- It is made for the operation. -/
  | fresh (x : α)
  /-- It is the value at this place among those that are held. -/
  | held (i : Nat)
deriving DecidableEq, Repr

/-- A value that stands for a source is made. -/
instance {α : Type} : Coe α (Source α) := ⟨.fresh⟩

/-- An operation on the variants of a workspace. -/
inductive WorkspaceOp (α : Type) where
  /-- A new variant of alternative `k`. -/
  | create (slot : String) (k : Nat) (x : Source α)
  /-- A new variant of the first alternative. -/
  | createHead (slot : String) (x : Source α)
  /-- A new variant of alternative `k`, which is not the first, made among the others. -/
  | createTail (slot : String) (k : Nat) (x : Source α)
  /-- Looks at a variant. -/
  | inspect (slot : String)
  /-- Asks whether alternative `k` is active. -/
  | holds (slot : String) (k : Nat)
  /-- Reads alternative `k`. -/
  | get (slot : String) (k : Nat)
  /-- Reads alternative `k` or learns which is active. -/
  | tryGet (slot : String) (k : Nat)
  /-- Overwrites alternative `k` through a reference. -/
  | edit (slot : String) (k : Nat) (x : Source α)
  /-- Exchanges the value of alternative `k`. -/
  | set (slot : String) (k : Nat) (x : Source α)
  /-- Puts a new variant in the slot; the old one moves to another slot or is dropped. -/
  | replace (slot : String) (k : Nat) (x : Source α) (target : Option String)
  /-- Takes alternative `k` out. -/
  | take (slot : String) (k : Nat)
  /-- Splits the first alternative off; if it is not the active one, the variant is put together
      again. -/
  | split (slot : String)
  /-- Splits the first alternative off; if it is not the active one, the variant is left with the
      others. -/
  | narrow (slot : String)
  /-- Puts the alternative `t` before those of the variant. -/
  | widen (slot : String) (t : String)
  /-- Takes the value out, whichever alternative it is. -/
  | unify (slot : String)
  /-- Clones the variant into another slot. -/
  | clone (slot target : String)
  /-- Compares two variants. -/
  | same (slot other : String)
  /-- Drops the variant. -/
  | drop (slot : String)
  /-- Destroys the value at this place among those that are held. -/
  | discard (i : Nat)
  /-- Destroys all values that are held. -/
  | release

/-- What an operation answers. -/
inductive WorkspaceAnswer (α : Type) where
  | nothing
  | bool (b : Bool)
  | state (v : Variant (Owned α))
  | value (x : Option α)
  | fetched (x : Except AccessError α)
  | replaced (old : Variant (Owned α))
  | taken (x : Except (Variant (Owned α)) α)
  | headOrRest (x : Except (Variant (Owned α)) α)
  | unified (x : α)

namespace Workspace

variable {α : Type}

/-- No variants of `types` yet. -/
def empty (types : List String) : Workspace α := ⟨types, [], [], Ledger.empty⟩

/-- The variant in a slot. -/
def find? (w : Workspace α) (slot : String) : Option (Variant (Owned α)) := w.slots.lookup slot

/-- The workspace without a slot; what was in it is neither kept nor dropped. -/
def vacate (w : Workspace α) (slot : String) : Workspace α :=
  { w with slots := w.slots.filter fun (name, _) => name ≠ slot }

/-- Puts a variant in a slot; one that was there is dropped. -/
def put (w : Workspace α) (slot : String) (v : Variant (Owned α)) : Workspace α :=
  let ledger := w.ledger.dropIfAny (w.find? slot)
  { w.vacate slot with slots := (slot, v) :: (w.vacate slot).slots, ledger }

/-- Puts a variant in the place of the one in the slot, which has been taken care of. -/
def swap (w : Workspace α) (slot : String) (v : Variant (Owned α)) : Workspace α :=
  { w with slots := (slot, v) :: (w.vacate slot).slots }

/-- The workspace that holds `v` outside its variants. -/
def hold (w : Workspace α) (v : Owned α) : Workspace α := { w with held := v :: w.held }

/-- The value from a source, as one of type `t`. There is none if nothing is held at the place the
    source names, or a value of another type. -/
def give (w : Workspace α) (t : String) : Source α → Option (Owned α × Workspace α)
  | .fresh x =>
    let (v, ledger) := w.ledger.make t x
    some (v, { w with ledger })
  | .held i => do
    let v ← w.held[i]?
    if v.typeName = t then some (v, { w with held := w.held.eraseIdx i }) else none

/-- A variant of `types` with the value from a source as alternative `k`. -/
def variant? (w : Workspace α) (types : List String) (k : Nat) (x : Source α) :
    Option (Variant (Owned α) × Workspace α) :=
  if h : k < types.length then
    (w.give types[k] x).map fun (v, w) => (Variant.inject types k v h, w)
  else none

/-- Destroys the value at a place among those that are held. -/
def discard (w : Workspace α) (i : Nat) : Option (Workspace α) :=
  w.held[i]?.map fun v => { w with held := w.held.eraseIdx i, ledger := w.ledger.destroy v }

/-- Destroys all values that are held. -/
def release (w : Workspace α) : Workspace α :=
  { w with held := [], ledger := w.held.foldl Ledger.destroy w.ledger }

/-- Drops every variant, then every value that is held. -/
def close (w : Workspace α) : Workspace α :=
  let ledger := w.slots.foldl (fun l (_, v) => l.drop v) w.ledger
  { w with slots := [], ledger }.release

/-- Carries out an operation. There is no answer if a slot it needs is empty, no alternative has the
    number it names, or there is no value to be given to it. -/
def perform [BEq α] (w : Workspace α) : WorkspaceOp α → Option (WorkspaceAnswer α × Workspace α)
  | .create slot k x => do
    let (v, w) ← w.variant? w.types k x
    return (.state v, w.put slot v)
  | .createHead slot x => do
    match w.types with
    | t :: others =>
      let (x, w) ← w.give t x
      let v := Variant.ofHead t others x
      return (.state v, w.put slot v)
    | [] => none
  | .createTail slot k x => do
    match w.types, k with
    | t :: others, k + 1 =>
      -- among the others the alternative stands one place earlier
      let (rest, w) ← w.variant? others k x
      let v := Variant.ofTail t rest
      return (.state v, w.put slot v)
    | _, _ => none
  | .inspect slot => do
    let v ← w.find? slot
    return (.state v, w)
  | .holds slot k => do
    let v ← w.find? slot
    return (.bool (v.holds k), w)
  | .get slot k => do
    let v ← w.find? slot
    return (.value ((v.get k).map Owned.value), w)
  | .tryGet slot k => do
    let v ← w.find? slot
    return (.fetched ((v.tryGet k).map Owned.value), w)
  | .edit slot k x => do
    let v ← w.find? slot
    if v.holds k then
      let (new, w) ← w.give (← v.types[k]?) x
      let (old, v) ← v.edit k new
      return (.value (some new.value), { w.swap slot v with ledger := w.ledger.destroy old })
    else
      -- there is nothing to overwrite, so no value is given
      return (.value none, w)
  | .set slot k x => do
    let v ← w.find? slot
    let (new, w) ← w.give (← v.types[k]?) x
    match v.set k new with
    | .ok (old, v) => return (.fetched (.ok old.value), (w.swap slot v).hold old)
    | .error e =>
      -- the value that was refused does not outlive the operation
      return (.fetched (.error e), { w with ledger := w.ledger.destroy new })
  | .replace slot k x target => do
    let old ← w.find? slot
    let (v, w) ← w.variant? old.types k x
    -- the new variant stands in the slot first, so an old one that moves back there drops it
    let w := w.swap slot v
    match target with
    | some other => return (.replaced old, w.put other old)
    | none => return (.replaced old, { w with ledger := w.ledger.drop old })
  | .take slot k => do
    let v ← w.find? slot
    match v.take k with
    | .ok x => return (.taken (.ok x.value), (w.vacate slot).hold x)
    | .error v => return (.taken (.error v), w.swap slot v)
  | .split slot => do
    let v ← w.find? slot
    match v.split, v.types with
    | .ok x, _ => return (.headOrRest (.ok x.value), (w.vacate slot).hold x)
    | .error rest, t :: _ =>
      -- the slot gets its variant back, put together from the rest
      return (.headOrRest (.error rest), w.swap slot (Variant.ofTail t rest))
    | .error _, [] => none
  | .narrow slot => do
    let v ← w.find? slot
    match v.split with
    | .ok x => return (.headOrRest (.ok x.value), (w.vacate slot).hold x)
    | .error rest => return (.headOrRest (.error rest), w.swap slot rest)
  | .widen slot t => do
    let v ← w.find? slot
    let wider := Variant.ofTail t v
    return (.state wider, w.swap slot wider)
  | .unify slot => do
    let v ← w.find? slot
    let x := v.unify fun _ x => x
    return (.unified x.value, (w.vacate slot).hold x)
  | .clone slot target => do
    let v ← w.find? slot
    let (x, ledger) := w.ledger.copy v.storage.payload
    let copy := v.clone fun _ => x
    return (.state copy, { w with ledger }.put target copy)
  | .same slot other => do
    let v ← w.find? slot
    let u ← w.find? other
    -- only variants of the same alternatives can be compared
    if v.types = u.types then
      return (.bool (v.sameAs (fun x y => x.value == y.value) u), w)
    else none
  | .drop slot => do
    let v ← w.find? slot
    return (.nothing, { w.vacate slot with ledger := w.ledger.drop v })
  | .discard i => do
    return (.nothing, ← w.discard i)
  | .release => some (.nothing, w.release)

/-- Carries out operations one after the other, as long as each of them has an answer. -/
def performAll [BEq α] (w : Workspace α) : List (WorkspaceOp α) → Option (Workspace α)
  | [] => some w
  | op :: ops => do
    let (_, w) ← w.perform op
    w.performAll ops

end Workspace

end ParserKit
