import ParserKit.Variant.Ledger

/-!
# Bare storages

A bare storage is a chain whose tag is kept beside it by whoever uses it. Nothing happens to its
value by itself: a storage that is overwritten or forgotten leaves its value undestroyed, and only
destroying it at its tag, or taking the value out, ends the value.
-/

namespace ParserKit

/-- A chain with the tag that is kept beside it. -/
structure Bare (α : Type) where
  tag : Nat
  storage : Chain α
deriving Repr

/-- Bare storages in named slots, and the ledger of all values. -/
structure BareSpace (α : Type) where
  types : List String
  slots : List (String × Bare (Owned α))
  ledger : Ledger α

/-- An operation on bare storages. -/
inductive BareOp (α : Type) where
  /-- Stores a value as alternative `k`. -/
  | inject (slot : String) (k : Nat) (x : α)
  /-- Stores a value as the first alternative. -/
  | ofHead (slot : String) (x : α)
  /-- Stores a value as alternative `k`, which is not the first, among the others. -/
  | ofTail (slot : String) (k : Nat) (x : α)
  /-- Overwrites the value through a reference. -/
  | edit (slot : String) (x : α)
  /-- Copies the storage into another slot. -/
  | clone (slot target : String)
  /-- Forgets the storage. -/
  | forget (slot : String)
  /-- Reads the value. -/
  | get (slot : String)
  /-- Exchanges the value. -/
  | set (slot : String) (x : α)
  /-- Takes the value out. -/
  | take (slot : String)
  /-- Destroys the value, at the tag or as if it were at another one. -/
  | destroy (slot : String) (tag : Option Nat)
  /-- Compares two storages at the tag of the first. -/
  | same (slot other : String)
  /-- Looks at the value. -/
  | inspect (slot : String)
  /-- Puts a variant together, and drops it. -/
  | toVariant (slot : String)
  /-- Puts a variant together with the first tag that no alternative has. -/
  | badVariant (slot : String)

/-- What an operation answers. -/
inductive BareAnswer (α : Type) where
  | nothing
  | index (k : Nat)
  | bool (b : Bool)
  | value (x : α)
  | inspected (x : α)
  | variant (v : Variant (Owned α))
  | fault (f : Fault)

namespace BareSpace

variable {α : Type}

/-- No storages for `types` yet. -/
def empty (types : List String) : BareSpace α := ⟨types, [], Ledger.empty⟩

/-- The storage in a slot. -/
def find? (s : BareSpace α) (slot : String) : Option (Bare (Owned α)) := s.slots.lookup slot

/-- The space without a slot. -/
def vacate (s : BareSpace α) (slot : String) : BareSpace α :=
  { s with slots := s.slots.filter fun (name, _) => name ≠ slot }

/-- Puts a storage in a slot; one that was there is forgotten. -/
def put (s : BareSpace α) (slot : String) (b : Bare (Owned α)) : BareSpace α :=
  { s with slots := (slot, b) :: (s.vacate slot).slots }

/-- Makes a value of the type of alternative `k`. -/
def make (s : BareSpace α) (k : Nat) (x : α) : Option (Owned α × BareSpace α) :=
  s.types[k]?.map fun t =>
    let (v, ledger) := s.ledger.make t x
    (v, { s with ledger })

/-- Destroys a value. -/
def destroyed (s : BareSpace α) (v : Owned α) : BareSpace α :=
  { s with ledger := s.ledger.destroy v }

/-- Carries out an operation. There is no answer if a slot it needs is empty, or no alternative has
    the number it names. A value that comes out of a storage is destroyed. -/
def perform [BEq α] (s : BareSpace α) : BareOp α → Option (BareAnswer α × BareSpace α)
  | .inject slot k x => do
    let (v, s) ← s.make k x
    return (.index k, s.put slot ⟨k, Chain.inject k v⟩)
  | .ofHead slot x => do
    let (v, s) ← s.make 0 x
    return (.nothing, s.put slot ⟨0, .head v⟩)
  | .ofTail slot k x => do
    let (v, s) ← s.make k x
    return (.nothing, s.put slot ⟨k, .tail (Chain.inject (k - 1) v)⟩)
  | .edit slot x => do
    let b ← s.find? slot
    let (new, s) ← s.make b.tag x
    let (old, storage) ← b.storage.set? b.tag new
    return (.nothing, (s.put slot ⟨b.tag, storage⟩).destroyed old)
  | .clone slot target => do
    let b ← s.find? slot
    let v ← b.storage.get? b.tag
    let (copy, ledger) := s.ledger.copy v
    let storage ← b.storage.cloneAt (fun _ => copy) b.tag
    return (.nothing, { s with ledger }.put target ⟨b.tag, storage⟩)
  | .forget slot => do
    let _ ← s.find? slot
    return (.nothing, s.vacate slot)
  | .get slot => do
    let b ← s.find? slot
    let v ← b.storage.get? b.tag
    return (.value v.value, s)
  | .set slot x => do
    let b ← s.find? slot
    let (new, s) ← s.make b.tag x
    let (old, storage) ← b.storage.set? b.tag new
    return (.value old.value, (s.put slot ⟨b.tag, storage⟩).destroyed old)
  | .take slot => do
    let b ← s.find? slot
    let v ← b.storage.get? b.tag
    return (.value v.value, (s.vacate slot).destroyed v)
  | .destroy slot tag => do
    let b ← s.find? slot
    match s.ledger.destroyAt s.types (tag.getD b.tag) b.storage with
    | .ok ledger => return (.nothing, { s.vacate slot with ledger })
    | .error f =>
      -- a tag that no alternative has destroys nothing
      return (.fault f, s)
  | .same slot other => do
    let b ← s.find? slot
    let c ← s.find? other
    return (.bool (b.storage.eqAt (fun x y => x.value == y.value) b.tag c.storage), s)
  | .inspect slot => do
    let b ← s.find? slot
    let v ← b.storage.get? b.tag
    return (.inspected v.value, s)
  | .toVariant slot => do
    let b ← s.find? slot
    match Variant.ofParts s.types b.tag b.storage with
    | .ok (some v) => return (.variant v, { s.vacate slot with ledger := s.ledger.drop v })
    | .ok none => none
    | .error f => return (.fault f, s.vacate slot)
  | .badVariant slot => do
    let b ← s.find? slot
    match Variant.ofParts s.types s.types.length b.storage with
    | .ok _ => none
    | .error f => return (.fault f, s.vacate slot)

end BareSpace

end ParserKit
