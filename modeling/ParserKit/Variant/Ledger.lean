import ParserKit.Variant.Basic

/-!
# Ledgers

A ledger accounts for values that are owned: every value has an identity and the type it was made
as, and the ledger lists what was done to values, latest first. A value is made, or cloned from
another, and destroyed at the end as some type; dropping a variant destroys the value in it as the
type of its tag.
-/

namespace ParserKit

/-- A value with an identity, and the type it was made as. -/
structure Owned (α : Type) where
  id : Nat
  typeName : String
  value : α
deriving DecidableEq, Repr

/-- What can happen to values. -/
inductive Deed (α : Type) where
  | made (v : Owned α)
  | cloned (source copy : Owned α)
  | destroyed (v : Owned α) (typeName : String)
deriving DecidableEq, Repr

/-- What was done, latest first, and the identity of the next value. -/
structure Ledger (α : Type) where
  next : Nat
  deeds : List (Deed α)
deriving Repr

namespace Ledger

variable {α : Type}

/-- Nothing done yet. -/
def empty : Ledger α := ⟨0, []⟩

/-- Makes a value of type `t`. -/
def make (l : Ledger α) (t : String) (x : α) : Owned α × Ledger α :=
  let v : Owned α := ⟨l.next, t, x⟩
  (v, ⟨l.next + 1, .made v :: l.deeds⟩)

/-- Clones a value. -/
def copy (l : Ledger α) (v : Owned α) : Owned α × Ledger α :=
  let w : Owned α := ⟨l.next, v.typeName, v.value⟩
  (w, ⟨l.next + 1, .cloned v w :: l.deeds⟩)

/-- Destroys a value as type `t`. -/
def destroyAs (l : Ledger α) (t : String) (v : Owned α) : Ledger α :=
  { l with deeds := .destroyed v t :: l.deeds }

/-- Destroys a value as what it is. -/
def destroy (l : Ledger α) (v : Owned α) : Ledger α := l.destroyAs v.typeName v

/-- Destroys the value that a storage holds at a tag, if it holds that alternative. -/
def destroyAt (l : Ledger α) (types : List String) (k : Nat) (c : Chain (Owned α)) :
    Except Fault (Ledger α) := do
  match ← c.destroyAt types k with
  | some (t, v) => return l.destroyAs t v
  | none => return l

/-- Drops a variant. -/
def drop (l : Ledger α) (v : Variant (Owned α)) : Ledger α :=
  match l.destroyAt v.types v.tag v.storage with
  | .ok l => l
  | .error _ => l

/-- Drops a variant, if there is one. -/
def dropIfAny (l : Ledger α) (v : Option (Variant (Owned α))) : Ledger α :=
  match v with
  | some v => l.drop v
  | none => l

/-- How many values were made. -/
def constructions (l : Ledger α) : Nat :=
  l.deeds.countP fun
    | .made _ => true
    | _ => false

/-- How many values were cloned from others. -/
def clones (l : Ledger α) : Nat :=
  l.deeds.countP fun
    | .cloned _ _ => true
    | _ => false

/-- How many values were destroyed. -/
def destructions (l : Ledger α) : Nat :=
  l.deeds.countP fun
    | .destroyed _ _ => true
    | _ => false

/-- How many values of type `t` were made. -/
def madeCount (l : Ledger α) (t : String) : Nat :=
  l.deeds.countP fun
    | .made v => v.typeName = t
    | _ => false

/-- How many values were cloned from values of type `t`. -/
def cloneCount (l : Ledger α) (t : String) : Nat :=
  l.deeds.countP fun
    | .cloned v _ => v.typeName = t
    | _ => false

/-- How many values were destroyed as type `t`. -/
def destroyCount (l : Ledger α) (t : String) : Nat :=
  l.deeds.countP fun
    | .destroyed _ t' => t' = t
    | _ => false

end Ledger

end ParserKit
