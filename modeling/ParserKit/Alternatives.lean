/-!
# Lists of alternatives

The alternatives of a tagged choice are the types they produce, in order. A tag is a position in
that list. A choice is unambiguous when no type occurs twice; `firstDuplicate?` finds the pair that
shows otherwise, the one whose later position is smallest and, among those, whose earlier position
is.

All that is asked of types is that they can be told apart and, where a pair is reported, shown by
a name. The types that a grammar lists are the names themselves.
-/

namespace ParserKit

/-- Two positions that hold the same type. -/
structure Duplicate where
  first : Nat
  second : Nat
  typeName : String
deriving DecidableEq, Repr

/-- The pair as a sentence. -/
def Duplicate.text (d : Duplicate) : String :=
  s!"alternatives {d.first} and {d.second} are both `{d.typeName}`"

namespace Alternatives

variable {τ : Type} [DecidableEq τ]

/-- The first position below `second` that holds the same type. -/
def earlier? (types : List τ) (second : Nat) : Option Nat :=
  (List.range second).find? fun first => types[first]? = types[second]?

/-- The first position that repeats an earlier type, with the earliest position it repeats. -/
def firstDuplicate? (types : List τ) : Option (Nat × Nat) :=
  (List.range types.length).findSome? fun second =>
    (earlier? types second).map fun first => (first, second)

/-- Refuses a list in which a type occurs twice, naming the pair `firstDuplicate?` finds. -/
def distinct [ToString τ] (types : List τ) : Except Duplicate Unit :=
  match firstDuplicate? types with
  | none => .ok ()
  | some (first, second) => .error ⟨first, second, (types[first]?.map toString).getD "?"⟩

end Alternatives

end ParserKit
