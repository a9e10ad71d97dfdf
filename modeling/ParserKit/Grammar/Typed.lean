import ParserKit.Grammar.Basic

/-!
# Grammars with types

A grammar together with the type of the values it reads. Building both at once gives every tagged
choice the right types for its branches (`TypedGrammar.oneOf`), so that two branches count as
duplicates exactly when the values they read are of one type.
-/

namespace ParserKit

/-- The type of what a grammar reads. -/
inductive OutputType where
  | named (name : String)
  | tuple (items : List OutputType)
  | list (item : OutputType)
  | variant (alternatives : List OutputType)

namespace OutputType

mutual

/-- The full name of a type. -/
def name : OutputType → String
  | named name => name
  | tuple [item] => "(" ++ item.name ++ ",)"
  | tuple items => "(" ++ String.intercalate ", " (names items) ++ ")"
  | list item => "alloc::vec::Vec<" ++ item.name ++ ">"
  | variant alternatives => "tagcom_base::variant::Variant<" ++ chainName alternatives ++ ">"

/-- The full name of each of the types. -/
def names : List OutputType → List String
  | [] => []
  | t :: ts => t.name :: names ts

/-- The full name of the storage for a list of alternatives. -/
def chainName : List OutputType → String
  | [] => "tagcom_core::never::Never"
  | t :: ts => "tagcom_base::raw_union::RawUnion<" ++ t.name ++ ", " ++ chainName ts ++ ">"

end

end OutputType

/-- A grammar and the type of the values it reads. -/
structure TypedGrammar (ι κ : Type) where
  type : OutputType
  grammar : Grammar ι κ

namespace TypedGrammar

variable {ι κ : Type}

/-- The end of the text. -/
def endOfInput : TypedGrammar ι κ := ⟨.named "tagcom_parsers::primitive::end::Eof", .endOfInput⟩

/-- One given character. -/
def symbol (c : Char) : TypedGrammar ι κ := ⟨.named "char", .symbol c⟩

/-- One character of a closed range. -/
def range (lo hi : Char) : TypedGrammar ι κ := ⟨.named "char", .range lo hi⟩

/-- A given word. -/
def word (w : String) : TypedGrammar ι κ := ⟨.named "&str", .word w⟩

/-- All of the grammars, one after the other. -/
def sequence (items : List (TypedGrammar ι κ)) : TypedGrammar ι κ :=
  ⟨.tuple (items.map type), .sequence (items.map grammar)⟩

/-- A grammar as often as it succeeds. -/
def many (item : TypedGrammar ι κ) : TypedGrammar ι κ := ⟨.list item.type, .many item.grammar⟩

/-- The first of the grammars that succeeds, told apart by the types of their values. -/
def oneOf (branches : List (TypedGrammar ι κ)) : TypedGrammar ι κ :=
  ⟨.variant (branches.map type),
    .oneOf .tagged (branches.map fun b => b.type.name) (branches.map grammar)⟩

/-- A grammar whose values are made into values of another type. -/
def map (name : String) (f : Value κ → Value κ) (inner : TypedGrammar ι κ) : TypedGrammar ι κ :=
  ⟨.named name, .map f inner.grammar⟩

/-- The grammars one after the other, of which only the last value is kept. -/
def lastOf (items : List (TypedGrammar ι κ)) (last : TypedGrammar ι κ) : TypedGrammar ι κ :=
  ⟨last.type, .map Value.last (.sequence (items.map grammar ++ [last.grammar]))⟩

end TypedGrammar

end ParserKit
