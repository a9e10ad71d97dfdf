import ParserKit.Variant.Basic

/-!
# Values

What a grammar reads: characters and words, put together by sequences, repetitions and tagged
choices, wrapped by rules, or made by an action. `Value.chars` is the text inside a value, in
order; `Mapping` lists the ready-made functions on values.
-/

namespace ParserKit

/-- A value read by a grammar. `κ` is the type of what actions make. -/
inductive Value (κ : Type) where
  /-- The end of the text was found. -/
  | eof
  /-- Nothing worth keeping. -/
  | unit
  | char (c : Char)
  | word (w : String)
  /-- Text that was put together from a value. -/
  | text (s : List Char)
  /-- A decimal digit, or none for a value that is no digit. -/
  | digit (d : Option Nat)
  | seq (items : List (Value κ))
  | many (items : List (Value κ))
  /-- The value of alternative `tag` of `types`. -/
  | tagged (types : List String) (tag : Nat) (value : Value κ)
  /-- A value under the number of the rule that read it. -/
  | ruled (rule : Nat) (value : Value κ)
  /-- What an action made. -/
  | made (result : κ)

namespace Value

variable {κ : Type}

/-- The value of a tagged choice. -/
def ofVariant (v : Variant (Value κ)) : Value κ := tagged v.types v.tag v.storage.payload

/-- What an action made, if the value is that. -/
def made? : Value κ → Option κ
  | made result => some result
  | _ => none

/-- The items of a sequence or a repetition. -/
def items? : Value κ → Option (List (Value κ))
  | seq items => some items
  | many items => some items
  | _ => none

mutual

/-- The characters, words and texts inside a value, in order. -/
def chars : Value κ → List Char
  | char c => [c]
  | word w => w.toList
  | text s => s
  | seq items => charsOf items
  | many items => charsOf items
  | tagged _ _ value => value.chars
  | ruled _ value => value.chars
  | eof => []
  | unit => []
  | digit _ => []
  | made _ => []

/-- The characters inside each of the values, one after the other. -/
def charsOf : List (Value κ) → List Char
  | [] => []
  | v :: vs => v.chars ++ charsOf vs

end

mutual

/-- The structure of a value; `describe` gives that of what actions made. -/
def shape [Text.Visibility] (describe : κ → Text.Shape) : Value κ → Text.Shape
  | eof => .atom "Eof"
  | unit => .tuple "" []
  | char c => .atom (Text.quoteChar c)
  | word w => .atom (Text.quoteString w)
  | text s => .atom (Text.quoteString (String.ofList s))
  | digit d => .atom ((d.map toString).getD "")
  | seq items => .tuple "" (shapes describe items)
  | many items => .list (shapes describe items)
  | tagged _ tag value =>
    .record "Variant" [.field "tag" (.atom (toString tag)), .field "value" (value.shape describe)]
  | ruled _ value => value.shape describe
  | made result => describe result

/-- The structure of each of the values. -/
def shapes [Text.Visibility] (describe : κ → Text.Shape) : List (Value κ) → List Text.Shape
  | [] => []
  | v :: vs => v.shape describe :: shapes describe vs

end

/-- The decimal digit that a character is. -/
def digit? : Value κ → Option Nat
  | char c => if c.isDigit then some (c.toNat - '0'.toNat) else none
  | _ => none

/-- The last item of a sequence or a repetition, `unit` if there is none; other values stay. -/
def last (v : Value κ) : Value κ :=
  match v.items? with
  | some items => items.getLast?.getD unit
  | none => v

/-- Item `i` of a sequence or a repetition, `unit` if there is none; other values stay. -/
def pick (i : Nat) (v : Value κ) : Value κ :=
  match v.items? with
  | some items => items[i]?.getD unit
  | none => v

end Value

/-- A ready-made function on values. -/
inductive Mapping (κ : Type) where
  | identity
  /-- The text inside the value. -/
  | text
  /-- The decimal digit that the value is. -/
  | digit
  /-- The same result for every value. -/
  | const (result : κ)
  /-- One item of a sequence or a repetition. -/
  | pick (i : Nat)
  /-- The value under the number of a rule. -/
  | wrap (rule : Nat)

/-- The function that a mapping stands for. -/
def Mapping.apply {κ : Type} : Mapping κ → Value κ → Value κ
  | identity, v => v
  | text, v => .text v.chars
  | digit, v => .digit v.digit?
  | const result, _ => .made result
  | pick i, v => v.pick i
  | wrap rule, v => .ruled rule v

end ParserKit
