import ParserKit.Grammar.Entry
import ParserKit.Grammar.Typed

/-!
# Tagged choices of many kinds

Grammars whose alternatives read values of various types: some with alternatives that are easily
taken for different, or for the same, and some that are malformed.
-/

namespace ParserKit.Sample

/-- A number or a truth value. -/
inductive Scalar where
  | nat (n : Nat)
  | bool (b : Bool)
deriving DecidableEq, Repr

/-- The structure of a scalar. -/
def Scalar.shape : Scalar → Text.Shape
  | nat n => .atom (toString n)
  | bool b => .atom (if b then "true" else "false")

namespace Typed

open TypedGrammar

/-- A grammar without rules that reads scalars. -/
abbrev Kind := TypedGrammar Empty Scalar

/-- The number that a digit stands for. -/
def numberOf (v : Value Scalar) : Value Scalar := .made (.nat (v.digit?.getD 0))

/-- A decimal digit as a number. -/
def digit : Kind := map "u32" numberOf (range '0' '9')

/-- A symbol that stands for the number `n` of the type `name`. -/
def numeral (name : String) (c : Char) (n : Nat) : Kind :=
  map name (fun _ => .made (.nat n)) (symbol c)

/-- How many items the last item of a sequence holds. -/
def lengthOf (v : Value Scalar) : Value Scalar :=
  .made (.nat ((v.last.items?.getD []).length))

/-- A character and a word. -/
def nested : Kind := oneOf [symbol 'a', word "b"]

/-- The alternatives of the grammar with this name. -/
def alternatives? : String → Option (List Kind)
  | "symbol|word|symbol" => some [symbol 'a', word "b", symbol 'c']
  | "symbol|range" => some [symbol 'a', range 'a' 'z']
  | "word|digit" => some [word "let", digit]
  | "many|many" => some [lastOf [symbol '['] (many (symbol 'a')), many (range '0' '9')]
  | "many symbol|many word" => some [lastOf [symbol 'a'] (many (symbol 'a')), many (word "ab")]
  | "pair|pair" => some [sequence [symbol 'a', word "b"], sequence [range 'a' 'c', word "c"]]
  | "single|symbol" => some [sequence [symbol '('], symbol '[']
  | "end|end" => some [endOfInput, endOfInput]
  | "end|symbol|word" => some [endOfInput, symbol '\n', word "\"q\""]
  | "nested dup" => some [nested, oneOf [range '0' '9', word "c"]]
  | "nested" =>
    some [nested, oneOf [word "c", range '0' '9'], many (oneOf [symbol '-', digit])]
  | "bad range" => some [symbol 'a', map "u8" (fun _ => .made (.nat 0)) (range 'z' 'a')]
  | "dup over bad range" => some [range 'z' 'a', range '9' '0']
  | "one" => some [word "only"]
  | "eight" =>
    some [sequence [symbol 'a', symbol 'b', symbol 'c', symbol 'd'], word "ab", digit,
      sequence [symbol '-', digit], map "usize" lengthOf (sequence [symbol 'x', many (symbol 'x')]),
      map "bool" (fun _ => .made (.bool true)) (symbol '+'), symbol '?', endOfInput]
  | "eight dup" =>
    some [numeral "u8" '1' 1, numeral "u16" '2' 1, numeral "u32" '3' 1, numeral "u64" '4' 1,
      numeral "i8" '5' 1, numeral "i16" '6' 1, numeral "i32" '7' 1, numeral "u16" '8' 2]
  | _ => none

/-- The grammar with this name. -/
def grammar? (name : String) : Option (Grammar Empty Scalar) :=
  (alternatives? name).map fun branches => (oneOf branches).grammar

end Typed

end ParserKit.Sample
