import ParserKit.Grammar.Entry
import ParserKit.Text.Shape

/-!
# Nested brackets

A grammar of round and curly brackets, nested in each other and side by side, and the trees it
reads. `Bracket.text` writes a tree back as brackets.
-/

namespace ParserKit.Sample

/-- A pair of brackets around others. -/
inductive Bracket where
  | round (inside : List Bracket)
  | curly (inside : List Bracket)

namespace Bracket

mutual

/-- The brackets as characters, followed by `rest`. -/
def charsOnto : Bracket → List Char → List Char
  | round inside, rest => '(' :: charsOfOnto inside (')' :: rest)
  | curly inside, rest => '\x7b' :: charsOfOnto inside ('\x7d' :: rest)

/-- Brackets side by side as characters, followed by `rest`. -/
def charsOfOnto : List Bracket → List Char → List Char
  | [], rest => rest
  | b :: bs, rest => b.charsOnto (charsOfOnto bs rest)

end

/-- The brackets as characters. -/
def chars (b : Bracket) : List Char := b.charsOnto []

/-- The brackets as text. -/
def text (b : Bracket) : String := String.ofList b.chars

mutual

/-- The structure of the tree. -/
def shape : Bracket → Text.Shape
  | round inside => .tuple "Round" [.list (shapes inside)]
  | curly inside => .tuple "Curly" [.list (shapes inside)]

/-- The structure of each of the trees. -/
def shapes : List Bracket → List Text.Shape
  | [] => []
  | b :: bs => b.shape :: shapes bs

end

/-- The trees among the items of a repetition. -/
def ofValues (items : List (Value Bracket)) : List Bracket := items.filterMap Value.made?

end Bracket

/-- The rules of the bracket grammar. -/
inductive BracketRule where
  /-- One pair of brackets that is the whole text. -/
  | document
  /-- A pair of brackets. -/
  | paren
  /-- A pair of round brackets. -/
  | round
  /-- A pair of curly brackets. -/
  | curly
deriving DecidableEq, Repr

namespace BracketRule

/-- Brackets of any kind between `open` and `close`. -/
def enclosed (opening closing : Char) : Grammar BracketRule Bracket :=
  .sequence [.symbol opening, .many (.rule .paren), .symbol closing]

/-- The tree of what `enclosed` reads. -/
def build (make : List Bracket → Bracket) : Value Bracket → Value Bracket
  | .seq [_, .many items, _] => .made (make (Bracket.ofValues items))
  | v => v

/-- The rule with each key. -/
def rule : BracketRule → Rule BracketRule Bracket
  | document => ⟨"Document", .sequence [.rule .paren, .endOfInput], Value.pick 0⟩
  | paren => ⟨"Paren", .oneOf .unified ["Round", "Curly"] [.rule .round, .rule .curly], id⟩
  | round => ⟨"RoundRule", enclosed '(' ')', build .round⟩
  | curly => ⟨"CurlyRule", enclosed '\x7b' '\x7d', build .curly⟩

/-- The bracket grammar. -/
def book : Rulebook BracketRule Bracket where
  keys := [.document, .paren, .round, .curly]
  rule := rule
  mem_keys i := by cases i <;> simp

end BracketRule

end ParserKit.Sample
