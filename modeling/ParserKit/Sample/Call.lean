import ParserKit.Grammar.Entry
import ParserKit.Text.Shape

/-!
# Calls

A grammar of calls with two arguments, whose arguments are calls, digits or one-letter variables,
and the expressions it reads. `Expr.text` writes an expression back.
-/

namespace ParserKit.Sample

/-- A call, a digit or a variable. -/
inductive Expr where
  | call (name : Char) (left right : Expr)
  | literal (value : Nat)
  | var (name : Char)
deriving DecidableEq, Repr

namespace Expr

/-- The expression as characters, followed by `rest`. -/
def charsOnto : Expr → List Char → List Char
  | call name left right, rest =>
    name :: '(' :: left.charsOnto (',' :: right.charsOnto (')' :: rest))
  | literal value, rest => Nat.toDigits 10 value ++ rest
  | var name, rest => name :: rest

/-- The expression as characters. -/
def chars (e : Expr) : List Char := e.charsOnto []

/-- The expression as text. -/
def text (e : Expr) : String := String.ofList e.chars

/-- The structure of the expression. -/
def shape [Text.Visibility] : Expr → Text.Shape
  | call name left right =>
    .tuple "Call" [.record "Call" [.field "name" (.atom (Text.quoteChar name)),
      .field "args" (.tuple "" [left.shape, right.shape])]]
  | literal value => .tuple "Literal" [.tuple "Literal" [.atom (toString value)]]
  | var name => .tuple "Variable" [.tuple "Variable" [.atom (Text.quoteChar name)]]

end Expr

/-- The rules of the call grammar. -/
inductive CallRule where
  /-- One expression that is the whole text. -/
  | program
  /-- An expression. -/
  | expr
  /-- A name with two arguments in brackets. -/
  | call
  /-- A digit. -/
  | literal
  /-- A letter. -/
  | var
deriving DecidableEq, Repr

namespace CallRule

/-- The call that a name, its arguments and the characters between them make. -/
def buildCall : Value Expr → Value Expr
  | .seq [.char name, _, .made left, _, .made right, _] => .made (.call name left right)
  | v => v

/-- The digit that a character is. -/
def buildLiteral : Value Expr → Value Expr
  | .char c => .made (.literal (c.toNat - '0'.toNat))
  | v => v

/-- The variable that a character is. -/
def buildVar : Value Expr → Value Expr
  | .char c => .made (.var c)
  | v => v

/-- The rule with each key. -/
def rule : CallRule → Rule CallRule Expr
  | program => ⟨"Program", .sequence [.rule .expr, .endOfInput], Value.pick 0⟩
  | expr =>
    ⟨"ExprRule", .oneOf .unified ["Call", "Literal", "Variable"]
      [.rule .call, .rule .literal, .rule .var], id⟩
  | call =>
    ⟨"CallRule", .sequence [.range 'a' 'z', .symbol '(', .rule .expr, .symbol ',', .rule .expr,
      .symbol ')'], buildCall⟩
  | literal => ⟨"LiteralRule", .range '0' '9', buildLiteral⟩
  | var => ⟨"VariableRule", .range 'a' 'z', buildVar⟩

/-- The call grammar. -/
def book : Rulebook CallRule Expr where
  keys := [.program, .expr, .call, .literal, .var]
  rule := rule
  mem_keys i := by cases i <;> simp

end CallRule

end ParserKit.Sample
