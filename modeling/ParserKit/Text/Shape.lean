/-!
# Shapes of values

The structure of a value as it is shown to a reader: names, fields and items, without types.
`Shape.line` writes a shape on one line; `Shape.block` gives every field and item a line of its
own, four spaces further in than what holds it and with a comma behind it.
-/

namespace ParserKit.Text

/-- The structure of a value. -/
inductive Shape where
  /-- Text that is written as it is. -/
  | atom (text : String)
  /-- A field of a record. -/
  | field (label : String) (value : Shape)
  /-- A record with its fields. -/
  | record (name : String) (fields : List Shape)
  /-- Items under a name; without one, a tuple. -/
  | tuple (name : String) (items : List Shape)
  /-- A list of items. -/
  | list (items : List Shape)

namespace Shape

mutual

/-- The shape on one line. A tuple of one item keeps a comma, to be told from a bracketed item. -/
def line : Shape → String
  | atom text => text
  | field label value => label ++ ": " ++ value.line
  | record name fields => name ++ " \x7b " ++ String.intercalate ", " (lines fields) ++ " \x7d"
  | tuple "" [item] => "(" ++ item.line ++ ",)"
  | tuple name items => name ++ "(" ++ String.intercalate ", " (lines items) ++ ")"
  | list items => "[" ++ String.intercalate ", " (lines items) ++ "]"

/-- Each of the shapes on one line. -/
def lines : List Shape → List String
  | [] => []
  | s :: rest => s.line :: lines rest

end

/-- The start of a line `depth` levels in. -/
def indent (depth : Nat) : String := String.ofList (List.replicate (4 * depth) ' ')

mutual

/-- The shape over several lines, beginning on a line that is `depth` levels in. -/
def blockAt (depth : Nat) : Shape → String
  | atom text => text
  | field label value => label ++ ": " ++ value.blockAt depth
  | record name fields => name ++ " \x7b" ++ enclosed depth fields ++ "\x7d"
  | tuple name items => name ++ "(" ++ enclosed depth items ++ ")"
  | list items => "[" ++ enclosed depth items ++ "]"

/-- What stands between the brackets of a shape: nothing, or lines of their own. -/
def enclosed (depth : Nat) : List Shape → String
  | [] => ""
  | s :: rest => "\n" ++ entries depth (s :: rest) ++ indent depth

/-- A line for each of the shapes, one level further in. -/
def entries (depth : Nat) : List Shape → String
  | [] => ""
  | s :: rest => indent (depth + 1) ++ s.blockAt (depth + 1) ++ ",\n" ++ entries depth rest

end

/-- The shape over several lines. -/
def block (s : Shape) : String := s.blockAt 0

end Shape

end ParserKit.Text
