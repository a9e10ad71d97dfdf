import ParserKit.Text.Quoted
import ParserKit.Text.Shape

/-!
# Payloads

The values that the variants of a workspace hold: numbers, truth values, characters, texts, lists
of numbers, the value of the unit type, and trackers, which stand for values whose clones and
destructions are counted. Every payload knows the name of its type and its structure.
-/

namespace ParserKit

/-- A value to be held by a variant. -/
inductive Payload where
  | byte (n : Nat)
  | int (n : Int)
  | flag (b : Bool)
  | char (c : Char)
  | text (s : String)
  | tracker (n : Int)
  | ints (l : List Int)
  | unit
deriving DecidableEq, Repr

/-- The types that payloads may have. -/
inductive PayloadType where
  | byte
  | int
  | flag
  | char
  | text
  | tracker
  | ints
  | unit
deriving DecidableEq, Repr

/-- The name of a type. -/
def PayloadType.name : PayloadType → String
  | byte => "u8"
  | int => "i64"
  | flag => "bool"
  | char => "char"
  | text => "alloc::string::String"
  | tracker => "oracle::Tracker"
  | ints => "alloc::vec::Vec<i64>"
  | unit => "()"

/-- The structure of a payload. -/
def Payload.shape [Text.Visibility] : Payload → Text.Shape
  | byte n => .atom (toString n)
  | int n => .atom (toString n)
  | flag b => .atom (if b then "true" else "false")
  | char c => .atom (Text.quoteChar c)
  | text s => .atom (Text.quoteString s)
  | tracker n => .tuple "Tracker" [.atom (toString n)]
  | ints l => .list (l.map fun n => .atom (toString n))
  | unit => .tuple "" []

end ParserKit
