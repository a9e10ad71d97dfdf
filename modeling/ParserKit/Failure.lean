import ParserKit.Span
import ParserKit.Text.Quoted

/-!
# Failures

A failure blames one offset, names what was expected there, and remembers the furthest offset
that any attempt behind it came to, which is never before the blamed one.
-/

namespace ParserKit

/-- What would have had to stand at the blamed offset. -/
inductive Expectation where
  | endOfInput
  | symbol (c : Char)
  | range (lo hi : Char)
  | word (w : String)
  | alternative
  | custom (text : String)
deriving DecidableEq, Repr

/-- The expectation as a noun phrase. -/
def Expectation.text [Text.Visibility] : Expectation → String
  | .endOfInput => "end of input"
  | .symbol c => "symbol " ++ Text.quoteChar c
  | .range lo hi => "a character in " ++ Text.quoteChar lo ++ "..=" ++ Text.quoteChar hi
  | .word w => "word " ++ Text.quoteString w
  | .alternative => "one of the alternatives"
  | .custom text => text

/-- Where a parse failed, how far it had come, and what it expected. -/
structure Failure where
  blamed : Offset
  furthest : Offset
  expected : Expectation
  blamed_le_furthest : blamed.val ≤ furthest.val
deriving DecidableEq, Repr

namespace Failure

/-- A failure that came no further than the offset it blames. -/
def expecting (e : Expectation) (o : Offset) : Failure :=
  ⟨o, o, e, (Span.point o).begin_le_stop⟩

/-- The same failure after an attempt that came to `o`; the furthest offset only grows. -/
def reached (f : Failure) (o : Offset) : Failure where
  blamed := f.blamed
  furthest := Offset.max f.furthest o
  expected := f.expected
  blamed_le_furthest := by
    have h := f.blamed_le_furthest
    simp only [Offset.val_max]
    omega

/-- From the blamed offset to the furthest. -/
def reach (f : Failure) : Span := ⟨f.blamed, f.furthest, f.blamed_le_furthest⟩

/-- The failure as a sentence; how far it came is said where that is further than the blame. -/
def text [Text.Visibility] (f : Failure) : String :=
  s!"expected {f.expected.text} at offset {f.blamed.val}" ++
    if f.blamed.val < f.furthest.val then s!" (reached offset {f.furthest.val})" else ""

end Failure

end ParserKit
