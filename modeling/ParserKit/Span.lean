import ParserKit.Offset
import ParserKit.Text.Slice

/-!
# Spans

A span is the part of a text between two byte offsets, the first not after the second. The bounds
may lie past the end of a text or inside a character; only `slice?` looks at one.
-/

namespace ParserKit

/-- The bytes from `begin` up to, but not including, `stop`. -/
structure Span where
  begin : Offset
  stop : Offset
  begin_le_stop : begin.val ≤ stop.val
deriving Repr

namespace Span

/-- Spans are told apart by their bounds. -/
instance : DecidableEq Span := fun s t =>
  decidable_of_iff (s.begin = t.begin ∧ s.stop = t.stop) (by cases s; cases t; simp)

/-- The span that covers nothing, at `o`. -/
def point (o : Offset) : Span := ⟨o, o, Nat.le_refl _⟩

/-- The empty span at the start of a text. -/
def origin : Span := point Offset.zero

/-- The number of bytes covered. -/
def length (s : Span) : Nat := s.stop.val - s.begin.val

/-- Whether nothing is covered. -/
def isEmpty (s : Span) : Bool := s.begin = s.stop

/-- Whether `t` lies within `s`. -/
def contains (s t : Span) : Bool := s.begin.val ≤ t.begin.val && t.stop.val ≤ s.stop.val

/-- The smallest span that covers both. -/
def join (s t : Span) : Span where
  begin := Offset.min s.begin t.begin
  stop := Offset.max s.stop t.stop
  begin_le_stop := by
    have hs := s.begin_le_stop
    simp only [Offset.val_min, Offset.val_max]
    omega

/-- The covered text, if the bounds are boundaries within `input`. -/
def slice? (s : Span) (input : String) : Option String :=
  Text.slice? input s.begin.val s.stop.val

/-- The bounds with two dots between them. -/
def text (s : Span) : String := s!"{s.begin.val}..{s.stop.val}"

end Span

end ParserKit
