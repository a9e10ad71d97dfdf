import ParserKit.Grammar.Basic

/-!
# Parsers of one's own

Four functions of the cursor that a grammar may use as a leaf. They keep none of the promises of
the terminals: a span may reach past the end of the text, lie anywhere in it, or end before the
cursor, and a failure may blame any offset.
-/

namespace ParserKit.Custom

variable {κ : Type}

/-- Reads any one character. -/
def any (c : Cursor) : Except Fault (Outcome (Value κ)) :=
  match c.peek with
  | some x => (Span.ofLength c.offset x.utf8Size).map (Outcome.done (.char x))
  | none => .ok (.failed (Failure.expecting (.custom "any character") c.offset))

/-- Succeeds with the next `n` bytes, whatever stands there. -/
def wide (n : Nat) (c : Cursor) : Except Fault (Outcome (Value κ)) :=
  (Span.ofLength c.offset n).map (Outcome.done .unit)

/-- Succeeds with the same span everywhere. -/
def jump (begin stop : Offset) (_ : Cursor) : Except Fault (Outcome (Value κ)) :=
  (Span.between begin stop).map (Outcome.done .unit)

/-- Fails, blaming `blamed` or else the cursor, after an attempt that came to `reached`. -/
def fail (e : Expectation) (blamed reached : Option Offset) (c : Cursor) :
    Except Fault (Outcome (Value κ)) :=
  let f := Failure.expecting e (blamed.getD c.offset)
  .ok (.failed ((reached.map f.reached).getD f))

end ParserKit.Custom
