import ParserKit.Run

/-!
# Terminals

The parsers that look at the text themselves. Each reads what stands at the cursor or fails there,
and never looks behind the cursor.
-/

namespace ParserKit.Parser

variable {α : Type}

/-- A run that fails at the cursor. -/
@[inline] def expected (e : Expectation) (c : Cursor) : Run (Outcome α) :=
  Run.failed (Failure.expecting e c.offset)

/-- A run that reads `v` from the next `n` bytes. -/
@[inline] def reads (v : α) (n : Nat) (c : Cursor) : Run (Outcome α) :=
  Run.doneAt v (Span.ofLength c.offset n)

/-- Succeeds at the end of the text and past it. -/
def endOfInput : Parser Unit := fun c =>
  if c.ended then Run.done () (Span.point c.offset) else expected .endOfInput c

/-- Reads the character `x`. -/
def symbol (x : Char) : Parser Char := fun c =>
  match c.peek with
  | some y => if y = x then reads y y.utf8Size c else expected (.symbol x) c
  | none => expected (.symbol x) c

/-- Reads a character from `lo` to `hi`; none, if `hi` is below `lo`. -/
def range (lo hi : Char) : Parser Char := fun c =>
  match c.peek with
  | some y => if lo ≤ y ∧ y ≤ hi then reads y y.utf8Size c else expected (.range lo hi) c
  | none => expected (.range lo hi) c

/-- Reads the characters of `w`. The empty word is read anywhere. -/
def word (w : String) : Parser String := fun c =>
  if c.startsWith w then reads w w.utf8ByteSize c else expected (.word w) c

end ParserKit.Parser
