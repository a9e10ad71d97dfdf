import ParserKit.Run

/-!
# Sequences

Parsers one after the other, each at the end of what the one before it read. A failure is handed
on as it is. The whole span runs from the start to the end of the last match, which parsers of
one's own may put anywhere: if that is before the start, there is no such span.
-/

namespace ParserKit.Parser

variable {α : Type}

/-- Runs the parsers from `rest` on; the span of the whole begins at `start`. -/
def sequenceFrom (start : Offset) : List (Parser α) → Parser (List α)
  | [], rest => Run.doneAt [] (Span.between start rest.offset)
  | p :: ps, rest =>
    (p rest).andThen fun
      | .done v s => (sequenceFrom start ps (rest.moveTo s.stop)).mapValue (v :: ·)
      | .failed f => Run.failed f

/-- All of the parsers, one after the other. -/
def sequence (ps : List (Parser α)) : Parser (List α) := fun c => sequenceFrom c.offset ps c

end ParserKit.Parser
