import ParserKit.Run

/-!
# Repetition

`many p` runs `p` again and again, each time at the end of the match before. It stops at the first
failure of `p`, which is forgotten, and after the first match that does not lead further, which is
kept. So it never fails, and as the ends of the matches but the last increase, it comes to an end.
-/

namespace ParserKit.Parser

variable {α : Type}

/-- Goes on with a repetition that began at `start` and is now at `rest`. -/
def manyFrom (p : Parser α) (start : Offset) (rest : Cursor) : Run (Outcome (List α)) :=
  (p rest).andThen fun
    | .done v s =>
      if rest.offset.val < s.stop.val then
        (manyFrom p start (rest.moveTo s.stop)).mapValue (v :: ·)
      else
        -- the match is kept, but it ends no further on than it began
        Run.doneAt [v] (Span.between start s.stop)
    | .failed _ => Run.doneAt [] (Span.between start rest.offset)
termination_by 0x10000000000000000 - rest.offset.val
decreasing_by
  have := s.stop.isLt
  simp only [Cursor.moveTo_offset]
  omega

/-- As many matches of `p` as there are, one after the other. -/
def many (p : Parser α) : Parser (List α) := fun c => manyFrom p c.offset c

end ParserKit.Parser
