import ParserKit.Run
import ParserKit.Variant.Basic

/-!
# Choices

Parsers tried in order at the same cursor; the first that succeeds decides. When all of them fail,
the choice blames its own start, and remembers the furthest offset that any of them came to.
`choice` answers with the value of the parser that succeeded, `tagged` also says which it was.
-/

namespace ParserKit.Parser

variable {α : Type}

/-- The failure of a choice at `c` whose parsers all failed and came to `furthest`. -/
def noAlternative (c : Cursor) (furthest : Offset) : Failure :=
  (Failure.expecting .alternative c.offset).reached furthest

/-- Tries further parsers of a choice, the ones before having come to `furthest`. -/
def choiceFrom (c : Cursor) (furthest : Offset) : List (Parser α) → Run (Outcome α)
  | [] => Run.failed (noAlternative c furthest)
  | p :: ps =>
    (p c).andThen fun
      | .done v s => Run.done v s
      | .failed f => choiceFrom c (Offset.max furthest f.furthest) ps

/-- The first of the parsers that succeeds. -/
def choice : List (Parser α) → Parser α
  | [], c => Run.failed (noAlternative c c.offset)
  | p :: ps, c =>
    (p c).andThen fun
      | .done v s => Run.done v s
      | .failed f => choiceFrom c f.furthest ps

/-- A choice begins with nothing reached. -/
theorem choice_eq_choiceFrom (ps : List (Parser α)) (c : Cursor) :
    choice ps c = choiceFrom c Offset.zero ps := by
  have hmax (o : Offset) : Offset.max Offset.zero o = o := if_pos (Nat.zero_le _)
  cases ps with
  | nil =>
    have hreached : noAlternative c c.offset = noAlternative c Offset.zero := by
      simp [noAlternative, Failure.reached, Failure.expecting, Offset.max, Offset.zero]
    rw [choice, choiceFrom, hreached]
  | cons p ps => simp only [choice, choiceFrom, hmax]

/-- Tries further alternatives of a tagged choice, the ones before having come to `furthest`. The
    variant is built among the alternatives that are left; the ones before are put around it. -/
def taggedFrom (c : Cursor) (furthest : Offset) :
    List (String × Parser α) → Run (Outcome (Variant α))
  | [] => Run.failed (noAlternative c furthest)
  | (t, p) :: rest =>
    (p c).andThen fun
      | .done v s => Run.done (Variant.ofHead t (rest.map (·.1)) v) s
      | .failed f =>
        (taggedFrom c (Offset.max furthest f.furthest) rest).mapValue (Variant.ofTail t)

/-- The first of the parsers that succeeds, with its tag; each comes with the type it produces. -/
def tagged (alternatives : List (String × Parser α)) : Parser (Variant α) := fun c =>
  taggedFrom c c.offset alternatives

end ParserKit.Parser
