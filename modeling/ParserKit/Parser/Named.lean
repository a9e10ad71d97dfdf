import ParserKit.Run

/-!
# Parsers that leave a trace

A named parser records that it was entered and how it was left, and runs its action on what was
read inside. A mapped parser records that its function ran, a watched one that it was tried. None
of them changes whether, where or how far its inside succeeds.
-/

namespace ParserKit.Parser

variable {α β : Type}

/-- The parser `p` under the name of a rule; `action` makes the value of the rule from what `p`
    reads. The action runs after the rule is left with success, and only then. -/
def named (name : String) (action : α → β) (p : Parser α) : Parser β := fun c =>
  ((p c).andThen fun
    | .done v s =>
      ⟨.both (.single (.left name s)) (.single (.acted name)), .ok (.done (action v) s)⟩
    | .failed f => ⟨.single (.leftFailing name f), .ok (.failed f)⟩).after
    (.entered name c.offset)

/-- The parser `p` with its values transformed by `f`, which runs after a success. -/
def mapped (f : α → β) (p : Parser α) : Parser β := fun c =>
  (p c).andThen fun
    | .done v s => ⟨.single .mapped, .ok (.done (f v) s)⟩
    | .failed e => Run.failed e

/-- The parser `p`, watched: each time it is tried, `label` and the offset are recorded first. -/
def watched (label : String) (p : Parser α) : Parser α := fun c =>
  (p c).after (.tried label c.offset)

end ParserKit.Parser
