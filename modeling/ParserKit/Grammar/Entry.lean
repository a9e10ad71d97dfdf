import ParserKit.Grammar.Check
import ParserKit.Location.Rejection

/-!
# Parsing with a grammar

The grammar is checked first, and nothing is read with a malformed one. `Rulebook.parse` answers
with the outcome at a cursor; `Rulebook.parseText` reads a text from its start and locates the
failure in it.
-/

namespace ParserKit

namespace Rulebook

variable {ι κ : Type}

/-- The check of `g` as a run, which records its events and refuses a malformed grammar. -/
def validated (book : Rulebook ι κ) (g : Grammar ι κ) : Run (Except GrammarFlaw Unit) :=
  let report := book.check Visited.empty g
  ⟨Trace.ofList report.events, .ok report.ending⟩

/-- The event that ends a whole parse. -/
def closing : Outcome (Value κ) → Event
  | .done _ s => .parsed s
  | .failed f => .parseFailed f

/-- Reads with `g` at a cursor, unless `g` is malformed. -/
def parse (book : Rulebook ι κ) (g : Grammar ι κ) (c : Cursor) :
    Run (Except GrammarFlaw (Outcome (Value κ))) :=
  (book.validated g).andThen fun
    | .error flaw => (Run.answer (.error flaw)).after (.refused flaw)
    | .ok () => (book.run g c).andThen fun o => (Run.answer (.ok o)).after (closing o)

/-- Reads with `g` from the start of `input`. -/
def parseText (book : Rulebook ι κ) (ending : LineEnding) (g : Grammar ι κ) (input : String) :
    Run (Except Refusal (Value κ × Span)) :=
  (book.parse g (Cursor.start input)).andThen fun
    | .error flaw => Run.answer (.error (.malformed flaw))
    | .ok (.done v s) => Run.answer (.ok (v, s))
    | .ok (.failed f) =>
      (Run.ofExcept (Rejection.locate ending input f)).map fun r => .error (.rejected r)

end Rulebook

end ParserKit
