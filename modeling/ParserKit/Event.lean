import ParserKit.Fault

/-!
# Events

What happens while a grammar is checked or a text is parsed, in the order in which it happens.
Some events are log records and have a line of text; the others (an action that ran, a watched
parser that was tried) are only observed.
-/

namespace ParserKit

/-- Something that happened during a check or a parse. Rules are identified by their names. -/
inductive Event where
  /-- The check followed a rule it had not entered before. -/
  | checked (rule : String)
  /-- The check met a range that matches nothing. -/
  | emptyRangeMet (lo hi : Char)
  /-- The check met a tagged choice in which a type occurs twice. -/
  | duplicateMet (duplicate : Duplicate)
  /-- A parse was not begun, because its grammar is malformed. -/
  | refused (flaw : GrammarFlaw)
  /-- A rule was entered. -/
  | entered (rule : String) (position : Offset)
  /-- The inside of a rule succeeded. -/
  | left (rule : String) (span : Span)
  /-- The inside of a rule failed. -/
  | leftFailing (rule : String) (failure : Failure)
  /-- The action of a rule ran. -/
  | acted (rule : String)
  /-- A mapping ran. -/
  | mapped
  /-- A watched parser was tried. -/
  | tried (label : String) (position : Offset)
  /-- A whole parse succeeded. -/
  | parsed (span : Span)
  /-- A whole parse failed. -/
  | parseFailed (failure : Failure)
deriving DecidableEq, Repr

/-- The line that an event leaves in the log, if it leaves one. -/
def Event.record? [Text.Visibility] : Event → Option String
  | .checked rule => some s!"TRACE check {rule}"
  | .emptyRangeMet lo hi =>
    some s!"DEBUG rejected range {Text.quoteChar lo}..={Text.quoteChar hi}"
  | .duplicateMet d => some s!"DEBUG rejected tagged alternative: {d.text}"
  | .refused flaw => some s!"DEBUG grammar rejected: {flaw.message}"
  | .entered rule position => some s!"TRACE enter {rule} at {position.val}"
  | .left rule span => some s!"TRACE leave {rule} with {span.text}"
  | .leftFailing rule failure => some s!"TRACE leave {rule} failing: {failure.text}"
  | .acted _ => none
  | .mapped => none
  | .tried _ _ => none
  | .parsed span => some s!"TRACE parsed {span.text}"
  | .parseFailed failure => some s!"TRACE parse failed: {failure.text}"

end ParserKit
