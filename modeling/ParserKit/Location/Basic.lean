import ParserKit.Fault

/-!
# Locations

A location gives an offset of a text as a line and a column, all counted from zero. Which
characters end a line is a policy of its own (`LineEnding`); columns count characters, not bytes.
A meter measures a text piece by piece and remembers the character before, so that a line ending
of two characters is found also where a piece ends between them.
-/

namespace ParserKit

/-- What ends a line. -/
inductive LineEnding where
  /-- A line feed. -/
  | lf
  /-- A carriage return. -/
  | cr
  /-- A line feed right after a carriage return. -/
  | crlf
deriving DecidableEq, Repr

/-- Whether `c`, after the character `previous`, ends a line. -/
def LineEnding.endsLine : LineEnding → Option Char → Char → Bool
  | lf, _, c => c = '\n'
  | cr, _, c => c = '\r'
  | crlf, previous, c => previous = some '\r' && c = '\n'

/-- An offset with its line and column, from zero. -/
structure Location where
  offset : Offset
  line : Offset
  column : Offset
deriving DecidableEq, Repr

namespace Location

/-- The start of a text. -/
def origin : Location := ⟨Offset.zero, Offset.zero, Offset.zero⟩

/-- Line and column, counted from one. -/
def text (l : Location) : Except Fault String := do
  let line ← Offset.add l.line 1
  let column ← Offset.add l.column 1
  return s!"{line.val}:{column.val}"

end Location

/-- A location that moves over a text, with the last character it moved over. -/
structure Meter where
  location : Location
  previous : Option Char
deriving DecidableEq, Repr

namespace Meter

/-- A meter at `l` that has seen nothing yet. -/
def start (l : Location) : Meter := ⟨l, none⟩

/-- Moves over one character. -/
def step (ending : LineEnding) (m : Meter) (c : Char) : Except Fault Meter := do
  let offset ← Offset.add m.location.offset c.utf8Size
  if ending.endsLine m.previous c then
    let line ← Offset.add m.location.line 1
    return ⟨⟨offset, line, Offset.zero⟩, some c⟩
  else
    let column ← Offset.add m.location.column 1
    return ⟨⟨offset, m.location.line, column⟩, some c⟩

/-- Moves over a piece of text. -/
def advance (ending : LineEnding) (m : Meter) (segment : List Char) : Except Fault Meter :=
  segment.foldlM (step ending) m

end Meter

/-- The location of the last boundary of `input` that is not after byte `offset`. -/
def Location.locate (ending : LineEnding) (input : String) (offset : Nat) :
    Except Fault Location :=
  (Meter.advance ending (Meter.start origin) (Text.takeBytes offset input.toList)).map
    Meter.location

end ParserKit
