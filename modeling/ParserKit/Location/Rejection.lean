import ParserKit.Location.Basic

/-!
# Rejections

A rejection is a failure located in the text it was met in. Offsets that lie inside a character or
past the end are located at the boundary before them, so two different offsets may share a
location; the furthest one is mentioned only where its location is further on.
-/

namespace ParserKit

/-- A failure with the locations of the two offsets it names. -/
structure Rejection where
  failure : Failure
  blamed : Location
  furthest : Location
deriving DecidableEq, Repr

namespace Rejection

/-- Locates a failure in `input`. -/
def locate (ending : LineEnding) (input : String) (f : Failure) : Except Fault Rejection := do
  let blamed ← Location.locate ending input f.blamed.val
  let furthest ← Location.locate ending input f.furthest.val
  return ⟨f, blamed, furthest⟩

/-- The rejection as a sentence. -/
def message [Text.Visibility] (r : Rejection) : Except Fault String := do
  let blamed ← r.blamed.text
  let reach ←
    if r.blamed.offset.val < r.furthest.offset.val then
      (r.furthest.text).map fun furthest => s!" (furthest {furthest})"
    else pure ""
  return s!"expected {r.failure.expected.text} at {blamed}{reach}"

end Rejection

/-- Why a text was not parsed. -/
inductive Refusal where
  /-- The grammar is malformed, so nothing was read. -/
  | malformed (flaw : GrammarFlaw)
  /-- The text does not match the grammar. -/
  | rejected (rejection : Rejection)
deriving DecidableEq, Repr

namespace Refusal

/-- The rejection, if the grammar was well formed. -/
def rejection? : Refusal → Option Rejection
  | malformed _ => none
  | rejected r => some r

/-- The failure behind the refusal, if the grammar was well formed. -/
def failure? (r : Refusal) : Option Failure := r.rejection?.map Rejection.failure

/-- The refusal as a sentence. -/
def message [Text.Visibility] : Refusal → Except Fault String
  | malformed flaw => .ok s!"malformed grammar: {flaw.message}"
  | rejected r => r.message

end Refusal

end ParserKit
