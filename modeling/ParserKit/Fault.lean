import ParserKit.Alternatives
import ParserKit.Failure

/-!
# Faults and errors

A *fault* breaks off what is being computed: a sum that does not fit, a span turned around, a tag
with no alternative. The other errors are answers: a grammar may be malformed (`GrammarFlaw`), and
a value may be asked for what it does not hold (`AccessError`).

The operations that can fault are here too, each with the fault it raises.
-/

namespace ParserKit

/-- What breaks off a computation. -/
inductive Fault where
  /-- A sum is past the largest number of its width. -/
  | overflow
  /-- A span would begin after it ends. -/
  | spanReversed (begin stop : Offset)
  /-- The value of a failed parse was taken for granted. -/
  | failureUnwrapped (failure : Failure)
  /-- No alternative has this tag. -/
  | tagOutOfRange (tag count : Nat)
  /-- A variant was put together with a tag that no alternative has. -/
  | tagUnknown
  /-- A type occurs twice where alternatives were promised to be distinct. -/
  | ambiguous (duplicate : Duplicate)
deriving DecidableEq, Repr

/-- The words a fault is reported in. -/
def Fault.message [Text.Visibility] : Fault → String
  | .overflow => "attempt to add with overflow"
  | .spanReversed begin stop => s!"span begins after it ends: {begin.val}..{stop.val}"
  | .failureUnwrapped failure =>
    s!"called ParseResult::unwrap on a Fail value; Failure: {failure.text}."
  | .tagOutOfRange tag count => s!"tag {tag} out of range for {count} alternatives"
  | .tagUnknown => "assertion failed: tag < U::LEN"
  | .ambiguous duplicate => duplicate.text

/-- What makes a grammar malformed. -/
inductive GrammarFlaw where
  /-- A range whose lower bound is above its upper bound matches nothing. -/
  | emptyRange (lo hi : Char)
  /-- Two alternatives of a tagged choice produce the same type. -/
  | duplicateAlternative (duplicate : Duplicate)
deriving DecidableEq, Repr

/-- The words a malformed grammar is reported in. -/
def GrammarFlaw.message [Text.Visibility] : GrammarFlaw → String
  | .emptyRange lo hi =>
    s!"empty range: {Text.quoteChar lo} is greater than {Text.quoteChar hi}"
  | .duplicateAlternative d =>
    s!"alternatives {d.first} and {d.second} of a tagged alternative both produce `{d.typeName}`"

/-- Asking a value for what it does not hold. -/
inductive AccessError where
  /-- A failed parse has no value. -/
  | valueOfFailure (blamed : Offset)
  /-- A successful parse has no failure. -/
  | failureOfSuccess
  /-- A variant holds another alternative than the requested one. -/
  | wrongAlternative (requested active : Nat)
  /-- No alternative has this tag. -/
  | tagOutOfRange (tag count : Nat)
deriving DecidableEq, Repr

/-- The words an access error is reported in. -/
def AccessError.message : AccessError → String
  | .valueOfFailure blamed =>
    s!"read the value of a failed parse (failed at offset {blamed.val})"
  | .failureOfSuccess => "read the failure of a successful parse"
  | .wrongAlternative requested active =>
    s!"alternative {requested} was requested but alternative {active} is active"
  | .tagOutOfRange tag count => s!"tag {tag} is out of range for {count} alternatives"

/-! ## Operations that can fault -/

/-- The sum of an offset and a count. -/
def Offset.add (a : Offset) (n : Nat) : Except Fault Offset :=
  match Offset.add? a n with
  | some b => .ok b
  | none => .error .overflow

/-- The sum of two 64-bit signed integers. -/
def addSigned (a b : Int) : Except Fault Int :=
  if -0x8000000000000000 ≤ a + b ∧ a + b < 0x8000000000000000 then .ok (a + b) else .error .overflow

/-- The span from `begin` to `stop`. -/
def Span.between (begin stop : Offset) : Except Fault Span :=
  if h : begin.val ≤ stop.val then .ok ⟨begin, stop, h⟩ else .error (.spanReversed begin stop)

/-- The span of `n` bytes from `begin` on. -/
def Span.ofLength (begin : Offset) (n : Nat) : Except Fault Span := do
  let stop ← Offset.add begin n
  Span.between begin stop

end ParserKit
