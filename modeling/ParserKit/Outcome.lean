import ParserKit.Fault

/-!
# Outcomes

What a parser answers: a value and the span it was read from, or a failure.
-/

namespace ParserKit

/-- A value read from a span, or the failure to read one. -/
inductive Outcome (α : Type) where
  | done (value : α) (span : Span)
  | failed (failure : Failure)
deriving DecidableEq, Repr

namespace Outcome

variable {α β : Type}

/-- Whether a value was read. -/
def isSuccess : Outcome α → Bool
  | done _ _ => true
  | failed _ => false

/-- Whether no value was read. -/
def isFailure (o : Outcome α) : Bool := !o.isSuccess

/-- The value, or the complaint that there is none. -/
def value : Outcome α → Except AccessError α
  | done v _ => .ok v
  | failed f => .error (.valueOfFailure f.blamed)

/-- The failure, or the complaint that there is none. -/
def failure : Outcome α → Except AccessError Failure
  | done _ _ => .error .failureOfSuccess
  | failed f => .ok f

/-- The span that was read. -/
def span? : Outcome α → Option Span
  | done _ s => some s
  | failed _ => none

/-- Where the read span begins, or the blamed offset. -/
def begin : Outcome α → Offset
  | done _ s => s.begin
  | failed f => f.blamed

/-- Where the read span ends, or the blamed offset. -/
def stop : Outcome α → Offset
  | done _ s => s.stop
  | failed f => f.blamed

/-- The outcome with its value transformed. -/
def map (f : α → β) : Outcome α → Outcome β
  | done v s => done (f v) s
  | failed e => failed e

/-- The outcome with its value transformed by a function that may fault. -/
def mapM (f : α → Except Fault β) : Outcome α → Except Fault (Outcome β)
  | done v s => (f v).map (done · s)
  | failed e => .ok (failed e)

/-- Value and span, or the failure as an error. -/
def toExcept : Outcome α → Except Failure (α × Span)
  | done v s => .ok (v, s)
  | failed f => .error f

/-- Value and span; a failure is a fault. -/
def unwrap : Outcome α → Except Fault (α × Span)
  | done v s => .ok (v, s)
  | failed f => .error (.failureUnwrapped f)

@[simp] theorem map_id (o : Outcome α) : o.map id = o := by cases o <;> rfl

@[simp] theorem map_map {γ : Type} (f : α → β) (g : β → γ) (o : Outcome α) :
    (o.map f).map g = o.map (g ∘ f) := by cases o <;> rfl

@[simp] theorem begin_map (f : α → β) (o : Outcome α) : (o.map f).begin = o.begin := by
  cases o <;> rfl

@[simp] theorem stop_map (f : α → β) (o : Outcome α) : (o.map f).stop = o.stop := by
  cases o <;> rfl

end Outcome

end ParserKit
