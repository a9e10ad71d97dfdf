import ParserKit.Outcome
import ParserKit.Cursor
import ParserKit.Trace

/-!
# Runs

A run leaves a trace and ends in one of two ways: with an answer, or by stopping before there is
one, on a fault or because a bound on the nesting of rules was used up. `Run.andThen` goes on from
an answer and keeps what stopped a run; everything that runs parsers is built with it, so a run
that stopped is never resumed.

A parser is what runs at a cursor and answers with an outcome.
-/

namespace ParserKit

/-- Why a run has no answer. -/
inductive Stop where
  | fault (fault : Fault)
  | outOfFuel
deriving DecidableEq, Repr

/-- The trace of a run and how it ended. -/
structure Run (β : Type) where
  trace : Trace
  ending : Except Stop β

/-- A parser runs at a cursor. It has no state of its own, so it is a function. -/
abbrev Parser (α : Type) := Cursor → Run (Outcome α)

namespace Run

variable {α β γ : Type}

/-- A run that ends at once with the answer `b`. -/
def answer (b : β) : Run β := ⟨.empty, .ok b⟩

/-- A run that reads `v` from `s`. -/
def done (v : α) (s : Span) : Run (Outcome α) := answer (.done v s)

/-- A run that fails. -/
def failed (f : Failure) : Run (Outcome α) := answer (.failed f)

/-- A run that breaks off on a fault. -/
def faulted (f : Fault) : Run β := ⟨.empty, .error (.fault f)⟩

/-- A run that was not allowed to begin. -/
def outOfFuel : Run β := ⟨.empty, .error .outOfFuel⟩

/-- The answer that a computation gives, unless it faults. -/
def ofExcept : Except Fault β → Run β
  | .ok b => answer b
  | .error f => faulted f

/-- Reads `v` from the span of a computation, unless it faults. -/
def doneAt (v : α) : Except Fault Span → Run (Outcome α)
  | .ok s => done v s
  | .error f => faulted f

/-- The same run after the event `e`. -/
@[inline] def after (e : Event) (r : Run β) : Run β := ⟨.single e ++ r.trace, r.ending⟩

/-- Goes on from the answer of `r`; a run that stopped stays stopped. -/
@[inline] def andThen (r : Run β) (k : β → Run γ) : Run γ :=
  match r.ending with
  | .error stop => ⟨r.trace, .error stop⟩
  | .ok b =>
    let rest := k b
    ⟨r.trace ++ rest.trace, rest.ending⟩

/-- The run with its answer transformed. -/
@[inline] def map (f : β → γ) (r : Run β) : Run γ := ⟨r.trace, r.ending.map f⟩

/-- The run of a parser with the value it reads transformed. -/
@[inline] def mapValue {α' : Type} (f : α → α') (r : Run (Outcome α)) : Run (Outcome α') :=
  r.map (Outcome.map f)

@[simp] theorem ending_answer (b : β) : (answer b).ending = .ok b := rfl

@[simp] theorem ending_done (v : α) (s : Span) : (done v s).ending = .ok (.done v s) := rfl

@[simp] theorem ending_failed (f : Failure) :
    (failed f : Run (Outcome α)).ending = .ok (.failed f) := rfl

@[simp] theorem ending_faulted (f : Fault) :
    (faulted f : Run β).ending = .error (.fault f) := rfl

@[simp] theorem ending_after (e : Event) (r : Run β) : (after e r).ending = r.ending := rfl

@[simp] theorem toList_after (e : Event) (r : Run β) :
    (after e r).trace.toList = e :: r.trace.toList := by simp [after]

@[simp] theorem ending_map (f : β → γ) (r : Run β) : (r.map f).ending = r.ending.map f := rfl

@[simp] theorem trace_map (f : β → γ) (r : Run β) : (r.map f).trace = r.trace := rfl

/-- A run goes on exactly if it did not stop, and then ends as what follows ends. -/
theorem ending_andThen (r : Run β) (k : β → Run γ) :
    (r.andThen k).ending = r.ending.bind fun b => (k b).ending := by
  unfold andThen
  split <;> simp_all [Except.bind]

/-- What a run that was gone on from answers, the continuation answers. -/
theorem andThen_eq_ok {r : Run β} {k : β → Run γ} {c : γ} :
    (r.andThen k).ending = .ok c ↔ ∃ b, r.ending = .ok b ∧ (k b).ending = .ok c := by
  rw [ending_andThen]
  cases r.ending <;> simp [Except.bind]

/-- A converted run reads what the run reads, converted, over the same span. -/
theorem mapValue_eq_done {α' : Type} {f : α → α'} {r : Run (Outcome α)} {w : α'} {s : Span} :
    (r.mapValue f).ending = .ok (.done w s) ↔ ∃ v, r.ending = .ok (.done v s) ∧ f v = w := by
  rw [mapValue, ending_map]
  rcases r.ending with stop | ⟨v, t⟩ | e
  · simp [Except.map]
  · constructor
    · intro h
      cases h
      exact ⟨v, rfl, rfl⟩
    · rintro ⟨_, ⟨⟩, rfl⟩
      rfl
  · simp [Except.map, Outcome.map]

/-- A converted run fails exactly as the run does. -/
theorem mapValue_eq_failed {α' : Type} {f : α → α'} {r : Run (Outcome α)} {e : Failure} :
    (r.mapValue f).ending = .ok (.failed e) ↔ r.ending = .ok (.failed e) := by
  rw [mapValue, ending_map]
  rcases r.ending with stop | ⟨v, t⟩ | e' <;> simp [Except.map, Outcome.map]

/-- To close a span reads the value given, if the span is one. -/
theorem doneAt_eq_done {v w : α} {span : Except Fault Span} {s : Span} :
    (doneAt v span).ending = .ok (.done w s) ↔ span = .ok s ∧ v = w := by
  cases span <;> simp [doneAt, and_comm]

/-- To close a span is never a failure, but it may be a fault. -/
theorem doneAt_ne_failed {v : α} {span : Except Fault Span} {e : Failure} :
    (doneAt v span).ending ≠ .ok (.failed e) := by
  cases span <;> simp [doneAt]

/-- Behind a run that did not stop stand the events of what follows. -/
theorem toList_andThen_of_ok {r : Run β} {b : β} (h : r.ending = .ok b) (k : β → Run γ) :
    (r.andThen k).trace.toList = r.trace.toList ++ (k b).trace.toList := by
  simp [andThen, h]

/-- A run that stopped is followed by nothing. -/
theorem toList_andThen_of_error {r : Run β} {stop : Stop} (h : r.ending = .error stop)
    (k : β → Run γ) : (r.andThen k).trace.toList = r.trace.toList := by
  simp [andThen, h]

end Run

/-- The parser with its values transformed. -/
@[inline] def Parser.map {α β : Type} (f : α → β) (p : Parser α) : Parser β := fun c =>
  (p c).mapValue f

end ParserKit
