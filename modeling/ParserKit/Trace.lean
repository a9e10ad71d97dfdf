import ParserKit.Event

/-!
# Traces

A trace is a sequence of events that can be joined to another in constant time; its view is the
list of its events. Main statements: `toList_append` and `toList_single`, through which every
fact about a trace is a fact about a list.
-/

namespace ParserKit

/-- A sequence of events, joined but not yet laid out. -/
inductive Trace where
  | empty
  | single (e : Event)
  | both (s t : Trace)

namespace Trace

/-- Joins two traces; nothing is built for one without events. -/
protected def append : Trace → Trace → Trace
  | empty, t => t
  | s, empty => s
  | s, t => both s t

instance : Append Trace := ⟨Trace.append⟩

/-- The events of the trace, followed by `rest`. -/
def onto : Trace → List Event → List Event
  | empty, rest => rest
  | single e, rest => e :: rest
  | both s t, rest => s.onto (t.onto rest)

/-- The events in the order in which they happened. -/
def toList (t : Trace) : List Event := t.onto []

/-- To lay a trace out before a list is to put its events before that list. -/
theorem onto_eq (t : Trace) (rest : List Event) : t.onto rest = t.toList ++ rest := by
  unfold toList
  induction t generalizing rest with
  | empty => rfl
  | single e => rfl
  | both s t ihs iht => simp only [onto]; rw [ihs, iht, ihs (t.onto []), List.append_assoc]

@[simp] theorem toList_empty : empty.toList = [] := rfl

@[simp] theorem toList_single (e : Event) : (single e).toList = [e] := rfl

@[simp] theorem toList_both (s t : Trace) : (both s t).toList = s.toList ++ t.toList := by
  simp only [toList, onto]
  rw [onto_eq s]
  rfl

/-- The view of two traces joined, whether or not one of them is empty. -/
@[simp] theorem toList_append (s t : Trace) : (s ++ t).toList = s.toList ++ t.toList := by
  change (Trace.append s t).toList = _
  unfold Trace.append
  split <;> simp

/-- The trace of a list of events. -/
def ofList (events : List Event) : Trace := events.foldr (fun e t => single e ++ t) empty

@[simp] theorem toList_ofList (events : List Event) : (ofList events).toList = events := by
  induction events with
  | nil => rfl
  | cons e es ih => simpa [ofList] using ih

/-- The log lines of a list of events. -/
def records [Text.Visibility] (events : List Event) : List String := events.filterMap Event.record?

/-- How often the action of a rule ran. -/
def actions (rule : String) (events : List Event) : Nat := events.count (.acted rule)

/-- The watched attempts, each with the offset at which it was made. -/
def attempts (events : List Event) : List (String × Offset) :=
  events.filterMap fun
    | .tried label position => some (label, position)
    | _ => none

end Trace

end ParserKit
