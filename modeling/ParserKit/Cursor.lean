import ParserKit.Fault

/-!
# Cursors

A cursor is a text with a byte offset. The offset is not tied to the text: it may lie past the end
or inside a character, and then there is nothing to read and nothing to match but the empty word.
Moving a cursor gives another one; the text is never cut. A loop that only moves on is reasoned
about by `Cursor.forward_induction`.
-/

namespace ParserKit

/-- A text and an offset into it. -/
structure Cursor where
  input : String
  offset : Offset
deriving DecidableEq

namespace Cursor

/-- The cursor at the start of `input`. -/
def start (input : String) : Cursor := ⟨input, Offset.zero⟩

/-- The character that begins at the cursor. -/
def peek (c : Cursor) : Option Char := Text.charAt? c.input c.offset.val

/-- Whether the cursor is at the end of its text or past it. -/
def ended (c : Cursor) : Bool := c.input.utf8ByteSize ≤ c.offset.val

/-- The cursor `n` bytes further on. -/
def advanceBy (c : Cursor) (n : Nat) : Except Fault Cursor :=
  (Offset.add c.offset n).map fun o => ⟨c.input, o⟩

/-- The cursor at another offset of the same text. -/
def moveTo (c : Cursor) (o : Offset) : Cursor := ⟨c.input, o⟩

/-- The text from the cursor on; nothing where no character begins. -/
def remaining (c : Cursor) : String := Text.dropTo c.input c.offset.val

/-- Whether the characters `w` stand from byte `o` of `input` on. -/
def startsWithAt (input : String) (o : Nat) : List Char → Bool
  | [] => true
  | c :: w => Text.charAt? input o == some c && startsWithAt input (o + c.utf8Size) w

/-- Whether the text from the cursor on starts with `w`. -/
def startsWith (c : Cursor) (w : String) : Bool := startsWithAt c.input c.offset.val w.toList

@[simp] theorem moveTo_input (c : Cursor) (o : Offset) : (c.moveTo o).input = c.input := rfl

@[simp] theorem moveTo_offset (c : Cursor) (o : Offset) : (c.moveTo o).offset = o := rfl

@[simp] theorem moveTo_moveTo (c : Cursor) (o p : Offset) :
    (c.moveTo o).moveTo p = c.moveTo p := rfl

@[simp] theorem moveTo_self (c : Cursor) : c.moveTo c.offset = c := rfl

/-- To prove something of every cursor, prove it of one from the same of all cursors further on in
    its text. -/
@[elab_as_elim]
theorem forward_induction {motive : Cursor → Prop}
    (further : ∀ c : Cursor, (∀ o : Offset, c.offset.val < o.val → motive (c.moveTo o)) → motive c)
    (c : Cursor) : motive c := by
  obtain ⟨input, o⟩ := c
  induction o using Offset.forward_induction with
  | further o ih => exact further ⟨input, o⟩ ih

end Cursor

end ParserKit
