/-!
# Text by byte offset

Reading a string at a byte offset that may lie anywhere: on a character boundary, inside a
character, or past the end. Only a boundary has something to read.
-/

namespace ParserKit.Text

/-- The character that begins at byte `o`; none inside a character, at the end or past it. -/
def charAt? (s : String) (o : Nat) : Option Char :=
  (s.pos? ⟨o⟩).bind String.Pos.get?

/-- Whether a character of `s` begins at byte `o`, or `s` ends there. -/
def isBoundary (s : String) (o : Nat) : Bool :=
  (s.pos? ⟨o⟩).isSome

/-- The text from byte `b` up to byte `e`, if both are boundaries and in this order. -/
def slice? (s : String) (b e : Nat) : Option String := do
  let p ← s.pos? ⟨b⟩
  let q ← s.pos? ⟨e⟩
  if p ≤ q then some (String.extract p q) else none

/-- The text from byte `o` on; nothing where no character begins. -/
def dropTo (s : String) (o : Nat) : String :=
  (slice? s o s.utf8ByteSize).getD ""

/-- The longest run of whole characters from the start that takes at most `n` bytes. -/
def takeBytes : Nat → List Char → List Char
  | _, [] => []
  | n, c :: cs => if c.utf8Size ≤ n then c :: takeBytes (n - c.utf8Size) cs else []

end ParserKit.Text
