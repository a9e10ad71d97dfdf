/-!
# Quoted characters and strings

A character is quoted between `'`, a string between `"`. Inside the quotes the quote itself, the
backslash and the four control characters with a name of their own are written with a backslash; a
character that does not show becomes `\u{…}` with the code point in lower case hexadecimal digits;
everything else stands for itself.

Which characters show is a matter of the tables of a character set and their version, and no part
of this library: whatever is quoted is quoted relative to a `Visibility`. Of ASCII all tables say
the same, so a text of such characters is quoted in one way only (`quoteString_of_plain`).
-/

namespace ParserKit.Text

/-- Which characters show: they have a visible form, and it does not sit on the character before
    them. The versions of the tables differ in this, but not among ASCII: there it is the characters
    from the space to the tilde that show. -/
class Visibility where
  shows : Char → Bool
  shows_ascii : ∀ c : Char, c.toNat < 0x80 → (shows c = true ↔ ' ' ≤ c ∧ c ≤ '~')

/-- The least there is to show: the printable characters of ASCII. -/
@[reducible]
def Visibility.ascii : Visibility where
  shows c := ' ' ≤ c && c ≤ '~'
  shows_ascii c _ := by simp

/-- The numeric escape of a code point: no leading zeros, lower case digits. -/
def numericEscape (c : Char) : List Char :=
  ['\\', 'u', '\x7b'] ++ Nat.toDigits 16 c.toNat ++ ['\x7d']

/-- How `c` is written between two quotes `quote`. -/
def escape [Visibility] (quote c : Char) : List Char :=
  if c = '\x00' then ['\\', '0']
  else if c = '\t' then ['\\', 't']
  else if c = '\r' then ['\\', 'r']
  else if c = '\n' then ['\\', 'n']
  else if c = '\\' || c = quote then ['\\', c]
  else if Visibility.shows c then [c]
  else numericEscape c

/-- The characters of `s`, each written as `escape` says, between two quotes. -/
def quoteWith [Visibility] (quote : Char) (s : List Char) : String :=
  String.ofList (quote :: (s.flatMap (escape quote) ++ [quote]))

/-- A character between single quotes. -/
def quoteChar [Visibility] (c : Char) : String := quoteWith '\'' [c]

/-- A string between double quotes. -/
def quoteString [Visibility] (s : String) : String := quoteWith '"' s.toList

/-! ## Plain text -/

/-- A printable character of ASCII that needs no backslash in a quoted string. -/
def Plain (c : Char) : Prop := ' ' ≤ c ∧ c ≤ '~' ∧ c ≠ '"' ∧ c ≠ '\\'

instance (c : Char) : Decidable (Plain c) :=
  inferInstanceAs (Decidable (' ' ≤ c ∧ c ≤ '~' ∧ c ≠ '"' ∧ c ≠ '\\'))

/-- A plain character is none of the control characters, which come before the space. -/
theorem Plain.ne_of_lt {c d : Char} (h : Plain c) (hd : d < ' ') : c ≠ d := by
  rintro rfl
  exact Char.not_le.2 hd h.1

/-- Whatever the tables are, a plain character stands for itself in a quoted string. -/
theorem escape_of_plain [Visibility] {c : Char} (h : Plain c) : escape '"' c = [c] := by
  have hcontrol : c ≠ '\x00' ∧ c ≠ '\t' ∧ c ≠ '\r' ∧ c ≠ '\n' :=
    ⟨h.ne_of_lt (by decide), h.ne_of_lt (by decide), h.ne_of_lt (by decide),
      h.ne_of_lt (by decide)⟩
  obtain ⟨hlo, hhi, hquote, hbackslash⟩ := h
  have hascii : c.toNat < 0x80 := Nat.lt_of_le_of_lt hhi (by decide)
  have hshows : Visibility.shows c = true := (Visibility.shows_ascii c hascii).2 ⟨hlo, hhi⟩
  simp [escape, hcontrol, hquote, hbackslash, hshows]

/-- A plain text is quoted by putting it between quotes. -/
theorem quoteString_of_plain [Visibility] {s : String} (h : ∀ c ∈ s.toList, Plain c) :
    quoteString s = "\"" ++ s ++ "\"" := by
  have hflat : s.toList.flatMap (escape '"') = s.toList := by
    have hself : ∀ c ∈ s.toList, escape '"' c = [c] := fun c hc => escape_of_plain (h c hc)
    rw [List.flatMap_def, List.map_congr_left hself, ← List.flatMap_def]
    exact List.flatMap_singleton' _
  rw [quoteString, quoteWith, hflat, ← String.toList_inj]
  simp

end ParserKit.Text
