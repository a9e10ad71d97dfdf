import Mathlib.Data.Prod.Lex
import ParserKit.Proofs.Locating

/-!
# The order of locations

A meter only moves on: with every character either a line is ended, and the next one is begun, or
there is one column more. So line and column, compared in this order, grow with the offset. Two
offsets of a text are located at one place if they lie behind the same whole characters, and else
the later one is located further on, whatever ends a line.

## Key results

- `Meter.advance_induction`: induction on the text that a meter moves over
- `Meter.place_lt_of_advance`: over any text but the empty one, a meter comes further
- `Location.locate_order`: later offsets are located at the same place, or further on
-/

namespace ParserKit

namespace Text

/-- With more bytes, no less is taken. -/
theorem takeBytes_isPrefix_of_le {m n : Nat} (h : m ≤ n) (cs : List Char) :
    takeBytes m cs <+: takeBytes n cs := by
  induction cs generalizing m n with
  | nil => exact List.prefix_refl _
  | cons c cs ih =>
    by_cases hfits : c.utf8Size ≤ m
    · rw [takeBytes, takeBytes, if_pos hfits, if_pos (Nat.le_trans hfits h), List.cons_prefix_cons]
      exact ⟨rfl, ih (by omega)⟩
    · rw [takeBytes, if_neg hfits]
      exact List.nil_prefix

/-- With as many bytes as some first characters take, just these are taken. -/
theorem takeBytes_width_append (ws cs : List Char) : takeBytes (width ws) (ws ++ cs) = ws := by
  induction ws with
  | nil =>
    cases cs with
    | nil => rfl
    | cons c cs =>
      have hc := c.utf8Size_pos
      rw [List.nil_append, width_nil, takeBytes, if_neg (by omega)]
  | cons w ws ih =>
    rw [width_cons, List.cons_append, takeBytes, if_pos (by omega), Nat.add_sub_cancel_left, ih]

end Text

namespace Location

/-- Line and column, to be compared in this order. -/
def place (l : Location) : ℕ ×ₗ ℕ := toLex (l.line.val, l.column.val)

/-- A place is before another one if its line is, or if it is further left in the same line. -/
theorem place_lt_iff {l m : Location} :
    l.place < m.place ↔
      l.line.val < m.line.val ∨ l.line.val = m.line.val ∧ l.column.val < m.column.val :=
  Prod.Lex.toLex_lt_toLex

end Location

namespace Meter

variable {ending : LineEnding} {m m' : Meter} {c : Char} {s t : List Char}

/-- With every character, a meter comes further. -/
theorem place_lt_of_step (h : step ending m c = .ok m') :
    m.location.place < m'.location.place := by
  rw [Location.place_lt_iff]
  obtain ⟨-, -, ⟨-, hline, -⟩ | ⟨-, hline, hcolumn⟩⟩ := step_cases h
  · left
    omega
  · right
    rw [hline]
    omega

/-- A meter moves over a text character by character. -/
theorem advance_cons_eq_ok :
    advance ending m (c :: s) = .ok m' ↔
      ∃ m₁, step ending m c = .ok m₁ ∧ advance ending m₁ s = .ok m' := by
  rw [advance, List.foldlM_cons]
  cases step ending m c <;> simp [advance, bind, Except.bind]

/-- To prove something of every meter and every text that it moves over, prove it of the empty text,
    and of a character and a text behind it if it holds of that text. -/
@[elab_as_elim]
theorem advance_induction
    {motive : ∀ {m m' : Meter} {s : List Char}, advance ending m s = .ok m' → Prop}
    (nil : ∀ m : Meter, motive (m := m) (s := []) rfl)
    (cons : ∀ {m m₁ m' : Meter} {c : Char} {s : List Char} (hstep : step ending m c = .ok m₁)
      (hrest : advance ending m₁ s = .ok m'),
      motive hrest → motive (advance_cons_eq_ok.2 ⟨m₁, hstep, hrest⟩))
    {m m' : Meter} {s : List Char} (h : advance ending m s = .ok m') : motive h := by
  -- on the text; the meter changes from character to character
  induction s generalizing m with
  | nil =>
    cases h
    exact nil m'
  | cons c s ih =>
    obtain ⟨m₁, hstep, hrest⟩ := advance_cons_eq_ok.1 h
    exact cons hstep hrest (ih hrest)

/-- A meter moves over two texts one after the other, or faults in one of them. -/
theorem advance_append (ending : LineEnding) (m : Meter) (s t : List Char) :
    advance ending m (s ++ t) = advance ending m s >>= fun m₁ => advance ending m₁ t := by
  simp only [advance, List.foldlM_append]

/-- Over two texts a meter comes by the first and then the second. -/
theorem advance_append_eq_ok :
    advance ending m (s ++ t) = .ok m' ↔
      ∃ m₁, advance ending m s = .ok m₁ ∧ advance ending m₁ t = .ok m' := by
  rw [advance_append]
  cases advance ending m s <;> simp [bind, Except.bind]

/-- A meter moves on by the bytes of the text. -/
theorem offset_of_advance (h : advance ending m s = .ok m') :
    m'.location.offset.val = m.location.offset.val + Text.width s := by
  induction h using advance_induction with
  | nil m => simp
  | cons hstep hrest ih =>
    have hfirst := (step_cases hstep).2.1
    rw [Text.width_cons]
    omega

/-- A meter never goes back. -/
theorem place_le_of_advance (h : advance ending m s = .ok m') :
    m.location.place ≤ m'.location.place := by
  induction h using advance_induction with
  | nil m => exact le_refl _
  | cons hstep hrest ih => exact le_trans (le_of_lt (place_lt_of_step hstep)) ih

/-- Over any text but the empty one, a meter comes further. -/
theorem place_lt_of_advance (hs : s ≠ []) (h : advance ending m s = .ok m') :
    m.location.place < m'.location.place := by
  cases s with
  | nil => exact absurd rfl hs
  | cons c s =>
    obtain ⟨m₁, hstep, hrest⟩ := advance_cons_eq_ok.1 h
    exact lt_of_lt_of_le (place_lt_of_step hstep) (place_le_of_advance hrest)

end Meter

namespace Location

variable {ending : LineEnding} {input : String} {l m : Location} {o p : Nat}

/-- What is located is where a meter comes to over the whole characters before the offset. -/
theorem locate_eq_ok_iff :
    locate ending input o = .ok l ↔
      ∃ r, Meter.advance ending (Meter.start origin) (Text.takeBytes o input.toList) = .ok r ∧
        r.location = l := by
  rw [locate]
  cases Meter.advance ending (Meter.start origin) (Text.takeBytes o input.toList) <;>
    simp [Except.map]

/-- A later offset is located at the same place, or further on in the text and further down or to
    the right. -/
theorem locate_order (hl : locate ending input o = .ok l) (hm : locate ending input p = .ok m)
    (h : o ≤ p) : l = m ∨ l.offset.val < m.offset.val ∧ l.place < m.place := by
  obtain ⟨first, hfirst, rfl⟩ := locate_eq_ok_iff.1 hl
  obtain ⟨last, hlast, rfl⟩ := locate_eq_ok_iff.1 hm
  -- the meter for the later offset comes past the earlier one and goes on from there
  obtain ⟨between, hsplit⟩ := Text.takeBytes_isPrefix_of_le h input.toList
  rw [← hsplit, Meter.advance_append_eq_ok] at hlast
  obtain ⟨_, hagain, hbetween⟩ := hlast
  rw [hfirst] at hagain
  cases hagain
  -- if no whole character is between the offsets, the meter stands still
  by_cases hnil : between = []
  · left
    subst hnil
    cases hbetween
    rfl
  · right
    have hoffset := Meter.offset_of_advance hbetween
    have hlen := Text.length_le_width between
    have hpos := List.length_pos_of_ne_nil hnil
    exact ⟨by omega, Meter.place_lt_of_advance hnil hbetween⟩

end Location

end ParserKit
