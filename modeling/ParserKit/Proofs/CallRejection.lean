import ParserKit.Proofs.Blame
import ParserKit.Proofs.CallLanguage

/-!
# What the call grammar says of other texts

A text that is not a program is rejected in one of two ways. Where neither a letter nor a digit
stands at its start, no expression is read, and the parse came nowhere. Otherwise an expression is
read, and the end of the text is missed behind it. Since a letter before anything that is not a call
is read as a variable, all that went wrong inside a call is forgotten, and the parse never came
further than what it blames.

What is read is the longest expression that stands there: a call is tried before a variable and is
read whatever follows it (`reads_expr`), and one text is read in one way only.

## Key results

- `isLongest_of_readsExpr`: no longer expression stands where one is read
- `blames_program_of_head`, `blames_program_of_rest`: the two ways to miss a program
- `parseText_program_rejected`: what is said of a text that is not a program
-/

namespace ParserKit.Sample

namespace Expr

variable {cs rest : List Char}

/-- An expression before `rest` is its characters before `rest`. -/
theorem charsOnto_eq (e : Expr) (rest : List Char) : e.charsOnto rest = e.chars ++ rest := by
  unfold chars
  induction e generalizing rest with
  | call name left right ihl ihr =>
    -- both arguments stand before something else in the two texts
    simp only [charsOnto, List.cons_append]
    rw [ihl, ihl (',' :: _), ihr, ihr (')' :: [])]
    simp
  | literal value => simp [charsOnto]
  | var name => rfl

/-- A literal of one digit and a variable are one character. -/
theorem length_chars_eq_one {e : Expr} (he : e.WellFormed)
    (hcall : ∀ name left right, e ≠ .call name left right) : e.chars.length = 1 := by
  cases e with
  | call name left right => exact absurd rfl (hcall name left right)
  | literal value =>
    obtain ⟨c, hdigits, -⟩ := toDigits_eq_digit he
    simp [chars, charsOnto, hdigits]
  | var name => rfl

/-- An expression is at least one character. -/
theorem length_chars_pos (e : Expr) : 0 < e.chars.length := by
  have hlt := e.length_lt_length_charsOnto []
  simpa [chars] using hlt

/-! ## Bytes -/

/-- Up to the small letters, every character is one byte. -/
theorem utf8Size_of_le {c : Char} (h : c ≤ 'z') : c.utf8Size = 1 := by
  rw [Char.utf8Size_eq_one_iff]
  simp only [Char.le_def, UInt32.le_iff_toNat_le] at h ⊢
  have hz : 'z'.val.toNat = 122 := rfl
  have hlast : (127 : UInt32).toNat = 127 := rfl
  omega

/-- Every character of an expression is one byte. -/
theorem width_charsOnto {e : Expr} (he : e.WellFormed) (rest : List Char) :
    Text.width (e.charsOnto rest) + rest.length = (e.charsOnto rest).length + Text.width rest := by
  -- names, digits, brackets and the comma are one byte each
  induction e generalizing rest with
  | call name left right ihl ihr =>
    obtain ⟨⟨-, hname⟩, hleft, hright⟩ := he
    have hsize := utf8Size_of_le hname
    have hopen : '('.utf8Size = 1 := rfl
    have hcomma : ','.utf8Size = 1 := rfl
    have hclose : ')'.utf8Size = 1 := rfl
    have hl := ihl hleft (',' :: right.charsOnto (')' :: rest))
    have hr := ihr hright (')' :: rest)
    simp only [charsOnto, Text.width_cons, List.length_cons] at hl hr ⊢
    omega
  | literal value =>
    obtain ⟨c, hdigits, ⟨-, hc⟩, -⟩ := toDigits_eq_digit he
    have hsize := utf8Size_of_le (Char.le_trans hc (by decide))
    simp only [charsOnto, hdigits, List.singleton_append, Text.width_cons, List.length_cons]
    omega
  | var name =>
    have hsize := utf8Size_of_le he.2
    simp only [charsOnto, Text.width_cons, List.length_cons]
    omega

/-- An expression takes as many bytes as it has characters. -/
theorem width_chars {e : Expr} (he : e.WellFormed) : Text.width e.chars = e.chars.length := by
  simpa [chars] using width_charsOnto he []

/-! ## Where an expression stands -/

/-- A small letter or a digit stands first. -/
def Starts (cs : List Char) : Prop :=
  ∃ c, cs.head? = some c ∧ (('a' ≤ c ∧ c ≤ 'z') ∨ ('0' ≤ c ∧ c ≤ '9'))

/-- The expression stands at the start of the text, and no longer one does. -/
def IsLongest (e : Expr) (cs : List Char) : Prop :=
  (e.WellFormed ∧ e.chars <+: cs) ∧
    ∀ e' : Expr, e'.WellFormed → e'.chars <+: cs → e'.chars.length ≤ e.chars.length

end Expr

namespace CallRule

open ParserKit.Parser (Reads Fails Blames)

variable {input : String} {cs rest : List Char} {v : Value Expr}

/-- The expression that is read is the longest one that stands there. -/
theorem isLongest_of_readsExpr (hsize : input.utf8ByteSize < 2 ^ 64) {o : Offset}
    (ho : Text.Before input o.val cs) {e : Expr} (h : ReadsExpr input cs e rest) :
    e.IsLongest cs := by
  obtain ⟨hwell, hstands, hread⟩ := h
  rw [Expr.charsOnto_eq] at hstands
  -- it stands there; that none is longer is shown for calls and for single characters
  refine ⟨⟨hwell, rest, hstands.symm⟩, ?_⟩
  intro e' hwell' hprefix
  obtain ⟨rest', hstands'⟩ := hprefix
  by_cases hcall : ∃ name left right, e' = .call name left right
  · -- a call is read, whatever follows, so it is what was read
    obtain ⟨name, left, right, rfl⟩ := hcall
    have hread' :
        Reads input (book.run (.rule .expr)) cs (.made (.call name left right)) rest' := by
      rw [← hstands', ← Expr.charsOnto_eq]
      apply reads_expr hsize hwell'
      intro x hx
      cases hx
    obtain ⟨hsame, -⟩ := Parser.Reads.unique ho hread hread'
    cases hsame
    exact Nat.le_refl _
  · -- anything else is one character, and no expression is less
    have hone : e'.chars.length = 1 := Expr.length_chars_eq_one hwell' fun name left right he =>
      hcall ⟨name, left, right, he⟩
    have hpos := e.length_chars_pos
    omega

/-! ## Who is blamed -/

/-- Where neither a letter nor a digit stands, an expression is missed at once. -/
theorem blames_expr_of_head (h : ¬ Expr.Starts cs) :
    Blames input (book.run (.rule .expr)) cs .alternative cs cs := by
  have hletter : ∀ x, cs.head? = some x → ¬ ('a' ≤ x ∧ x ≤ 'z') :=
    fun x hx hin => h ⟨x, hx, .inl hin⟩
  have hdigit : ∀ x, cs.head? = some x → ¬ ('0' ≤ x ∧ x ≤ '9') :=
    fun x hx hin => h ⟨x, hx, .inr hin⟩
  -- the three branches, each of which begins with a letter or a digit
  have hcall : Blames input (book.run (.rule .call)) cs (.range 'a' 'z') cs cs :=
    book.blames_rule .call (Rulebook.blames_sequence (.here (Rulebook.blames_range hletter)))
  have hliteral : Blames input (book.run (.rule .literal)) cs (.range '0' '9') cs cs :=
    book.blames_rule .literal (Rulebook.blames_range hdigit)
  have hvar : Blames input (book.run (.rule .var)) cs (.range 'a' 'z') cs cs :=
    book.blames_rule .var (Rulebook.blames_range hletter)
  -- all three are missed at the start, so none of them came further
  refine book.blames_rule .expr (Rulebook.blames_unified rfl ?_ ?_ (Nat.le_refl _))
  · intro g hg
    simp only [List.mem_cons, List.not_mem_nil, or_false] at hg
    rcases hg with rfl | rfl | rfl
    · exact ⟨_, _, cs, hcall, Nat.le_refl _⟩
    · exact ⟨_, _, cs, hliteral, Nat.le_refl _⟩
    · exact ⟨_, _, cs, hvar, Nat.le_refl _⟩
  · exact ⟨.rule .call, by simp, _, _, hcall⟩

/-- Without an expression a program is missed at once. -/
theorem blames_program_of_head (h : ¬ Expr.Starts cs) :
    Blames input (book.run (.rule .program)) cs .alternative cs cs :=
  book.blames_rule .program (Rulebook.blames_sequence (.here (blames_expr_of_head h)))

/-- Behind an expression nothing may follow. -/
theorem blames_program_of_rest (h : Reads input (book.run (.rule .expr)) cs v rest)
    (hrest : rest ≠ []) :
    Blames input (book.run (.rule .program)) cs .endOfInput rest rest :=
  book.blames_rule .program (Rulebook.blames_sequence
    (.later h (.here (Rulebook.blames_endOfInput hrest))))

/-! ## What is said -/

section

variable {ending : LineEnding} {s : String} {r : Rejection}
  (hr : (book.parseText ending (.rule .program) s).ending = .ok (.error (.rejected r)))

include hr

/-- Where neither a letter nor a digit stands, the start is blamed, and the parse came nowhere. -/
theorem says_of_not_starts (hstarts : ¬ Expr.Starts s.toList) :
    r.failure.Says .alternative 0 0 := by
  have hblames : Blames s (book.run (.rule .program)) s.toList .alternative s.toList s.toList :=
    blames_program_of_head hstarts
  have hall : s.toList = [] ++ s.toList := rfl
  exact Rulebook.failure_of_blames hblames hr hall hall

/-- Where an expression is read, the end of the text is missed behind it. -/
theorem says_of_readsExpr (hsize : s.utf8ByteSize < 2 ^ 64) {e : Expr} {rest : List Char}
    (h : ReadsExpr s s.toList e rest) :
    r.failure.Says .endOfInput e.chars.length e.chars.length := by
  obtain ⟨hwell, hstands, hread⟩ := h
  rw [Expr.charsOnto_eq] at hstands
  -- an expression that is all there is would be a program
  have hrest : rest ≠ [] := by
    rintro rfl
    have htext : s = e.text := by
      rw [Expr.text, ← List.append_nil e.chars, ← hstands, String.ofList_toList]
    have haccepted := (recognizes_program.parseText_eq_iff ending hsize).2
      ⟨⟨e, hwell, htext, rfl⟩, rfl⟩
    rw [hr] at haccepted
    cases haccepted
  have hsaid := Rulebook.failure_of_blames (blames_program_of_rest hread hrest) hr hstands hstands
  rwa [Expr.width_chars hwell] at hsaid

end

/-- A text that is not a program is rejected. If neither a small letter nor a digit stands at its
    start, one of the alternatives is expected there. Otherwise the end of the text is expected
    behind the longest expression that it begins with, which is a single character unless it begins
    with a call. Either way the parse came no further than what is blamed, however deep in a call
    the mistake was. -/
theorem parseText_program_rejected (ending : LineEnding) (s : String)
    (hsize : s.utf8ByteSize < 2 ^ 64)
    (h : ∀ v span, (book.parseText ending (.rule .program) s).ending ≠ .ok (.ok (v, span))) :
    ∃ r, (book.parseText ending (.rule .program) s).ending = .ok (.error (.rejected r)) ∧
      ((¬ Expr.Starts s.toList ∧ r.failure.Says .alternative 0 0) ∨
        (Expr.Starts s.toList ∧ ∃ e : Expr, e.IsLongest s.toList ∧
          r.failure.Says .endOfInput e.chars.length e.chars.length ∧
          ((∀ name left right, (Expr.call name left right).WellFormed →
            ¬ (Expr.call name left right).chars <+: s.toList) → e.chars.length = 1))) ∧
      r.failure.furthest = r.failure.blamed := by
  obtain ⟨-, r, hr⟩ := recognizes_program.rejected_of_not_accepted ending hsize h
  refine ⟨r, hr, ?_⟩
  -- behind a letter or a digit an expression is always read, so what is missed is the end
  by_cases hstarts : Expr.Starts s.toList
  · obtain ⟨c, hhead, hc⟩ := hstarts
    obtain ⟨tail, hs⟩ := List.head?_eq_some_iff.1 hhead
    obtain ⟨e, rest, hread⟩ := exists_expr_of_head hsize hc tail
    rw [← hs] at hread
    have hlongest := isLongest_of_readsExpr hsize (o := Offset.zero) (Text.before_zero s) hread
    have hsaid := says_of_readsExpr hr hsize hread
    -- the longest expression is a call if the text begins with any
    have hshort (hnone : ∀ name left right, (Expr.call name left right).WellFormed →
        ¬ (Expr.call name left right).chars <+: s.toList) : e.chars.length = 1 := by
      obtain ⟨⟨hwell, hprefix⟩, -⟩ := hlongest
      apply Expr.length_chars_eq_one hwell
      intro name left right he
      rw [he] at hwell hprefix
      exact hnone name left right hwell hprefix
    exact ⟨.inr ⟨⟨c, hhead, hc⟩, e, hlongest, hsaid, hshort⟩, hsaid.furthest_eq_blamed⟩
  · have hsaid := says_of_not_starts hr hstarts
    exact ⟨.inl ⟨hstarts, hsaid⟩, hsaid.furthest_eq_blamed⟩

/-- The last bracket is missing, nine characters on, but only the name of the call is read. -/
theorem parseText_program_rejected_unclosed :
    (∀ v span, (book.parseText .lf (.rule .program) "f(g(x,1),y").ending ≠
      .ok (.ok (v, span))) ∧
    ∃ r, (book.parseText .lf (.rule .program) "f(g(x,1),y").ending =
        .ok (.error (.rejected r)) ∧
      r.failure.Says .endOfInput 1 1 ∧ r.failure.furthest = r.failure.blamed ∧
      ∃ e : Expr, e.IsLongest "f(g(x,1),y".toList ∧ e.chars.length = 1 := by
  have hsize : "f(g(x,1),y".utf8ByteSize < 2 ^ 64 := by decide
  -- the run is evaluated once, and the rejection is that of its failure
  have hfails : (book.runWith 10 (.rule .program) (Cursor.start "f(g(x,1),y")).ending =
      .ok (.failed ⟨1, 1, .endOfInput, by decide⟩) := by cbv
  obtain ⟨r, hr, hfailure⟩ := Rulebook.parseText_of_run_failed .lf recognizes_program.check hsize
    (Rulebook.ending_run_eq_ok hfails)
  have hnot : ∀ v span, (book.parseText .lf (.rule .program) "f(g(x,1),y").ending ≠
      .ok (.ok (v, span)) := by
    intro v span hv
    rw [hr] at hv
    cases hv
  obtain ⟨r', hr', hsaid, hfurthest⟩ := parseText_program_rejected .lf _ hsize hnot
  rw [hr] at hr'
  cases hr'
  have hsame : r.failure.Says .endOfInput 1 1 := by
    rw [hfailure]
    exact ⟨rfl, rfl, rfl⟩
  refine ⟨hnot, r, hr, hsame, hfurthest, ?_⟩
  rcases hsaid with ⟨-, hstart, -⟩ | ⟨-, e, hlongest, ⟨-, hlen, -⟩, -⟩
  · rw [hsame.1] at hstart
    cases hstart
  · exact ⟨e, hlongest, hlen.symm.trans hsame.2.1⟩

end CallRule

end ParserKit.Sample
