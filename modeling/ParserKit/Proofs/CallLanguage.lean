import ParserKit.Proofs.Reading
import ParserKit.Sample.Call

/-!
# The call grammar reads calls

The texts that the call grammar accepts are the expressions with one-letter names and one-digit
literals, written out. The choice tries a call before a variable, and a letter may begin either, so
a variable is read only where no bracket follows it (`reads_expr`); within a call a comma or a
closing bracket follows. In the other direction, whatever is read is an expression, though not
always the longest one that might have been meant (`exists_expr_or_fails`): a letter before a call
that does not end is read as a variable, and what is left is then for others to refuse.

## Key results

- `reads_expr`: an expression is read where it is not the name of a call
- `exists_expr_or_fails`: what is read is an expression
- `recognizes_program`: a text is read as a program exactly if it is the text of a well-formed
  expression
-/

namespace ParserKit.Sample

namespace Expr

/-- Names are small letters, literals digits. -/
def WellFormed : Expr → Prop
  | call name left right => ('a' ≤ name ∧ name ≤ 'z') ∧ left.WellFormed ∧ right.WellFormed
  | literal value => value ≤ 9
  | var name => 'a' ≤ name ∧ name ≤ 'z'

/-- An expression is not empty. -/
theorem length_lt_length_charsOnto (e : Expr) (rest : List Char) :
    rest.length < (e.charsOnto rest).length := by
  -- each argument adds its characters to those of what follows it
  induction e generalizing rest with
  | call name left right ihl ihr =>
    have hl := ihl (',' :: right.charsOnto (')' :: rest))
    have hr := ihr (')' :: rest)
    simp only [charsOnto, List.length_cons] at hl hr ⊢
    omega
  | literal value =>
    have hpos : 0 < (Nat.toDigits 10 value).length := Nat.length_toDigits_pos
    rw [charsOnto, List.length_append]
    omega
  | var name =>
    rw [charsOnto, List.length_cons]
    omega

/-- A literal of one digit is written as that digit. -/
theorem toDigits_eq_digit {value : Nat} (h : value ≤ 9) :
    ∃ c, Nat.toDigits 10 value = [c] ∧ ('0' ≤ c ∧ c ≤ '9') ∧ c.toNat - '0'.toNat = value := by
  have hlt : value < 10 := by omega
  have hnat : value.digitChar.toNat = 48 + value := Nat.toNat_digitChar_of_lt_ten hlt
  refine ⟨value.digitChar, Nat.toDigits_of_lt_base hlt, ?_, ?_⟩
  · simp only [Char.le_def, UInt32.le_iff_toNat_le]
    show 48 ≤ value.digitChar.toNat ∧ value.digitChar.toNat ≤ 57
    omega
  · show value.digitChar.toNat - 48 = value
    omega

/-- A digit is how the number it stands for is written. -/
theorem toDigits_of_digit {c : Char} (h : '0' ≤ c ∧ c ≤ '9') :
    Nat.toDigits 10 (c.toNat - '0'.toNat) = [c] ∧ c.toNat - '0'.toNat ≤ 9 := by
  simp only [Char.le_def, UInt32.le_iff_toNat_le] at h
  have hc : 48 ≤ c.toNat ∧ c.toNat ≤ 57 := h
  have hlt : c.toNat - 48 < 10 := by omega
  constructor
  · rw [show '0'.toNat = 48 from rfl, Nat.toDigits_of_lt_base hlt, List.cons.injEq]
    refine ⟨Char.toNat_inj.1 ?_, rfl⟩
    rw [Nat.toNat_digitChar_of_lt_ten hlt]
    omega
  · show c.toNat - 48 ≤ 9
    omega

/-- No character is both a letter and a digit. -/
theorem not_digit_of_letter {c : Char} (h : 'a' ≤ c ∧ c ≤ 'z') : ¬ ('0' ≤ c ∧ c ≤ '9') :=
  fun hdigit => absurd (Char.le_trans h.1 hdigit.2) (by decide)

end Expr

namespace CallRule

open ParserKit.Parser (Reads Fails)

variable {input : String} {cs ds mid rest : List Char} {v : Value Expr}

/-! ## The rules -/

/-- A call is read if its name and both of its arguments are, up to the comma and the closing
    bracket. -/
theorem reads_call (hsize : input.utf8ByteSize < 2 ^ 64) {name : Char}
    (hname : 'a' ≤ name ∧ name ≤ 'z') {left right : Expr}
    (hleft : Reads input (book.run (.rule .expr)) cs (.made left) (',' :: ds))
    (hright : Reads input (book.run (.rule .expr)) ds (.made right) (')' :: rest)) :
    Reads input (book.run (.rule .call)) (name :: '(' :: cs) (.made (.call name left right)) rest :=
  book.reads_rule .call (Rulebook.reads_sequence
    (.cons (Rulebook.reads_range hsize hname) (.cons (Rulebook.reads_symbol hsize '(')
      (.cons hleft (.cons (Rulebook.reads_symbol hsize ',')
        (.cons hright (.cons (Rulebook.reads_symbol hsize ')') (.nil rest))))))))

/-- No call begins but with a small letter. -/
theorem fails_call_of_head (h : ∀ x, cs.head? = some x → ¬ ('a' ≤ x ∧ x ≤ 'z')) :
    Fails input (book.run (.rule .call)) cs :=
  book.fails_rule .call (Rulebook.fails_sequence (.here (Rulebook.fails_range h)))

/-- A letter is no call unless an opening bracket follows. -/
theorem fails_call_of_opening (hsize : input.utf8ByteSize < 2 ^ 64) {name : Char}
    (hname : 'a' ≤ name ∧ name ≤ 'z') (h : cs.head? ≠ some '(') :
    Fails input (book.run (.rule .call)) (name :: cs) :=
  book.fails_rule .call (Rulebook.fails_sequence
    (.later (Rulebook.reads_range hsize hname) (.here (Rulebook.fails_symbol h))))

/-- A digit is read as the number it stands for. -/
theorem reads_literal (hsize : input.utf8ByteSize < 2 ^ 64) {c : Char}
    (hc : '0' ≤ c ∧ c ≤ '9') :
    Reads input (book.run (.rule .literal)) (c :: rest)
      (.made (.literal (c.toNat - '0'.toNat))) rest :=
  book.reads_rule .literal (Rulebook.reads_range hsize hc)

/-- No literal begins but with a digit. -/
theorem fails_literal (h : ∀ x, cs.head? = some x → ¬ ('0' ≤ x ∧ x ≤ '9')) :
    Fails input (book.run (.rule .literal)) cs :=
  book.fails_rule .literal (Rulebook.fails_range h)

/-- A small letter is read as a variable. -/
theorem reads_var (hsize : input.utf8ByteSize < 2 ^ 64) {name : Char}
    (hname : 'a' ≤ name ∧ name ≤ 'z') :
    Reads input (book.run (.rule .var)) (name :: rest) (.made (.var name)) rest :=
  book.reads_rule .var (Rulebook.reads_range hsize hname)

/-- No variable begins but with a small letter. -/
theorem fails_var (h : ∀ x, cs.head? = some x → ¬ ('a' ≤ x ∧ x ≤ 'z')) :
    Fails input (book.run (.rule .var)) cs :=
  book.fails_rule .var (Rulebook.fails_range h)

/-- A call is an expression, tried before all others. -/
theorem reads_expr_of_call (h : Reads input (book.run (.rule .call)) cs v rest) :
    Reads input (book.run (.rule .expr)) cs v rest :=
  book.reads_rule .expr (Rulebook.reads_unified rfl (.here h))

/-- Where a digit stands, neither a call nor a variable begins. -/
theorem reads_expr_of_digit (hsize : input.utf8ByteSize < 2 ^ 64) {c : Char}
    (hc : '0' ≤ c ∧ c ≤ '9') :
    Reads input (book.run (.rule .expr)) (c :: rest)
      (.made (.literal (c.toNat - '0'.toNat))) rest := by
  have hcall : Fails input (book.run (.rule .call)) (c :: rest) :=
    fails_call_of_head fun x hx hletter => by
      cases hx
      exact Expr.not_digit_of_letter hletter hc
  exact book.reads_rule .expr
    (Rulebook.reads_unified rfl (.later hcall (.here (reads_literal hsize hc))))

/-- A letter that begins no call is a variable. -/
theorem reads_expr_of_letter (hsize : input.utf8ByteSize < 2 ^ 64) {name : Char}
    (hname : 'a' ≤ name ∧ name ≤ 'z')
    (hcall : Fails input (book.run (.rule .call)) (name :: rest)) :
    Reads input (book.run (.rule .expr)) (name :: rest) (.made (.var name)) rest := by
  have hliteral : Fails input (book.run (.rule .literal)) (name :: rest) :=
    fails_literal fun x hx => by
      cases hx
      exact Expr.not_digit_of_letter hname
  exact book.reads_rule .expr
    (Rulebook.reads_unified rfl (.later hcall (.later hliteral (.here (reads_var hsize hname)))))

/-- Where neither a letter nor a digit stands, no expression is read. -/
theorem fails_expr (hletter : ∀ x, cs.head? = some x → ¬ ('a' ≤ x ∧ x ≤ 'z'))
    (hdigit : ∀ x, cs.head? = some x → ¬ ('0' ≤ x ∧ x ≤ '9')) :
    Fails input (book.run (.rule .expr)) cs := by
  have hcall : Fails input (book.run (.rule .call)) cs := fails_call_of_head hletter
  have hliteral : Fails input (book.run (.rule .literal)) cs := fails_literal hdigit
  have hvar : Fails input (book.run (.rule .var)) cs := fails_var hletter
  exact book.fails_rule .expr
    (Rulebook.fails_unified rfl (by simp [hcall, hliteral, hvar]))

/-! ## Expressions are read -/

/-- An expression is read up to its end, unless it is a variable and an opening bracket follows. -/
theorem reads_expr (hsize : input.utf8ByteSize < 2 ^ 64) {e : Expr} (he : e.WellFormed)
    {rest : List Char} (hrest : ∀ name, e = .var name → rest.head? ≠ some '(') :
    Reads input (book.run (.rule .expr)) (e.charsOnto rest) (.made e) rest := by
  -- what follows changes with each argument, so it is generalized
  induction e generalizing rest with
  | call name left right ihl ihr =>
    obtain ⟨hname, hleft, hright⟩ := he
    -- behind the arguments stand a comma and a closing bracket
    have hcomma : (',' :: right.charsOnto (')' :: rest)).head? ≠ some '(' := by simp
    have hclose : (')' :: rest).head? ≠ some '(' := by simp
    exact reads_expr_of_call
      (reads_call hsize hname (ihl hleft fun _ _ => hcomma) (ihr hright fun _ _ => hclose))
  | literal value =>
    obtain ⟨c, hdigits, hc, rfl⟩ := Expr.toDigits_eq_digit he
    rw [Expr.charsOnto, hdigits]
    exact reads_expr_of_digit hsize hc
  | var name =>
    exact reads_expr_of_letter hsize he (fails_call_of_opening hsize he (hrest name rfl))

/-! ## Only expressions are read -/

/-- A well-formed expression stands at `cs`, before `rest`, and is read there. -/
def ReadsExpr (input : String) (cs : List Char) (e : Expr) (rest : List Char) : Prop :=
  e.WellFormed ∧ cs = e.charsOnto rest ∧
    Reads input (book.run (.rule .expr)) cs (.made e) rest

/-- What is left behind an expression is less. -/
theorem ReadsExpr.length_lt {e : Expr} (h : ReadsExpr input cs e rest) :
    rest.length < cs.length := by
  obtain ⟨-, rfl, -⟩ := h
  exact e.length_lt_length_charsOnto rest

section

variable {n : Nat} (hsize : input.utf8ByteSize < 2 ^ 64)
  (ih : ∀ ds : List Char, ds.length < n →
    (∃ e rest, ReadsExpr input ds e rest) ∨ Fails input (book.run (.rule .expr)) ds)

include hsize ih

/-- Two arguments and what is around them are read, or one of these parts is not there. -/
private theorem exists_arguments_of_bound (hcs : cs.length < n) :
    (∃ left right mid rest, ReadsExpr input cs left (',' :: mid) ∧
        ReadsExpr input mid right (')' :: rest)) ∨
      Parser.FailsSome input
        ([.rule .expr, .symbol ',', .rule .expr, .symbol ')'].map book.run) cs := by
  -- each part that may be missing is one way to fail, behind the parts that are there
  rcases ih cs hcs with ⟨left, after, hleft⟩ | hfails
  · have hless := hleft.length_lt
    by_cases hcomma : after.head? = some ','
    · obtain ⟨mid, rfl⟩ := List.head?_eq_some_iff.1 hcomma
      rw [List.length_cons] at hless
      have hseparated : Reads input (book.run (.symbol ',')) (',' :: mid) (.char ',') mid :=
        Rulebook.reads_symbol hsize ','
      rcases ih mid (by omega) with ⟨right, after', hright⟩ | hfails
      · by_cases hclose : after'.head? = some ')'
        · obtain ⟨rest, rfl⟩ := List.head?_eq_some_iff.1 hclose
          exact .inl ⟨left, right, mid, rest, hleft, hright⟩
        · exact .inr (.later hleft.2.2 (.later hseparated
            (.later hright.2.2 (.here (Rulebook.fails_symbol hclose)))))
      · exact .inr (.later hleft.2.2 (.later hseparated (.here hfails)))
    · exact .inr (.later hleft.2.2 (.here (Rulebook.fails_symbol hcomma)))
  · exact .inr (.here hfails)

/-- Behind a letter the rest of a call is read, or the call is not. -/
private theorem exists_call_of_bound {name : Char} (hname : 'a' ≤ name ∧ name ≤ 'z')
    (hcs : cs.length < n) :
    (∃ left right rest, ReadsExpr input (name :: cs) (.call name left right) rest) ∨
      Fails input (book.run (.rule .call)) (name :: cs) := by
  -- a letter by itself is no call, so all is decided behind the bracket
  by_cases hopen : cs.head? = some '('
  · obtain ⟨ds, rfl⟩ := List.head?_eq_some_iff.1 hopen
    rw [List.length_cons] at hcs
    rcases exists_arguments_of_bound hsize ih (by omega : ds.length < n) with
      ⟨left, right, mid, rest, ⟨hwell, hstands, hread⟩, hwell', hstands', hread'⟩ | hfails
    · refine .inl ⟨left, right, rest, ⟨hname, hwell, hwell'⟩, ?_, ?_⟩
      · rw [Expr.charsOnto, ← hstands', ← hstands]
      · exact reads_expr_of_call (reads_call hsize hname hread hread')
    · exact .inr (book.fails_rule .call (Rulebook.fails_sequence
        (.later (Rulebook.reads_range hsize hname)
          (.later (Rulebook.reads_symbol hsize '(') hfails))))
  · exact .inr (fails_call_of_opening hsize hname hopen)

/-- Where a letter or a digit stands, an expression is read. -/
private theorem exists_expr_of_bound {c : Char}
    (hc : ('a' ≤ c ∧ c ≤ 'z') ∨ ('0' ≤ c ∧ c ≤ '9')) (hcs : cs.length < n) :
    ∃ e rest, ReadsExpr input (c :: cs) e rest := by
  rcases hc with hletter | hdigit
  · -- the letter of a call that fails is read all the same
    rcases exists_call_of_bound hsize ih hletter hcs with ⟨left, right, rest, hread⟩ | hfails
    · exact ⟨.call c left right, rest, hread⟩
    · exact ⟨.var c, cs, hletter, rfl, reads_expr_of_letter hsize hletter hfails⟩
  · obtain ⟨hdigits, hle⟩ := Expr.toDigits_of_digit hdigit
    refine ⟨.literal (c.toNat - '0'.toNat), cs, hle, ?_, ?_⟩
    · rw [Expr.charsOnto, hdigits, List.singleton_append]
    · exact reads_expr_of_digit hsize hdigit

end

/-- At any characters a well-formed expression is read, or none. -/
theorem exists_expr_or_fails (hsize : input.utf8ByteSize < 2 ^ 64) (cs : List Char) :
    (∃ e rest, ReadsExpr input cs e rest) ∨ Fails input (book.run (.rule .expr)) cs := by
  induction hn : cs.length using Nat.strongRecOn generalizing cs with
  | ind n ih =>
    cases cs with
    | nil => exact .inr (fails_expr (by simp) (by simp))
    | cons c cs =>
      rw [List.length_cons] at hn
      by_cases hc : ('a' ≤ c ∧ c ≤ 'z') ∨ ('0' ≤ c ∧ c ≤ '9')
      · exact .inl (exists_expr_of_bound hsize (fun ds hds => ih ds.length hds ds rfl) hc
          (by omega : cs.length < n))
      · obtain ⟨hletter, hdigit⟩ := not_or.1 hc
        exact .inr (fails_expr (by simpa using hletter) (by simpa using hdigit))

/-- Where a letter or a digit stands, an expression is read. -/
theorem exists_expr_of_head (hsize : input.utf8ByteSize < 2 ^ 64) {c : Char}
    (hc : ('a' ≤ c ∧ c ≤ 'z') ∨ ('0' ≤ c ∧ c ≤ '9')) (cs : List Char) :
    ∃ e rest, ReadsExpr input (c :: cs) e rest :=
  exists_expr_of_bound hsize (fun ds _ => exists_expr_or_fails hsize ds) hc (Nat.lt_succ_self _)

/-! ## Programs -/

/-- An expression that is all there is left is read as a program. -/
theorem reads_program (hsize : input.utf8ByteSize < 2 ^ 64) {e : Expr} (he : e.WellFormed) :
    Reads input (book.run (.rule .program)) e.chars (.made e) [] :=
  book.reads_rule .program (Rulebook.reads_sequence
    (.cons (reads_expr hsize he fun _ _ => by simp) (.cons Rulebook.reads_endOfInput (.nil []))))

/-- What is not all an expression is not a program. -/
theorem fails_program (hsize : input.utf8ByteSize < 2 ^ 64)
    (h : ∀ e : Expr, e.WellFormed → cs ≠ e.chars) :
    Fails input (book.run (.rule .program)) cs := by
  refine book.fails_rule .program (Rulebook.fails_sequence ?_)
  rcases exists_expr_or_fails hsize cs with ⟨e, rest, hwell, hstands, hread⟩ | hfails
  · have hrest : rest ≠ [] := fun hnil => h e hwell (by rw [hstands, hnil, Expr.chars])
    exact .later hread (.here (Rulebook.fails_endOfInput hrest))
  · exact .here hfails

/-- The call grammar recognizes the texts of well-formed expressions. -/
theorem recognizes_program : book.Recognizes (.rule .program) fun s v =>
    ∃ e : Expr, e.WellFormed ∧ s = e.text ∧ v = .made e where
  check := by cbv
  reads := by
    rintro s v hsize ⟨e, he, rfl, rfl⟩
    rw [Expr.text, String.toList_ofList]
    exact reads_program hsize he
  fails := by
    intro s hsize h
    refine fails_program hsize fun e he hchars => h (.made e) ⟨e, he, ?_, rfl⟩
    rw [Expr.text, ← hchars, String.ofList_toList]

/-- A text is parsed as a program exactly if it is the text of a well-formed expression; what is
    read is then that expression, from the first byte to the last, and every other text is
    rejected. -/
theorem parseText_program (ending : LineEnding) (s : String) (hsize : s.utf8ByteSize < 2 ^ 64) :
    (∀ e : Expr, (book.parseText ending (.rule .program) s).ending =
        .ok (.ok (.made e, Span.whole s hsize)) ↔ e.WellFormed ∧ s = e.text) ∧
      (∀ v span, (book.parseText ending (.rule .program) s).ending = .ok (.ok (v, span)) →
        ∃ e : Expr, v = .made e ∧ e.WellFormed ∧ span = Span.whole s hsize ∧ e.text = s) ∧
      ((∀ e : Expr, e.WellFormed → s ≠ e.text) →
        ∃ r, (book.parseText ending (.rule .program) s).ending =
          .ok (.error (.rejected r))) := by
  refine ⟨fun e => ?_, fun v span hv => ?_, fun h => ?_⟩
  -- both directions are those of recognition, and an expression is told by its value
  · rw [recognizes_program.parseText_eq_iff ending hsize]
    simp
  · obtain ⟨⟨e, he, htext, hvalue⟩, hspan⟩ :=
      (recognizes_program.parseText_eq_iff ending hsize).1 hv
    exact ⟨e, hvalue, he, hspan, htext.symm⟩
  · refine recognizes_program.exists_rejection ending hsize ?_
    -- a value of the text would be an expression with this text
    rintro v ⟨e, he, htext, -⟩
    exact h e he htext

/-- A call within a call is read; the letter before a comma is a variable. -/
theorem parseText_program_nested :
    (book.parseText .lf (.rule .program) "f(g(x,1),y)").ending =
      .ok (.ok (.made (.call 'f' (.call 'g' (.var 'x') (.literal 1)) (.var 'y')),
        Span.whole "f(g(x,1),y)" (by decide))) :=
  ((parseText_program .lf "f(g(x,1),y)" (by decide)).1 _).2
    ⟨by simp [Expr.WellFormed], by decide⟩

end CallRule

end ParserKit.Sample
