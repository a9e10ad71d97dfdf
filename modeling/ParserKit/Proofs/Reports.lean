import Mathlib.Data.List.Forall2
import ParserKit.CommandLine
import ParserKit.Proofs.BracketLanguage
import ParserKit.Proofs.CallLanguage
import ParserKit.Proofs.SingleLine

/-!
# Reports

The program goes through the texts that it is given, prints a line for each, and goes on behind one
that is rejected. What a line says depends on nothing but the text, the grammar and, if the text is
rejected, what ends its lines (`Choice.Says`). A text of the language is echoed: it is parsed to a
tree, and writing the tree back gives the text. Any other text is rejected with a location.

As both grammars read exactly their languages (`Choice.Speaks`), the texts that the program counts
as rejected are those outside the language, and it fails if there is one.

All of this is so whichever characters show between quotes, and however arguments are read.

## Key results

- `judge_cases`: the verdict on a text, for any grammar that recognizes a language
- `Choice.plain_of_speaks`: the texts of the languages are plain
- `Settings.says_line`: what the line of a text says, and that it is one line
- `Settings.rejects_iff`: the texts that are counted
- `Settings.report_reports`: the report on all texts

What the program answers to arguments is stated last.
-/

namespace ParserKit

open Text (OneLine Plain)

/-! ## Texts of the languages -/

namespace Sample

mutual

/-- Brackets are plain, so a tree before plain characters is plain. -/
theorem Bracket.plain_charsOnto (b : Bracket) {rest : List Char} (h : ∀ c ∈ rest, Plain c) :
    ∀ c ∈ b.charsOnto rest, Plain c := by
  cases b with
  | round inside =>
    have hclose : ∀ c ∈ ')' :: rest, Plain c := List.forall_mem_cons.2 ⟨by decide, h⟩
    exact List.forall_mem_cons.2 ⟨by decide, plain_charsOfOnto inside hclose⟩
  | curly inside =>
    have hclose : ∀ c ∈ '\x7d' :: rest, Plain c := List.forall_mem_cons.2 ⟨by decide, h⟩
    exact List.forall_mem_cons.2 ⟨by decide, plain_charsOfOnto inside hclose⟩

/-- The same for trees side by side. -/
theorem Bracket.plain_charsOfOnto (bs : List Bracket) {rest : List Char}
    (h : ∀ c ∈ rest, Plain c) : ∀ c ∈ charsOfOnto bs rest, Plain c := by
  cases bs with
  | nil => exact h
  | cons b bs => exact b.plain_charsOnto (plain_charsOfOnto bs h)

end

/-- The text of a tree is plain. -/
theorem Bracket.plain_text (b : Bracket) : ∀ c ∈ b.text.toList, Plain c := by
  rw [text, String.toList_ofList]
  exact b.plain_charsOnto (List.forall_mem_nil _)

/-- Letters come between the backslash and the tilde. -/
private theorem plain_of_letter {c : Char} (h : 'a' ≤ c ∧ c ≤ 'z') : Plain c := by
  obtain ⟨hlo, hhi⟩ := h
  refine ⟨(by decide : ' ' ≤ 'a').trans hlo, hhi.trans (by decide), ?_, ?_⟩
  · rintro rfl
    exact absurd hlo (by decide)
  · rintro rfl
    exact absurd hlo (by decide)

/-- Digits come between the double quote and the backslash. -/
private theorem plain_of_digit {c : Char} (h : '0' ≤ c ∧ c ≤ '9') : Plain c := by
  obtain ⟨hlo, hhi⟩ := h
  refine ⟨(by decide : ' ' ≤ '0').trans hlo, hhi.trans (by decide), ?_, ?_⟩
  · rintro rfl
    exact absurd hlo (by decide)
  · rintro rfl
    exact absurd hhi (by decide)

/-- Letters, digits, brackets and commas are plain, so a well-formed expression before plain
    characters is plain. -/
theorem Expr.plain_charsOnto {e : Expr} (he : e.WellFormed) {rest : List Char}
    (h : ∀ c ∈ rest, Plain c) : ∀ c ∈ e.charsOnto rest, Plain c := by
  induction e generalizing rest with
  | call name left right ihl ihr =>
    obtain ⟨hname, hleft, hright⟩ := he
    -- from the closing bracket back to the name
    have hclose : ∀ c ∈ ')' :: rest, Plain c := List.forall_mem_cons.2 ⟨by decide, h⟩
    have hsecond : ∀ c ∈ ',' :: right.charsOnto (')' :: rest), Plain c :=
      List.forall_mem_cons.2 ⟨by decide, ihr hright hclose⟩
    have hopen := List.forall_mem_cons.2 ⟨(by decide : Plain '('), ihl hleft hsecond⟩
    exact List.forall_mem_cons.2 ⟨plain_of_letter hname, hopen⟩
  | literal value =>
    obtain ⟨c, hdigits, hc, -⟩ := toDigits_eq_digit he
    rw [charsOnto, hdigits]
    exact List.forall_mem_cons.2 ⟨plain_of_digit hc, h⟩
  | var name => exact List.forall_mem_cons.2 ⟨plain_of_letter he, h⟩

/-- The text of a well-formed expression is plain. -/
theorem Expr.plain_text {e : Expr} (he : e.WellFormed) : ∀ c ∈ e.text.toList, Plain c := by
  rw [text, String.toList_ofList]
  exact plain_charsOnto he (List.forall_mem_nil _)

end Sample

namespace CommandLine

open ParserKit.Sample

/-! ## Verdicts -/

section

variable [Text.Visibility] {ι κ : Type} {book : Rulebook ι κ} {start : ι} {text : κ → String}
  {P : κ → Prop} {input : String}

/-- With a grammar that recognizes the texts of some trees, a text of a tree is accepted and written
    back as it was, and any other text is rejected, with a message of one line. -/
theorem judge_cases
    (hbook : book.Recognizes (.rule start) fun s v => ∃ t, P t ∧ s = text t ∧ v = .made t)
    (hfree : book.CustomFree (.rule start)) (hbranches : book.HasBranches (.rule start))
    (hsize : input.utf8ByteSize + 1 < 2 ^ 64) (shape : κ → Text.Shape) (ending : LineEnding) :
    ((∃ t, P t ∧ input = text t) ∧
      ∃ tree, judge book start text shape ending input = .accepted input tree) ∨
    ((¬ ∃ t, P t ∧ input = text t) ∧
      ∃ r m, (book.parseText ending (.rule start) input).ending = .ok (.error (.rejected r)) ∧
        r.message = .ok m ∧ OneLine m ∧
        judge book start text shape ending input = .rejected m) := by
  have hsize' : input.utf8ByteSize < 2 ^ 64 := by omega
  -- a text of a tree is parsed to this tree, and the tree written as the text
  by_cases hinput : ∃ t, P t ∧ input = text t
  · left
    refine ⟨hinput, ?_⟩
    obtain ⟨t, ht, hinput⟩ := hinput
    have hparse := (hbook.parseText_eq_iff ending hsize').2 ⟨⟨t, ht, hinput, rfl⟩, rfl⟩
    refine ⟨shape t, ?_⟩
    rw [judge, hparse]
    show Verdict.accepted (text t) (shape t) = Verdict.accepted input (shape t)
    rw [hinput]
  · right
    refine ⟨hinput, ?_⟩
    have hnone : ∀ v, ¬ ∃ t, P t ∧ input = text t ∧ v = Value.made t := by
      rintro v ⟨t, ht, htext, -⟩
      exact hinput ⟨t, ht, htext⟩
    obtain ⟨r, hr⟩ := hbook.exists_rejection ending hsize' hnone
    obtain ⟨hparse, hlocate⟩ := Rulebook.parseText_eq_rejected_iff.1 hr
    obtain ⟨-, hrun⟩ := Rulebook.parse_eq_ok_iff.1 hparse
    -- the message is of one line as nothing was expected in words of one's own
    have hcustom := Rulebook.expected_ne_custom hfree hbranches hsize' hrun
    obtain ⟨m, hm⟩ : ∃ m, r.message = .ok m := ⟨_, Rejection.message_of_locate hsize hlocate⟩
    have hline := Rejection.oneLine_of_message hsize hlocate hcustom hm
    refine ⟨r, m, hr, hm, hline, ?_⟩
    rw [judge, hr]
    simp only [Refusal.message, hm]

end

/-- The texts that a grammar is for: trees of brackets and well-formed expressions, as they are
    written. -/
def Choice.Speaks : Choice → String → Prop
  | .brackets, s => ∃ b : Bracket, s = b.text
  | .call, s => ∃ e : Expr, e.WellFormed ∧ s = e.text

/-- The texts of both languages are plain. -/
theorem Choice.plain_of_speaks {choice : Choice} {input : String} (h : choice.Speaks input) :
    ∀ c ∈ input.toList, Plain c := by
  cases choice with
  | brackets =>
    obtain ⟨b, rfl⟩ := h
    exact b.plain_text
  | call =>
    obtain ⟨e, he, rfl⟩ := h
    exact Expr.plain_text he

open Classical in
/-- How many of the texts are not in the language. -/
noncomputable def Choice.outside (choice : Choice) (inputs : List String) : Nat :=
  inputs.countP fun input => ¬ choice.Speaks input

/-- The grammar rejects the text, with this location and failure. -/
def Choice.Rejects (ending : LineEnding) : Choice → String → Rejection → Prop
  | .brackets, s, r =>
    (BracketRule.book.parseText ending (.rule .document) s).ending = .ok (.error (.rejected r))
  | .call, s, r =>
    (CallRule.book.parseText ending (.rule .program) s).ending = .ok (.error (.rejected r))

/-- A text is rejected in one way, for it is parsed in one way. -/
theorem Choice.Rejects.unique {ending : LineEnding} {choice : Choice} {input : String}
    {r r' : Rejection} (h : choice.Rejects ending input r) (h' : choice.Rejects ending input r') :
    r = r' := by
  -- the parse of either grammar has one answer
  cases choice with
  | brackets =>
    simp only [Rejects] at h h'
    rw [h] at h'
    cases h'
    rfl
  | call =>
    simp only [Rejects] at h h'
    rw [h] at h'
    cases h'
    rfl

section

variable [Text.Visibility] {choice : Choice} {ending : LineEnding} {input : String}

/-- What the line of a text says: that it is accepted, with the text itself, or that it is rejected,
    with the message of the rejection. -/
inductive Choice.Says (choice : Choice) (ending : LineEnding) (input : String) : String → Prop
  | accepted : choice.Speaks input →
      Says choice ending input (Text.quoteString input ++ ": accepted as " ++ input)
  | rejected {r : Rejection} {m : String} : ¬ choice.Speaks input →
      choice.Rejects ending input r → r.message = .ok m →
      Says choice ending input (Text.quoteString input ++ ": rejected: " ++ m)

/-- Two lines of one text are the same, if they are made with the same line ending or the text is
    accepted. -/
theorem Choice.Says.unique {ending' : LineEnding} {l l' : String}
    (h : choice.Says ending input l) (h' : choice.Says ending' input l')
    (hsame : choice.Speaks input ∨ ending = ending') : l = l' := by
  cases h with
  | accepted hspeaks =>
    cases h' with
    | accepted => rfl
    | rejected hnot => exact absurd hspeaks hnot
  | rejected hnot hr hm =>
    cases h' with
    | accepted hspeaks => exact absurd hspeaks hnot
    | rejected _ hr' hm' =>
      -- outside the language the line ending counts, and with it the message is settled
      obtain rfl : ending = ending' := hsame.resolve_left hnot
      obtain rfl := hr.unique hr'
      rw [hm] at hm'
      cases hm'
      rfl

/-- A text of the language is accepted and written back as it was, and any other text is rejected,
    with a message of one line. -/
theorem Choice.verdict_cases (choice : Choice) (ending : LineEnding)
    (hsize : input.utf8ByteSize + 1 < 2 ^ 64) :
    (choice.Speaks input ∧ ∃ tree, choice.verdict ending input = .accepted input tree) ∨
    (¬ choice.Speaks input ∧ ∃ r m, choice.Rejects ending input r ∧ r.message = .ok m ∧
      OneLine m ∧ choice.verdict ending input = .rejected m) := by
  cases choice with
  | brackets =>
    -- the rules of brackets recognize all trees
    have hbook : BracketRule.book.Recognizes (.rule .document) fun s v =>
        ∃ b : Bracket, True ∧ s = b.text ∧ v = .made b := by
      simpa using BracketRule.recognizes_document
    have hfree : BracketRule.book.CustomFree (.rule .document) :=
      Rulebook.customFree_of_all (by intro i; cases i <;> rfl) rfl
    have hbranches : BracketRule.book.HasBranches (.rule .document) := fun h hh =>
      hh.of_all (by intro i; cases i <;> rfl) rfl
    rcases judge_cases hbook hfree hbranches hsize Bracket.shape ending with
      ⟨⟨b, -, hb⟩, haccepted⟩ | ⟨hnot, hrejected⟩
    · exact .inl ⟨⟨b, hb⟩, haccepted⟩
    · refine .inr ⟨?_, hrejected⟩
      rintro ⟨b, hb⟩
      exact hnot ⟨b, trivial, hb⟩
  | call =>
    -- those of calls recognize the expressions that are well formed
    have hfree : CallRule.book.CustomFree (.rule .program) :=
      Rulebook.customFree_of_all (by intro i; cases i <;> rfl) rfl
    have hbranches : CallRule.book.HasBranches (.rule .program) := fun h hh =>
      hh.of_all (by intro i; cases i <;> rfl) rfl
    exact judge_cases CallRule.recognizes_program hfree hbranches hsize Expr.shape ending

namespace Settings

variable {s : Settings}

/-- Without trees, what is printed for a text is one line, and says what it should. -/
theorem says_line (htree : s.showTree = false) (hsize : input.utf8ByteSize + 1 < 2 ^ 64) :
    s.grammar.Says s.ending input (s.line input) ∧ OneLine (s.line input) := by
  have hwords : OneLine ": accepted as " ∧ OneLine ": rejected: " := by decide
  rcases s.grammar.verdict_cases s.ending hsize with ⟨hspeaks, tree, hverdict⟩ |
    ⟨hnot, r, m, hr, hm, hone, hverdict⟩
  · have hline : s.line input = Text.quoteString input ++ ": accepted as " ++ input := by
      simp only [line, verdict, hverdict, htree, Bool.false_eq_true, if_false,
        String.append_assoc]
    -- what is written back has no line feed, as no text of the languages has one
    have hone : OneLine input := Text.oneLine_of_plain (Choice.plain_of_speaks hspeaks)
    rw [hline]
    constructor
    · exact .accepted hspeaks
    · simp [hwords, hone]
  · have hline : s.line input = Text.quoteString input ++ ": rejected: " ++ m := by
      simp only [line, verdict, hverdict, String.append_assoc]
    rw [hline]
    constructor
    · exact .rejected hnot hr hm
    · simp [hwords, hone]

/-- The texts that are counted as rejected are those outside the language. -/
theorem rejects_iff (s : Settings) (hsize : input.utf8ByteSize + 1 < 2 ^ 64) :
    s.rejects input = true ↔ ¬ s.grammar.Speaks input := by
  rcases s.grammar.verdict_cases s.ending hsize with ⟨hspeaks, tree, hverdict⟩ |
    ⟨hnot, r, m, -, -, -, hverdict⟩
  · simp [rejects, verdict, hverdict, hspeaks]
  · simp [rejects, verdict, hverdict, hnot]

end Settings

/-! ## Reports on all texts -/

/-- The report on some texts: a line for each of them, in their order, which says of this text what
    it should, and an error with the number of the texts outside the language, if there are any. -/
structure Choice.Reports (choice : Choice) (ending : LineEnding) (inputs : List String)
    (report : Report) : Prop where
  lines : ∃ lines, List.Forall₂ (choice.Says ending) inputs lines ∧ (∀ l ∈ lines, OneLine l) ∧
    report.output = String.join (lines.map fun l => l ++ "\n")
  accepted : choice.outside inputs = 0 → report.code = 0 ∧ report.errors = ""
  rejected : 0 < choice.outside inputs → report.code = 1 ∧
    report.errors = s!"Error: {choice.outside inputs} of {inputs.length} inputs rejected\n"

/-- Texts are counted as rejected just if they are not in the language. -/
theorem Settings.rejections_eq (s : Settings)
    (hsize : ∀ input ∈ s.inputs, input.utf8ByteSize + 1 < 2 ^ 64) :
    s.rejections = s.grammar.outside s.inputs := by
  apply List.countP_congr
  intro input hinput
  rw [s.rejects_iff (hsize input hinput)]
  simp

/-- Without trees, every text is reported on by itself. -/
theorem Settings.report_reports (s : Settings) (htree : s.showTree = false)
    (hsize : ∀ input ∈ s.inputs, input.utf8ByteSize + 1 < 2 ^ 64) :
    s.grammar.Reports s.ending s.inputs s.report where
  lines := by
    refine ⟨s.inputs.map s.line, ?_, ?_, ?_⟩
    -- text by text, as each line is made from its text alone
    · rw [List.forall₂_map_right_iff, List.forall₂_same]
      intro input hinput
      exact (says_line htree (hsize input hinput)).1
    · intro l hl
      obtain ⟨input, hinput, rfl⟩ := List.mem_map.1 hl
      exact (says_line htree (hsize input hinput)).2
    · rw [report, List.map_map]
      rfl
  accepted hnone := by
    rw [← s.rejections_eq hsize] at hnone
    simp [report, hnone]
  rejected hsome := by
    rw [← s.rejections_eq hsize] at hsome ⊢
    have hne : s.rejections ≠ 0 := by omega
    simp [report, hne]

end

/-- Take any texts, either grammar and any line ending, whichever characters show between quotes.
    Whatever the arguments are, and however they are read, if they are found to ask for the texts to
    be read so, without trees, the report is this: a line for each text, in order, that says of a
    text of the language that it is accepted, with the text itself, and of any other text that it is
    rejected, with the message of its rejection. The run fails if there are texts outside the
    language, and then the error says how many.

    What the line of a text says is settled by the text, the grammar and the line ending, and for a
    text of the language by the text alone, which stands between the quotes as it is. -/
theorem respond_reports_each [Text.Visibility] (understand : List String → Except Report Settings)
    (args : List String) (choice : Choice) (ending : LineEnding) (inputs : List String)
    (hargs : understand args = .ok ⟨choice, false, ending, inputs⟩)
    (hsize : ∀ input ∈ inputs, input.utf8ByteSize + 1 < 2 ^ 64) :
    choice.Reports ending inputs (respond understand args) ∧
    (∀ input ending' l l', choice.Says ending input l → choice.Says ending' input l' →
      choice.Speaks input ∨ ending = ending' → l = l') ∧
    ∀ input, choice.Speaks input → Text.quoteString input = "\"" ++ input ++ "\"" := by
  refine ⟨?_, fun input ending' l l' h h' hsame => h.unique h' hsame, fun input hspeaks => ?_⟩
  -- once the arguments are understood, nothing but the settings counts
  · have hrespond : respond understand args = Settings.report ⟨choice, false, ending, inputs⟩ := by
      rw [respond, hargs]
    rw [hrespond]
    exact Settings.report_reports ⟨choice, false, ending, inputs⟩ rfl hsize
  · exact Text.quoteString_of_plain (Choice.plain_of_speaks hspeaks)

/-- Arguments without options are the texts to be read. -/
def textsOnly (args : List String) : Except Report Settings := .ok { inputs := args }

/-- Of a pair of brackets and a bracket alone, one is rejected. -/
theorem respond_reports_each_pair :
    textsOnly ["()", ")"] = .ok ⟨.brackets, false, .lf, ["()", ")"]⟩ ∧
      (∀ input ∈ ["()", ")"], input.utf8ByteSize + 1 < 2 ^ 64) ∧
      @respond .ascii textsOnly ["()", ")"] =
        ⟨1, "\"()\": accepted as ()\n\")\": rejected: expected one of the alternatives at 1:1\n",
          "Error: 1 of 2 inputs rejected\n"⟩ := by
  let _ := Text.Visibility.ascii
  have hargs : textsOnly ["()", ")"] = .ok ⟨.brackets, false, .lf, ["()", ")"]⟩ := rfl
  have hsize : ∀ input ∈ ["()", ")"], input.utf8ByteSize + 1 < 2 ^ 64 := by decide
  have hspeaks : Choice.brackets.Speaks "()" := ⟨.round [], by decide⟩
  have hnot : ¬ Choice.brackets.Speaks ")" := by
    rintro ⟨b, hb⟩
    have hchars : [')'] = b.chars := by simpa [Bracket.text] using congrArg String.toList hb
    cases b <;> simp [Bracket.chars, Bracket.charsOnto] at hchars
  -- the bracket alone is rejected at its start
  let r : Rejection := ⟨Failure.expecting .alternative 0, ⟨0, 0, 0⟩, ⟨0, 0, 0⟩⟩
  have hrun : (BracketRule.book.runWith 5 (.rule .document) (Cursor.start ")")).ending =
      .ok (.failed r.failure) := by cbv
  have hparse : (BracketRule.book.parse (.rule .document) (Cursor.start ")")).ending =
      .ok (.ok (.failed r.failure)) :=
    Rulebook.parse_eq_ok_iff.2 ⟨by cbv, Rulebook.ending_run_eq_ok hrun⟩
  have hrejects : Choice.brackets.Rejects .lf ")" r :=
    Rulebook.parseText_eq_rejected_iff.2 ⟨hparse, by cbv⟩
  have hmessage : r.message = .ok "expected one of the alternatives at 1:1" := by
    decide +kernel
  -- so both lines and the count are known, and with them the report
  obtain ⟨hreports, hunique, hquoted⟩ :=
    respond_reports_each textsOnly ["()", ")"] .brackets .lf ["()", ")"] hargs hsize
  obtain ⟨lines, hsays, -, houtput⟩ := hreports.lines
  obtain _ | ⟨hfirst, _ | ⟨hsecond, _ | _⟩⟩ := hsays
  obtain rfl := hunique _ _ _ _ (.accepted hspeaks) hfirst (.inl hspeaks)
  obtain rfl := hunique _ _ _ _ (.rejected hnot hrejects hmessage) hsecond (.inr rfl)
  have houtside : Choice.brackets.outside ["()", ")"] = 1 := by
    simp [Choice.outside, hspeaks, hnot]
  obtain ⟨hcode, herrors⟩ := hreports.rejected (by omega)
  refine ⟨hargs, hsize, ?_⟩
  have hbracket : Text.quoteString ")" = "\"" ++ ")" ++ "\"" :=
    Text.quoteString_of_plain (by simpa using (by decide : Plain ')'))
  rw [hquoted _ hspeaks, hbracket] at houtput
  rw [houtside] at herrors
  generalize respond textsOnly ["()", ")"] = report at houtput hcode herrors
  rcases report with ⟨code, output, errors⟩
  simp only at hcode houtput herrors
  rw [hcode, houtput, herrors]
  decide +kernel

end CommandLine

end ParserKit
