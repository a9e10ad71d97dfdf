import ParserKit.Sample.Brackets
import ParserKit.Sample.Call

/-!
# The command line

Reads each of the given texts with one of the sample grammars and reports on every one of them, a
line or a tree each, whatever became of the others.

How arguments are written, and what is answered to a mistake or a question for help, is not settled
here. The reader of arguments is a parameter: it makes `Settings` of them, or ends the program with
a report of its own.
-/

namespace ParserKit.CommandLine

open ParserKit.Sample

/-- The grammar that texts are read with. -/
inductive Choice where
  | brackets
  | call
deriving DecidableEq, Repr

/-- What the arguments ask for; brackets are read and line feeds end lines where they ask for
    nothing else. -/
structure Settings where
  grammar : Choice := .brackets
  showTree : Bool := false
  ending : LineEnding := .lf
  inputs : List String
deriving DecidableEq, Repr

/-- What a run of the program leaves: the exit code and what it printed. -/
structure Report where
  code : Nat
  output : String
  errors : String
deriving DecidableEq, Repr

/-! ## Verdicts -/

/-- What became of one text. -/
inductive Verdict where
  | accepted (text : String) (tree : Text.Shape)
  | rejected (message : String)

section

variable [Text.Visibility]

/-- The words for a run without an answer. -/
def stopMessage : Stop → String
  | .fault f => f.message
  | .outOfFuel => "rules are nested too deep"

/-- The verdict of the rule `start` on a text. -/
def judge {ι κ : Type} (book : Rulebook ι κ) (start : ι) (text : κ → String)
    (shape : κ → Text.Shape) (ending : LineEnding) (input : String) : Verdict :=
  match (book.parseText ending (.rule start) input).ending with
  | .ok (.ok (v, _)) =>
    .accepted ((v.made?.map text).getD "") ((v.made?.map shape).getD (.tuple "" []))
  | .ok (.error refusal) =>
    match refusal.message with
    | .ok message => .rejected message
    | .error f => .rejected f.message
  | .error stop => .rejected (stopMessage stop)

/-- The verdict of a grammar on a text. -/
def Choice.verdict (ending : LineEnding) (input : String) : Choice → Verdict
  | .brackets => judge BracketRule.book .document Bracket.text Bracket.shape ending input
  | .call => judge CallRule.book .program Expr.text Expr.shape ending input

/-! ## Reports -/

namespace Settings

/-- The verdict on a text. -/
def verdict (s : Settings) (input : String) : Verdict := s.grammar.verdict s.ending input

/-- What is printed for a text. -/
def line (s : Settings) (input : String) : String :=
  Text.quoteString input ++
    match s.verdict input with
    | .accepted text tree =>
      if s.showTree then ": " ++ tree.block else ": accepted as " ++ text
    | .rejected message => ": rejected: " ++ message

/-- Whether a text is rejected. -/
def rejects (s : Settings) (input : String) : Bool :=
  match s.verdict input with
  | .accepted _ _ => false
  | .rejected _ => true

/-- How many of the texts are rejected. -/
def rejections (s : Settings) : Nat := s.inputs.countP s.rejects

/-- The report on all the texts. One rejected text makes the run fail, after the last text. -/
def report (s : Settings) : Report where
  code := if s.rejections = 0 then 0 else 1
  output := String.join (s.inputs.map fun input => s.line input ++ "\n")
  errors :=
    if s.rejections = 0 then ""
    else s!"Error: {s.rejections} of {s.inputs.length} inputs rejected\n"

end Settings

/-- What the program does with arguments that `understand` reads. Where they give no settings the
    run ends with the report that is made instead. -/
def respond (understand : List String → Except Report Settings) (args : List String) : Report :=
  match understand args with
  | .ok settings => settings.report
  | .error report => report

end

end ParserKit.CommandLine
