import ParserKit.Parser.Choice
import ParserKit.Parser.Named
import ParserKit.Parser.Repeat
import ParserKit.Parser.Sequence
import ParserKit.Parser.Terminal
import ParserKit.Value

/-!
# Grammars

A grammar is a tree of terminals and combinators whose leaves may refer to rules by key. The rules
themselves, which may refer to each other and to themselves, are kept in a rule book. What a
grammar does at a cursor is put together from the parsers of `ParserKit.Parser`
(`Grammar.parser`); a reference to a rule is run with less fuel than the rule it stands in, so
that running is total, and the fuel bounds only how deep rules are nested.
-/

namespace ParserKit

/-- What a tagged choice answers with. -/
inductive Form where
  /-- The value with its tag. -/
  | tagged
  /-- The value alone, whichever alternative it is. -/
  | unified
  /-- The value alone, found by splitting alternatives off one by one. -/
  | peeled
deriving DecidableEq, Repr

/-- A grammar over rules with keys in `ι`, whose actions make results in `κ`. -/
inductive Grammar (ι κ : Type) where
  /-- The end of the text. -/
  | endOfInput
  /-- One given character. -/
  | symbol (c : Char)
  /-- One character of a closed range. -/
  | range (lo hi : Char)
  /-- A given word. -/
  | word (w : String)
  /-- All of the grammars, one after the other. -/
  | sequence (items : List (Grammar ι κ))
  /-- The first of the grammars that succeeds. -/
  | either (branches : List (Grammar ι κ))
  /-- The first of the grammars that succeeds, told apart by the types of their values. -/
  | oneOf (form : Form) (types : List String) (branches : List (Grammar ι κ))
  /-- A grammar as often as it succeeds. -/
  | many (item : Grammar ι κ)
  /-- A grammar with its values transformed. -/
  | map (f : Value κ → Value κ) (inner : Grammar ι κ)
  /-- The rule with this key. -/
  | rule (key : ι)
  /-- A grammar that records each time it is tried. -/
  | watch (label : String) (inner : Grammar ι κ)
  /-- A function of the cursor. -/
  | custom (read : Cursor → Except Fault (Outcome (Value κ)))

namespace Grammar

variable {ι κ : Type}

/-- The value that a tagged choice answers with. -/
def formValue : Form → Variant (Value κ) → Value κ
  | .tagged, v => Value.ofVariant v
  | .unified, v => v.unify fun _ x => x
  | .peeled, v => v.peel fun _ x => x

mutual

/-- What a grammar does at a cursor, when `call` is what its references to rules do. -/
def parser (call : ι → Parser (Value κ)) : Grammar ι κ → Parser (Value κ)
  | endOfInput => Parser.map (fun _ => .eof) Parser.endOfInput
  | symbol c => Parser.map .char (Parser.symbol c)
  | range lo hi => Parser.map .char (Parser.range lo hi)
  | word w => Parser.map .word (Parser.word w)
  | sequence items => Parser.map .seq (Parser.sequence (parsers call items))
  | either branches => Parser.choice (parsers call branches)
  | oneOf form types branches =>
    Parser.map (formValue form) (Parser.tagged (types.zip (parsers call branches)))
  | many item => Parser.map .many (Parser.many (parser call item))
  | map f inner => Parser.mapped f (parser call inner)
  | rule key => call key
  | watch label inner => Parser.watched label (parser call inner)
  | custom read => fun c => Run.ofExcept (read c)

/-- What each of the grammars does at a cursor. -/
def parsers (call : ι → Parser (Value κ)) : List (Grammar ι κ) → List (Parser (Value κ))
  | [] => []
  | g :: gs => parser call g :: parsers call gs

end

/-- The parsers of a list of nodes are the parsers of its members. -/
@[simp] theorem parsers_eq_map (call : ι → Parser (Value κ)) (gs : List (Grammar ι κ)) :
    parsers call gs = gs.map (parser call) := by
  induction gs with
  | nil => rfl
  | cons g gs ih => simp [parsers, ih]

end Grammar

/-- A named rule: its body, and the action that makes the value of the rule from that of the
    body. -/
structure Rule (ι κ : Type) where
  name : String
  body : Grammar ι κ
  action : Value κ → Value κ

/-- The rules that a grammar may refer to. There are finitely many keys. -/
structure Rulebook (ι κ : Type) where
  keys : List ι
  rule : ι → Rule ι κ
  mem_keys : ∀ i, i ∈ keys

namespace Rulebook

variable {ι κ : Type}

/-- No rules. -/
def noRules : Rulebook Empty κ := ⟨[], nofun, nofun⟩

/-- The rules of a list, with their positions as keys. -/
def ofList {n : Nat} (rules : List (Rule (Fin n) κ)) (h : rules.length = n) :
    Rulebook (Fin n) κ where
  keys := List.finRange n
  rule i := rules.get (i.cast h.symm)
  mem_keys := List.mem_finRange

/-- What a reference to a rule does, when rules may be nested `fuel` deep. -/
def call (book : Rulebook ι κ) : Nat → ι → Parser (Value κ)
  | 0, _ => fun _ => Run.outOfFuel
  | fuel + 1, i =>
    let r := book.rule i
    Parser.named r.name r.action (r.body.parser (book.call fuel))

/-- What `g` does at a cursor, when rules may be nested `fuel` deep. -/
def runWith (book : Rulebook ι κ) (fuel : Nat) (g : Grammar ι κ) : Parser (Value κ) :=
  g.parser (book.call fuel)

/-- How deep rules are nested at most in a run that ends. What a rule does depends on its key and
    the offset alone, so one that is entered again at the offset where it is being read would be
    entered there for ever: on the way to an end each key stands at each offset once. -/
def depthBound (book : Rulebook ι κ) : Nat := 0x10000000000000000 * book.keys.length

/-- What `g` does at a cursor. -/
def run (book : Rulebook ι κ) (g : Grammar ι κ) : Parser (Value κ) :=
  book.runWith book.depthBound g

end Rulebook

end ParserKit
