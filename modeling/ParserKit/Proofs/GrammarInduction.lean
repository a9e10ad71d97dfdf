import ParserKit.Grammar.Check

/-!
# Induction over grammars and their runs

A grammar is a tree whose leaves may refer to rules, and a run follows the references. This file
has the principles by which both are reasoned about: structural induction on one grammar, the
nodes that are reached from it through children and rule bodies, and the induction that goes
through every run (`Rulebook.runWith_induction`), which asks for one case per kind of node and
never mentions fuel.

## Key results

- `Grammar.structural_induction`: induction on a grammar, with the motive for every child
- `Rulebook.Reaches`: the nodes reached from a grammar
- `Rulebook.depth_induction`: induction along a run, over children and over the bodies of rules
- `Rulebook.runWith_induction`: what the terminals have and every combinator keeps, all runs have
-/

namespace ParserKit

variable {ι κ : Type}

namespace Grammar

/-- To prove something of every grammar, prove it of a node from the same of its children. -/
@[elab_as_elim]
theorem structural_induction {motive : Grammar ι κ → Prop}
    (node : ∀ g, (∀ h ∈ g.children, motive h) → motive g) (g : Grammar ι κ) : motive g := by
  -- a child has fewer nodes than the grammar it is in
  suffices ∀ n, ∀ g : Grammar ι κ, g.nodes ≤ n → motive g from this g.nodes g (Nat.le_refl _)
  intro n
  induction n with
  | zero =>
    intro g hg
    have hpos := g.nodes_pos
    omega
  | succ n ih =>
    intro g hg
    -- a child has no more nodes than all children together, and those have fewer than the grammar
    refine node g fun h hh => ih h ?_
    have hle := nodes_le_nodesOf hh
    have hlt := g.nodesOf_children_lt
    omega

mutual

/-- Whether every node of a grammar passes a test. Rules are not followed. -/
def all (p : Grammar ι κ → Bool) : Grammar ι κ → Bool
  | sequence items => p (sequence items) && allOf p items
  | either branches => p (either branches) && allOf p branches
  | oneOf form types branches => p (oneOf form types branches) && allOf p branches
  | many item => p (many item) && item.all p
  | map f inner => p (map f inner) && inner.all p
  | watch label inner => p (watch label inner) && inner.all p
  | endOfInput => p endOfInput
  | symbol x => p (symbol x)
  | range lo hi => p (range lo hi)
  | word w => p (word w)
  | rule i => p (rule i)
  | custom read => p (custom read)

/-- Whether every node of each of the grammars passes a test. -/
def allOf (p : Grammar ι κ → Bool) : List (Grammar ι κ) → Bool
  | [] => true
  | g :: gs => g.all p && allOf p gs

end

/-- A test that all nodes of some grammars pass is passed by all nodes of each. -/
theorem allOf_eq_true {p : Grammar ι κ → Bool} {gs : List (Grammar ι κ)} :
    allOf p gs = true ↔ ∀ g ∈ gs, g.all p = true := by
  induction gs with
  | nil => simp [allOf]
  | cons g gs ih => simp [allOf, ih]

/-- A test that all nodes pass is passed by the grammar itself and by all nodes of its children. -/
theorem all_eq_true {p : Grammar ι κ → Bool} {g : Grammar ι κ} :
    g.all p = true ↔ p g = true ∧ ∀ h ∈ g.children, h.all p = true := by
  cases g <;> simp [all, children, allOf_eq_true]

/-- Whether the node is a parser of one's own. -/
def isCustom : Grammar ι κ → Bool
  | custom _ => true
  | _ => false

end Grammar

namespace Rulebook

/-! ## The nodes of a grammar with rules -/

/-- `book.Reaches g h`: the node `h` is met on some way down from `g`, through children and
    through the bodies of rules. -/
inductive Reaches (book : Rulebook ι κ) : Grammar ι κ → Grammar ι κ → Prop
  | refl (g : Grammar ι κ) : Reaches book g g
  | child {g h k : Grammar ι κ} : h ∈ g.children → Reaches book h k → Reaches book g k
  | body {i : ι} {k : Grammar ι κ} :
      Reaches book (book.rule i).body k → Reaches book (.rule i) k

variable {book : Rulebook ι κ}

/-- Ways down may be put one after the other. -/
theorem Reaches.trans {g h k : Grammar ι κ} (hgh : book.Reaches g h) (hhk : book.Reaches h k) :
    book.Reaches g k := by
  induction hgh with
  | refl => exact hhk
  | child hmem _ ih => exact .child hmem (ih hhk)
  | body _ ih => exact .body (ih hhk)

/-- What all nodes of a grammar and of every rule pass, the nodes reached from it pass. -/
theorem Reaches.of_all {p : Grammar ι κ → Bool} {g h : Grammar ι κ} (hgh : book.Reaches g h)
    (hbook : ∀ i, (book.rule i).body.all p = true) (hg : g.all p = true) : p h = true := by
  induction hgh with
  | refl => exact (Grammar.all_eq_true.1 hg).1
  | child hmem _ ih => exact ih ((Grammar.all_eq_true.1 hg).2 _ hmem)
  | body _ ih => exact ih (hbook _)

/-- No parser of one's own is reached from `g`. -/
def CustomFree (book : Rulebook ι κ) (g : Grammar ι κ) : Prop :=
  ∀ read, ¬ book.Reaches g (.custom read)

/-- A rule book in which no parser of one's own occurs is free of them. -/
theorem customFree_of_all {g : Grammar ι κ}
    (hbook : ∀ i, (book.rule i).body.all (fun h => !h.isCustom) = true)
    (hg : g.all (fun h => !h.isCustom) = true) : book.CustomFree g := fun read h => by
  have hread := h.of_all hbook hg
  simp [Grammar.isCustom] at hread

/-! ## Induction over runs -/

/-- A property of grammars and the parsers they are run by that every kind of node passes on from
    its parts to itself. -/
structure Compositional (book : Rulebook ι κ) (P : Grammar ι κ → Parser (Value κ) → Prop) :
    Prop where
  /-- A rule that may not be entered any more. -/
  outOfFuel (i : ι) : P (.rule i) fun _ => Run.outOfFuel
  endOfInput : P .endOfInput (Parser.map (fun _ => .eof) Parser.endOfInput)
  symbol (x : Char) : P (.symbol x) (Parser.map .char (Parser.symbol x))
  range (lo hi : Char) : P (.range lo hi) (Parser.map .char (Parser.range lo hi))
  word (w : String) : P (.word w) (Parser.map .word (Parser.word w))
  sequence (items : List (Grammar ι κ)) (run : Grammar ι κ → Parser (Value κ)) :
    (∀ g ∈ items, P g (run g)) →
      P (.sequence items) (Parser.map .seq (Parser.sequence (items.map run)))
  either (branches : List (Grammar ι κ)) (run : Grammar ι κ → Parser (Value κ)) :
    (∀ g ∈ branches, P g (run g)) → P (.either branches) (Parser.choice (branches.map run))
  oneOf (form : Form) (types : List String) (branches : List (Grammar ι κ))
    (run : Grammar ι κ → Parser (Value κ)) :
    (∀ g ∈ branches, P g (run g)) →
      P (.oneOf form types branches)
        (Parser.map (Grammar.formValue form) (Parser.tagged (types.zip (branches.map run))))
  many (item : Grammar ι κ) (p : Parser (Value κ)) :
    P item p → P (.many item) (Parser.map .many (Parser.many p))
  map (f : Value κ → Value κ) (inner : Grammar ι κ) (p : Parser (Value κ)) :
    P inner p → P (.map f inner) (Parser.mapped f p)
  rule (i : ι) (p : Parser (Value κ)) :
    P (book.rule i).body p →
      P (.rule i) (Parser.named (book.rule i).name (book.rule i).action p)
  watch (label : String) (inner : Grammar ι κ) (p : Parser (Value κ)) :
    P inner p → P (.watch label inner) (Parser.watched label p)

/-! ### Runs of each kind of node -/

/-- The equations of a run with some fuel, node by node: a sequence runs its items with the same
    fuel. -/
theorem runWith_sequence (fuel : Nat) (items : List (Grammar ι κ)) :
    book.runWith fuel (.sequence items) =
      Parser.map .seq (Parser.sequence (items.map (book.runWith fuel))) := by
  simp only [runWith, Grammar.parser, Grammar.parsers_eq_map]
  rfl

/-- A choice runs its branches with the same fuel. -/
theorem runWith_either (fuel : Nat) (branches : List (Grammar ι κ)) :
    book.runWith fuel (.either branches) = Parser.choice (branches.map (book.runWith fuel)) := by
  simp only [runWith, Grammar.parser, Grammar.parsers_eq_map]
  rfl

/-- A tagged choice runs its branches with the same fuel, each with its type. -/
theorem runWith_oneOf (fuel : Nat) (form : Form) (types : List String)
    (branches : List (Grammar ι κ)) :
    book.runWith fuel (.oneOf form types branches) = Parser.map (Grammar.formValue form)
      (Parser.tagged (types.zip (branches.map (book.runWith fuel)))) := by
  simp only [runWith, Grammar.parser, Grammar.parsers_eq_map]
  rfl

theorem runWith_many (fuel : Nat) (item : Grammar ι κ) :
    book.runWith fuel (.many item) = Parser.map .many (Parser.many (book.runWith fuel item)) := rfl

theorem runWith_map (fuel : Nat) (f : Value κ → Value κ) (inner : Grammar ι κ) :
    book.runWith fuel (.map f inner) = Parser.mapped f (book.runWith fuel inner) := rfl

theorem runWith_watch (fuel : Nat) (label : String) (inner : Grammar ι κ) :
    book.runWith fuel (.watch label inner) = Parser.watched label (book.runWith fuel inner) := rfl

/-- Without fuel no rule is entered. -/
theorem runWith_rule_zero (i : ι) :
    book.runWith 0 (.rule i) = fun _ => Run.outOfFuel := rfl

/-- A rule runs its body with one unit of fuel less. -/
theorem runWith_rule_succ (fuel : Nat) (i : ι) :
    book.runWith (fuel + 1) (.rule i) =
      Parser.named (book.rule i).name (book.rule i).action
        (book.runWith fuel (book.rule i).body) := rfl

/-! ### Two principles -/

/-- Induction along a run: to prove something of every grammar at every fuel, prove it of a node
    from the same of its children, and of a rule from the same of its body at less fuel. -/
theorem depth_induction (book : Rulebook ι κ) {motive : Nat → Grammar ι κ → Prop}
    (node : ∀ n g, (∀ h ∈ g.children, motive n h) →
      (∀ m i, n = m + 1 → g = .rule i → motive m (book.rule i).body) → motive n g)
    (n : Nat) (g : Grammar ι κ) : motive n g := by
  -- the outer induction pays for entering a rule, the inner one for going down to a child
  induction n generalizing g with
  | zero =>
    induction g using Grammar.structural_induction with
    | node g ih => exact node 0 g ih fun m i hm _ => by cases hm
  | succ n ihn =>
    induction g using Grammar.structural_induction with
    | node g ih =>
      refine node (n + 1) g ih fun m i hm _ => ?_
      obtain rfl : n = m := Nat.succ.inj hm
      exact ihn (book.rule i).body

/-- A compositional property that also holds of the custom parsers reached from `g` holds of every
    run of `g`, however deep rules may be nested. -/
theorem runWith_induction {P : Grammar ι κ → Parser (Value κ) → Prop}
    (hP : book.Compositional P) (fuel : Nat) {g : Grammar ι κ}
    (hcustom : ∀ read, book.Reaches g (.custom read) →
      P (.custom read) fun c => Run.ofExcept (read c)) :
    P g (book.runWith fuel g) := by
  induction fuel, g using depth_induction book with
  | node fuel g ihchild ihbody =>
    -- what is reached from a child is reached from the grammar
    have hchild : ∀ h ∈ g.children, P h (book.runWith fuel h) := fun h hh =>
      ihchild h hh fun read hr => hcustom read (.child hh hr)
    cases g with
    | endOfInput => exact hP.endOfInput
    | symbol x => exact hP.symbol x
    | range lo hi => exact hP.range lo hi
    | word w => exact hP.word w
    | sequence items => rw [runWith_sequence]; exact hP.sequence items _ hchild
    | either branches => rw [runWith_either]; exact hP.either branches _ hchild
    | oneOf form types branches =>
      rw [runWith_oneOf]
      exact hP.oneOf form types branches _ hchild
    | many item => exact hP.many item _ (hchild item (List.mem_singleton_self item))
    | map f inner => exact hP.map f inner _ (hchild inner (List.mem_singleton_self inner))
    | rule i =>
      -- entering the rule takes a unit of fuel
      cases fuel with
      | zero => exact hP.outOfFuel i
      | succ fuel =>
        have hbody : P (book.rule i).body (book.runWith fuel (book.rule i).body) :=
          ihbody fuel i rfl rfl fun read hr => hcustom read (.body hr)
        exact hP.rule i _ hbody
    | watch label inner =>
      exact hP.watch label inner _ (hchild inner (List.mem_singleton_self inner))
    | custom read => exact hcustom read (.refl _)

/-- A compositional property holds of every run of a grammar without custom parsers. -/
theorem runWith_induction_of_customFree {P : Grammar ι κ → Parser (Value κ) → Prop}
    (hP : book.Compositional P) (fuel : Nat) {g : Grammar ι κ} (hg : book.CustomFree g) :
    P g (book.runWith fuel g) :=
  runWith_induction hP fuel fun read h => absurd h (hg read)

end Rulebook

end ParserKit
