import ParserKit.Proofs.Recognition
import ParserKit.Sample.Brackets

/-!
# Honest failures

A failure says three things: an offset that it blames, what was expected there, and how far the
parse came. All of them are true. At the blamed offset the parse ran a node that expects just that,
and the node failed there; if it was a choice, so did every branch of it. At the furthest offset
the parse ran a terminal, and the terminal failed there.

`Rulebook.FailsThrough` relates a grammar that fails to the nodes whose failing made it fail, with
the offsets at which both were run. The blame and the furthest offset take different ways down: a
choice resets the one and takes the largest of the other over its branches. That this largest
offset is the one of a branch, and not the start of the choice, is where a choice needs to have
branches (`Rulebook.HasBranches`).

## Key results

- `Parser.choiceFrom_failed`, `Parser.exists_furthest_of_choiceFrom`: what is known of the failure
  of a choice
- `exists_item_of_sequence_failed`: a sequence fails with the failure of one of its items
- `FailsThrough.fails`, `FailsThrough.failsAt`: both ends of a way down fail
- `honest_of_choice`: a choice is honest if its branches are
- `honest_of_runWith`: every failure is honest
-/

namespace ParserKit

variable {α β ι κ : Type}

/-! ## Failures of the combinators -/

namespace Parser

variable {c : Cursor} {p : Parser α} {ps : List (Parser α)} {furthest : Offset} {f : Failure}

/-- All parsers of a choice that failed have failed; the failure blames the start of the choice, and
    comes from there as far as one of them came, or as far as was come before. -/
theorem choiceFrom_failed (h : (choiceFrom c furthest ps).ending = .ok (.failed f)) :
    (∀ p ∈ ps, ∃ e, (p c).ending = .ok (.failed e)) ∧
    f.expected = .alternative ∧ f.blamed = c.offset ∧
    (f.furthest = Offset.max c.offset furthest ∨
      ∃ p ∈ ps, ∃ e, (p c).ending = .ok (.failed e) ∧ f.furthest = e.furthest) := by
  -- the induction follows the branches, with what was reached before as a parameter
  induction ps generalizing furthest with
  | nil =>
    cases h
    exact ⟨nofun, rfl, rfl, .inl rfl⟩
  | cons p ps ih =>
    obtain ⟨x, hx, h⟩ := Run.andThen_eq_ok.1 h
    cases x with
    | done v s => cases h
    | failed e =>
      obtain ⟨hps, hexpected, hblamed, hfurthest⟩ := ih h
      refine ⟨List.forall_mem_cons.2 ⟨⟨e, hx⟩, hps⟩, hexpected, hblamed, ?_⟩
      -- the largest of the offsets reached is that of `p` or of a branch behind it
      rcases hfurthest with hmax | ⟨q, hq, e', he', hfurthest⟩
      · -- the parser `p` came further than all before it, or no further
        by_cases hle : (Offset.max c.offset furthest).val ≤ e.furthest.val
        · right
          refine ⟨p, List.mem_cons_self, e, hx, ?_⟩
          rw [hmax]
          simp only [Fin.ext_iff, Offset.val_max] at hle ⊢
          omega
        · left
          rw [hmax]
          simp only [Fin.ext_iff, Offset.val_max] at hle ⊢
          omega
      · exact .inr ⟨q, List.mem_cons_of_mem p hq, e', he', hfurthest⟩

/-- A choice that has parsers, of which none comes behind its start, came just as far as one of
    them. -/
theorem exists_furthest_of_choiceFrom (hps : ps ≠ [])
    (hfirst : ∀ p ∈ ps, ∀ e, (p c).ending = .ok (.failed e) → c.offset.val ≤ e.furthest.val)
    (hfurthest : furthest.val ≤ c.offset.val)
    (h : (choiceFrom c furthest ps).ending = .ok (.failed f)) :
    ∃ p ∈ ps, ∃ e, (p c).ending = .ok (.failed e) ∧ f.furthest = e.furthest := by
  cases ps with
  | nil => exact absurd rfl hps
  | cons p ps =>
    obtain ⟨x, hx, h⟩ := Run.andThen_eq_ok.1 h
    cases x with
    | done v s => cases h
    | failed e =>
      -- what counts as reached before the others is what `p` came to
      have hle := hfirst p List.mem_cons_self e hx
      obtain ⟨-, -, -, hmax | ⟨q, hq, e', he', hf⟩⟩ := choiceFrom_failed h
      · refine ⟨p, List.mem_cons_self, e, hx, ?_⟩
        rw [hmax]
        simp only [Fin.ext_iff, Offset.val_max]
        omega
      · exact ⟨q, List.mem_cons_of_mem p hq, e', he', hf⟩

/-- A tagged choice fails as the choice of its alternatives does. -/
theorem tagged_eq_failed {types : List String} (hlen : types.length = ps.length)
    (h : (tagged (types.zip ps) c).ending = .ok (.failed f)) :
    (choiceFrom c c.offset ps).ending = .ok (.failed f) := by
  have hpayload : ((tagged (types.zip ps) c).mapValue fun w => w.storage.payload).ending =
      .ok (.failed f) := Run.mapValue_eq_failed.2 h
  rwa [tagged, ending_taggedFrom_zip, List.take_of_length_le (Nat.le_of_eq hlen.symm)] at hpayload

/-- A repetition never fails. -/
theorem manyFrom_ne_failed (p : Parser α) (start : Offset) (c : Cursor) :
    (manyFrom p start c).ending ≠ .ok (.failed f) := by
  -- a round is followed by another one only further on in the text
  induction c using Cursor.forward_induction with
  | further c ih =>
    intro h
    rw [manyFrom] at h
    obtain ⟨x, hx, h⟩ := Run.andThen_eq_ok.1 h
    cases x with
    | failed e => exact Run.doneAt_ne_failed h
    | done v s =>
      dsimp only at h
      split at h
      · rename_i hmoves
        exact ih s.stop hmoves (Run.mapValue_eq_failed.1 h)
      · exact Run.doneAt_ne_failed h

/-- A run that hands failures on fails with the failure that it is handed. -/
private theorem eq_failed_of_andThen {r : Run (Outcome α)} {k : Outcome α → Run (Outcome β)}
    (hdone : ∀ v s, (k (.done v s)).ending ≠ .ok (.failed f))
    (hfailed : ∀ e, (k (.failed e)).ending = .ok (.failed e))
    (h : (r.andThen k).ending = .ok (.failed f)) : r.ending = .ok (.failed f) := by
  obtain ⟨x, hx, h⟩ := Run.andThen_eq_ok.1 h
  cases x with
  | done v s => exact absurd h (hdone v s)
  | failed e =>
    obtain rfl : e = f := by simpa [hfailed] using h
    exact hx

/-- A mapping fails with the failure of the parser that it maps. -/
theorem mapped_eq_failed {g : α → β} (h : (mapped g p c).ending = .ok (.failed f)) :
    (p c).ending = .ok (.failed f) :=
  eq_failed_of_andThen (fun _ _ h => by cases h) (fun _ => rfl) h

/-- A rule fails with the failure of its body. -/
theorem named_eq_failed {name : String} {action : α → β}
    (h : (named name action p c).ending = .ok (.failed f)) : (p c).ending = .ok (.failed f) :=
  eq_failed_of_andThen (fun _ _ h => by cases h) (fun _ => rfl) h

/-! ### Terminals

A terminal blames the cursor, names itself, and comes no further. -/

/-- The end of the text is missed at the cursor. -/
theorem endOfInput_eq_failed (h : (endOfInput c).ending = .ok (.failed f)) :
    f = .expecting .endOfInput c.offset := by
  unfold endOfInput at h
  split at h
  · cases h
  · cases h
    rfl

/-- A symbol is missed at the cursor, whether another character stands there or none. -/
theorem symbol_eq_failed {x : Char} (h : (symbol x c).ending = .ok (.failed f)) :
    f = .expecting (.symbol x) c.offset := by
  unfold symbol at h
  split at h
  · split at h
    · exact absurd h Run.doneAt_ne_failed
    · cases h
      rfl
  · cases h
    rfl

/-- So is a character of a range. -/
theorem range_eq_failed {lo hi : Char} (h : (range lo hi c).ending = .ok (.failed f)) :
    f = .expecting (.range lo hi) c.offset := by
  unfold range at h
  split at h
  · split at h
    · exact absurd h Run.doneAt_ne_failed
    · cases h
      rfl
  · cases h
    rfl

/-- A word is missed where it would begin, and not where it differs. -/
theorem word_eq_failed {w : String} (h : (word w c).ending = .ok (.failed f)) :
    f = .expecting (.word w) c.offset := by
  unfold word at h
  split at h
  · exact absurd h Run.doneAt_ne_failed
  · cases h
    rfl

end Parser

/-! ## What a node expects -/

namespace Grammar

/-- What a node names as expected when it fails itself, and does not just hand on the failure of a
    node inside. -/
def expects? : Grammar ι κ → Option Expectation
  | endOfInput => some .endOfInput
  | symbol x => some (.symbol x)
  | range lo hi => some (.range lo hi)
  | word w => some (.word w)
  | either _ => some .alternative
  | oneOf _ _ _ => some .alternative
  | _ => none

/-- Whether the node looks at the text itself. -/
def isTerminal : Grammar ι κ → Bool
  | endOfInput => true
  | symbol _ => true
  | range _ _ => true
  | word _ => true
  | _ => false

/-- Whether the node, if it is a choice, has something to choose from. A choice is built from one
    parser at least, and a tagged one has one type for each. -/
def hasBranches : Grammar ι κ → Bool
  | either branches => !branches.isEmpty
  | oneOf _ types branches => !branches.isEmpty && types.length == branches.length
  | _ => true

end Grammar

namespace Rulebook

/-- All choices reached from `g` have branches. -/
def HasBranches (book : Rulebook ι κ) (g : Grammar ι κ) : Prop :=
  ∀ h, book.Reaches g h → h.hasBranches = true

/-! ## Why a grammar failed -/

/-- The grammar, run at the offset, fails. -/
def FailsAt (book : Rulebook ι κ) (input : String) (g : Grammar ι κ) (o : Offset) : Prop :=
  ∃ f, (book.run g ⟨input, o⟩).ending = .ok (.failed f)

/-- `book.ReadsTo input gs o q`: the grammars, each run at the end of what the one before it read,
    all succeed from `o` on, and the last of them stops at `q`. -/
inductive ReadsTo (book : Rulebook ι κ) (input : String) :
    List (Grammar ι κ) → Offset → Offset → Prop
  | nil (o : Offset) : ReadsTo book input [] o o
  | cons {g : Grammar ι κ} {gs : List (Grammar ι κ)} {o q : Offset} {v : Value κ} {s : Span} :
      (book.run g ⟨input, o⟩).ending = .ok (.done v s) → ReadsTo book input gs s.stop q →
      ReadsTo book input (g :: gs) o q

/-- `book.FailsThrough input g o h q`: the run of `g` at `o` comes to run `h` at `q`, where it
    fails, and `g` fails for that. A sequence fails through the item that its matches lead to, a
    choice through any of its branches when all of them fail. -/
inductive FailsThrough (book : Rulebook ι κ) (input : String) :
    Grammar ι κ → Offset → Grammar ι κ → Offset → Prop
  | self {g : Grammar ι κ} {o : Offset} :
      book.FailsAt input g o → FailsThrough book input g o g o
  | sequence {before after : List (Grammar ι κ)} {g h : Grammar ι κ} {o p q : Offset} :
      book.ReadsTo input before o p → FailsThrough book input g p h q →
      FailsThrough book input (.sequence (before ++ g :: after)) o h q
  | either {branches : List (Grammar ι κ)} {g h : Grammar ι κ} {o q : Offset} :
      (∀ b ∈ branches, book.FailsAt input b o) → g ∈ branches →
      FailsThrough book input g o h q → FailsThrough book input (.either branches) o h q
  | oneOf {form : Form} {types : List String} {branches : List (Grammar ι κ)}
      {g h : Grammar ι κ} {o q : Offset} :
      (∀ b ∈ branches, book.FailsAt input b o) → g ∈ branches →
      FailsThrough book input g o h q → FailsThrough book input (.oneOf form types branches) o h q
  | map {f : Value κ → Value κ} {inner h : Grammar ι κ} {o q : Offset} :
      FailsThrough book input inner o h q → FailsThrough book input (.map f inner) o h q
  | rule {i : ι} {h : Grammar ι κ} {o q : Offset} :
      FailsThrough book input (book.rule i).body o h q → FailsThrough book input (.rule i) o h q
  | watch {label : String} {inner h : Grammar ι κ} {o q : Offset} :
      FailsThrough book input inner o h q → FailsThrough book input (.watch label inner) o h q

variable {book : Rulebook ι κ} {input : String} {g h : Grammar ι κ} {o q : Offset}

/-- The node that a failure is led back to is reached from the grammar. -/
theorem FailsThrough.reaches (hgh : book.FailsThrough input g o h q) : book.Reaches g h := by
  induction hgh with
  | self => exact .refl _
  | sequence _ _ ih => exact .child (List.mem_append_right _ List.mem_cons_self) ih
  | either _ hg _ ih => exact .child hg ih
  | oneOf _ hg _ ih => exact .child hg ih
  | map _ ih => exact .child (List.mem_singleton_self _) ih
  | rule _ ih => exact .body ih
  | watch _ ih => exact .child (List.mem_singleton_self _) ih

/-- The node that a failure is led back to fails at its offset. -/
theorem FailsThrough.failsAt (hgh : book.FailsThrough input g o h q) : book.FailsAt input h q := by
  induction hgh with
  | self hfails => exact hfails
  | sequence _ _ ih | either _ _ _ ih | oneOf _ _ _ ih | map _ ih | rule _ ih | watch _ ih =>
    exact ih

/-- A sequence fails as the item does that its matches lead to. -/
theorem ReadsTo.sequenceFrom_failed {before : List (Grammar ι κ)} {p : Offset} {f : Failure}
    (hreads : book.ReadsTo input before o p)
    (hf : (book.run g ⟨input, p⟩).ending = .ok (.failed f)) (after : List (Grammar ι κ))
    (start : Offset) :
    (Parser.sequenceFrom start ((before ++ g :: after).map book.run) ⟨input, o⟩).ending =
      .ok (.failed f) := by
  induction hreads with
  | nil o => exact Run.andThen_eq_ok.2 ⟨_, hf, rfl⟩
  | cons hrun _ ih => exact Run.andThen_eq_ok.2 ⟨_, hrun, Run.mapValue_eq_failed.2 (ih hf)⟩

/-- A grammar that fails through some node does fail. -/
theorem FailsThrough.fails (hgh : book.FailsThrough input g o h q) : book.FailsAt input g o := by
  -- each step of the way down is the reason why the node above it failed
  induction hgh with
  | self hfails => exact hfails
  | @sequence before after g h o p q hreads _ ih =>
    obtain ⟨f, hf⟩ := ih
    refine ⟨f, ?_⟩
    rw [run_sequence]
    exact Run.mapValue_eq_failed.2 (hreads.sequenceFrom_failed hf after o)
  | @either branches g h o q hall _ _ _ =>
    have hps : ∀ p ∈ branches.map book.run, ∃ e, (p ⟨input, o⟩).ending = .ok (.failed e) :=
      List.forall_mem_map.2 hall
    obtain ⟨f, hf⟩ := Parser.exists_choiceFrom_failed hps Offset.zero
    refine ⟨f, ?_⟩
    rw [run_either, Parser.choice_eq_choiceFrom]
    exact hf
  | @oneOf form types branches g h o q hall _ _ _ =>
    -- a tagged choice fails as the choice of as many branches as it has types
    have hps : ∀ p ∈ branches.map book.run, ∃ e, (p ⟨input, o⟩).ending = .ok (.failed e) :=
      List.forall_mem_map.2 hall
    obtain ⟨f, hf⟩ := Parser.exists_choiceFrom_failed
      (fun p hp => hps p (List.mem_of_mem_take (i := types.length) hp)) o
    refine ⟨f, ?_⟩
    rw [run_oneOf]
    rw [← Parser.ending_taggedFrom_zip] at hf
    exact Run.mapValue_eq_failed.2 (Run.mapValue_eq_failed.1 hf)
  | map _ ih =>
    obtain ⟨f, hf⟩ := ih
    exact ⟨f, Run.andThen_eq_ok.2 ⟨_, hf, rfl⟩⟩
  | rule _ ih =>
    obtain ⟨f, hf⟩ := ih
    refine ⟨f, ?_⟩
    rw [ending_run_rule]
    exact Run.andThen_eq_ok.2 ⟨_, hf, rfl⟩
  | watch _ ih => exact ih

/-- A failure of `g` at `o` that says the truth. -/
structure Honest (book : Rulebook ι κ) (input : String) (g : Grammar ι κ) (o : Offset)
    (f : Failure) : Prop where
  /-- A node that expects what is expected fails at the blamed offset, with all nodes inside. -/
  blame : ∃ t, t.expects? = some f.expected ∧ book.FailsThrough input g o t f.blamed ∧
    ∀ b ∈ t.children, book.FailsAt input b f.blamed
  /-- A terminal fails at the furthest offset. -/
  furthest : ∃ t, t.isTerminal = true ∧ book.FailsThrough input g o t f.furthest

/-- What is handed on as it is stays honest. -/
theorem Honest.imp {f : Failure} (hh : book.Honest input h q f)
    (himp : ∀ t p, book.FailsThrough input h q t p → book.FailsThrough input g o t p) :
    book.Honest input g o f where
  blame := by
    obtain ⟨t, ht, hthrough, hchildren⟩ := hh.blame
    exact ⟨t, ht, himp t _ hthrough, hchildren⟩
  furthest := by
    obtain ⟨t, ht, hthrough⟩ := hh.furthest
    exact ⟨t, ht, himp t _ hthrough⟩

/-- A terminal that fails at the cursor is itself what is blamed, and what came furthest. -/
theorem honest_of_terminal {e : Expectation} {f : Failure} (ht : g.isTerminal = true)
    (hexpects : g.expects? = some e) (hf : f = .expecting e o) (hfails : book.FailsAt input g o) :
    book.Honest input g o f := by
  subst hf
  refine ⟨⟨g, hexpects, .self hfails, ?_⟩, ⟨g, ht, .self hfails⟩⟩
  -- a terminal has no nodes inside
  cases g with
  | endOfInput | symbol | range | word => exact nofun
  | sequence | either | oneOf | many | map | rule | watch | custom => cases ht

/-- A sequence fails with the failure of the item that the matches before lead to. -/
theorem exists_item_of_sequence_failed {n : Nat} {items : List (Grammar ι κ)} {start : Offset}
    {f : Failure} (h : (Parser.sequenceFrom start (items.map (book.runWith n)) ⟨input, o⟩).ending =
      .ok (.failed f)) :
    ∃ before g after p, items = before ++ g :: after ∧ book.ReadsTo input before o p ∧
      (book.runWith n g ⟨input, p⟩).ending = .ok (.failed f) := by
  -- the items that matched are collected until one fails
  induction items generalizing o with
  | nil => exact absurd h Run.doneAt_ne_failed
  | cons g items ih =>
    obtain ⟨x, hx, h⟩ := Run.andThen_eq_ok.1 h
    cases x with
    | failed e =>
      cases h
      exact ⟨[], g, items, o, rfl, .nil o, hx⟩
    | done v s =>
      obtain ⟨before, g', after, p, rfl, hreads, hf⟩ := ih (Run.mapValue_eq_failed.1 h)
      exact ⟨g :: before, g', after, p, rfl, .cons (ending_run_eq_ok hx) hreads, hf⟩

/-- A choice all of whose branches failed honestly fails honestly: it takes the blame itself, and
    comes as far as the branch that came furthest. -/
theorem honest_of_choice {n : Nat} {branches : List (Grammar ι κ)} {furthest : Offset}
    {f : Failure} (hbranches : branches ≠ []) (hfurthest : furthest.val ≤ o.val)
    (hfirst : ∀ b ∈ branches, ∀ e, (book.runWith n b ⟨input, o⟩).ending = .ok (.failed e) →
      o.val ≤ e.furthest.val)
    (hhonest : ∀ b ∈ branches, ∀ e, (book.runWith n b ⟨input, o⟩).ending = .ok (.failed e) →
      book.Honest input b o e)
    (h : (Parser.choiceFrom ⟨input, o⟩ furthest (branches.map (book.runWith n))).ending =
      .ok (.failed f))
    (hexpects : g.expects? = some .alternative) (hchildren : g.children = branches)
    (hfails : book.FailsAt input g o)
    (hthrough : (∀ b ∈ branches, book.FailsAt input b o) → ∀ b ∈ branches, ∀ t p,
      book.FailsThrough input b o t p → book.FailsThrough input g o t p) :
    book.Honest input g o f := by
  obtain ⟨hall, hexpected, hblamed, -⟩ := Parser.choiceFrom_failed h
  have hfailing : ∀ b ∈ branches, book.FailsAt input b o := by
    intro b hb
    obtain ⟨e, he⟩ := hall _ (List.mem_map_of_mem hb)
    exact ⟨e, ending_run_eq_ok he⟩
  -- the choice is blamed itself; the furthest offset is looked for in a branch
  refine ⟨⟨g, ?_, ?_, ?_⟩, ?_⟩
  · rw [hexpects, hexpected]
  · rw [hblamed]
    exact .self hfails
  · rw [hblamed, hchildren]
    exact hfailing
  · obtain ⟨p, hp, e, he, hf⟩ := Parser.exists_furthest_of_choiceFrom (by simpa using hbranches)
      (List.forall_mem_map.2 hfirst) hfurthest h
    obtain ⟨b, hb, rfl⟩ := List.mem_map.1 hp
    obtain ⟨t, ht, hbt⟩ := (hhonest b hb e he).furthest
    rw [hf]
    exact ⟨t, ht, hthrough hfailing b hb t _ hbt⟩

/-- Every failure is honest. -/
theorem honest_of_runWith (hsize : input.utf8ByteSize < 2 ^ 64) (n : Nat) (g : Grammar ι κ)
    (hfree : book.CustomFree g) (hbranches : book.HasBranches g) (o : Offset) (f : Failure)
    (hf : (book.runWith n g ⟨input, o⟩).ending = .ok (.failed f)) : book.Honest input g o f := by
  -- induction on the fuel and the grammar, as the runs are nested
  induction n, g using depth_induction book generalizing o f with
  | node n g ihchild ihbody =>
    have hfails : book.FailsAt input g o := ⟨f, ending_run_eq_ok hf⟩
    have hchild : ∀ h ∈ g.children, ∀ o e,
        (book.runWith n h ⟨input, o⟩).ending = .ok (.failed e) → book.Honest input h o e :=
      fun h hh => ihchild h hh (fun read hr => hfree read (.child hh hr))
        fun k hk => hbranches k (.child hh hk)
    -- nothing inside comes to an offset before the start
    have hfirst : ∀ h ∈ g.children, ∀ e,
        (book.runWith n h ⟨input, o⟩).ending = .ok (.failed e) → o.val ≤ e.furthest.val := by
      intro h hh e he
      have hwithin := runWith_within (fun read hr => hfree read (.child hh hr)) hsize
        (c := ⟨input, o⟩) n
      exact (hwithin.outcome he).2.le
    cases g with
    | endOfInput =>
      exact honest_of_terminal rfl rfl
        (Parser.endOfInput_eq_failed (Run.mapValue_eq_failed.1 hf)) hfails
    | symbol x =>
      exact honest_of_terminal rfl rfl
        (Parser.symbol_eq_failed (Run.mapValue_eq_failed.1 hf)) hfails
    | range lo hi =>
      exact honest_of_terminal rfl rfl
        (Parser.range_eq_failed (Run.mapValue_eq_failed.1 hf)) hfails
    | word w =>
      exact honest_of_terminal rfl rfl
        (Parser.word_eq_failed (Run.mapValue_eq_failed.1 hf)) hfails
    | sequence items =>
      rw [runWith_sequence] at hf
      obtain ⟨before, h, after, p, rfl, hreads, hp⟩ :=
        exists_item_of_sequence_failed (Run.mapValue_eq_failed.1 hf)
      -- the failure of the item is handed on with its blame and its furthest offset
      have hh := hchild h (List.mem_append_right _ List.mem_cons_self) p f hp
      exact hh.imp fun t q => .sequence hreads
    | either branches =>
      rw [runWith_either, Parser.choice_eq_choiceFrom] at hf
      have hne : branches ≠ [] := by simpa [Grammar.hasBranches] using hbranches _ (.refl _)
      exact honest_of_choice hne (Nat.zero_le _) hfirst (fun b hb => hchild b hb o) hf rfl rfl
        hfails fun hall b hb t p => .either hall hb
    | oneOf form types branches =>
      obtain ⟨hne, hlen⟩ : branches ≠ [] ∧ types.length = branches.length := by
        simpa [Grammar.hasBranches] using hbranches _ (.refl _)
      rw [runWith_oneOf] at hf
      have hchoice := Parser.tagged_eq_failed (by simpa using hlen) (Run.mapValue_eq_failed.1 hf)
      exact honest_of_choice hne (Nat.le_refl _) hfirst (fun b hb => hchild b hb o) hchoice rfl
        rfl hfails fun hall b hb t p => .oneOf hall hb
    | many item =>
      rw [runWith_many] at hf
      exact absurd (Run.mapValue_eq_failed.1 hf) (Parser.manyFrom_ne_failed _ _ _)
    | map f' inner =>
      rw [runWith_map] at hf
      have hinner := hchild inner (List.mem_singleton_self inner) o f (Parser.mapped_eq_failed hf)
      exact hinner.imp fun t q => .map
    | rule i =>
      -- without fuel a rule gives no failure either
      cases n with
      | zero =>
        rw [runWith_rule_zero] at hf
        cases hf
      | succ n =>
        rw [runWith_rule_succ] at hf
        have hbody := ihbody n i rfl rfl (fun read hr => hfree read (.body hr))
          (fun k hk => hbranches k (.body hk)) o f (Parser.named_eq_failed hf)
        exact hbody.imp fun t q => .rule
    | watch label inner =>
      rw [runWith_watch] at hf
      exact (hchild inner (List.mem_singleton_self inner) o f hf).imp fun t q => .watch
    | custom read => exact absurd (.refl _) (hfree read)

/-- What a failure says of a parse without custom parsers, begun anywhere in a text. At the blamed
    offset, the parse ran a node that expects what the failure says was expected. The node failed
    there: a terminal, or a choice with all of its branches. At the furthest offset, the parse ran
    a terminal that failed there. -/
theorem run_failure_honest (book : Rulebook ι κ) (g : Grammar ι κ) (hfree : book.CustomFree g)
    (hbranches : book.HasBranches g) (input : String) (hsize : input.utf8ByteSize < 2 ^ 64)
    (o : Offset) (f : Failure) (hf : (book.run g ⟨input, o⟩).ending = .ok (.failed f)) :
    (∃ t, book.Reaches g t ∧ t.expects? = some f.expected ∧
      book.FailsThrough input g o t f.blamed ∧ book.FailsAt input t f.blamed ∧
      ∀ b ∈ t.children, book.FailsAt input b f.blamed) ∧
    ∃ t, book.Reaches g t ∧ t.isTerminal = true ∧
      book.FailsThrough input g o t f.furthest ∧ book.FailsAt input t f.furthest := by
  have hhonest := honest_of_runWith hsize book.depthBound g hfree hbranches o f hf
  constructor
  · obtain ⟨t, hexpects, hthrough, hchildren⟩ := hhonest.blame
    exact ⟨t, hthrough.reaches, hexpects, hthrough, hthrough.failsAt, hchildren⟩
  · obtain ⟨t, hterminal, hthrough⟩ := hhonest.furthest
    exact ⟨t, hthrough.reaches, hterminal, hthrough, hthrough.failsAt⟩

/-- An opening bracket inside another, of which neither is closed. Both kinds of pair fail at the
    start, and a terminal fails behind the first bracket: the attempt inside came further, but what
    ends a repetition is forgotten. -/
theorem run_failure_honest_unclosed :
    (Sample.BracketRule.book.run (.rule .paren) ⟨"(\x7b", 0⟩).ending =
      .ok (.failed ⟨0, 1, .alternative, by decide⟩) ∧
    (∃ t, Sample.BracketRule.book.Reaches (.rule .paren) t ∧ t.expects? = some .alternative ∧
      ∀ b ∈ t.children, Sample.BracketRule.book.FailsAt "(\x7b" b 0) ∧
    ∃ t, Sample.BracketRule.book.Reaches (.rule .paren) t ∧ t.isTerminal = true ∧
      Sample.BracketRule.book.FailsAt "(\x7b" t 1 := by
  have hends : (Sample.BracketRule.book.runWith 6 (.rule .paren) ⟨"(\x7b", 0⟩).ending =
      .ok (.failed ⟨0, 1, .alternative, by decide⟩) := by cbv
  replace hends := ending_run_eq_ok hends
  -- the conditions are checked rule by rule, as they are of all bodies
  have hfree : Sample.BracketRule.book.CustomFree (.rule .paren) :=
    customFree_of_all (by intro i; cases i <;> rfl) rfl
  have hbranches : Sample.BracketRule.book.HasBranches (.rule .paren) := fun h hh =>
    hh.of_all (by intro i; cases i <;> rfl) rfl
  obtain ⟨⟨t, hreach, hexpects, -, -, hchildren⟩, u, hreach', hterminal, -, hfails⟩ :=
    run_failure_honest _ _ hfree hbranches _ (by decide) _ _ hends
  exact ⟨hends, ⟨t, hreach, hexpects, hchildren⟩, u, hreach', hterminal, hfails⟩

end Rulebook

end ParserKit
