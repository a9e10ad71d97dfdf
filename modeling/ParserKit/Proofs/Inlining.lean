import Mathlib.Data.List.Zip
import ParserKit.Proofs.CheckCorrect
import ParserKit.Proofs.FuelIndependence

/-!
# Inlining a rule

A reference to a rule may be replaced by the body of the rule under a map with its action, wherever
it stands: in the grammar, in the bodies of other rules, in that of the rule itself, and in copies
that were put in before (`Grammar.Inlines`). The parse finishes as before and ends as before. Of the
trace, the records of the rule are gone for the copies, and where its action ran, the map runs
instead (`Trace.Inlined`), so no function on values runs more or less often.

A copy costs no fuel while a reference does. So the two runs are compared in both directions: each
with any fuel against the other with as much as `Rulebook.run` takes.

The checks of the two grammars go through different nodes in different orders, and a flaw in the
body of the rule may be met once more. But the verdict depends on what can be reached, and each node
that can be reached in one has its counterpart in the other.

## Key results

- `Trace.Inlined`: what becomes of a trace
- `Grammar.Inlines.related`: what goes through all combinators and from a rule to a copy of it goes
  from a grammar to one with copies
- `runWith_endsAs_run` / `runWith_endsAs_inlined`: the two directions
- `Inlines.exists_counterpart` / `Inlines.exists_met`: the counterparts of what can be reached
- `check_inlined_iff`: both grammars are well formed or neither
-/

namespace ParserKit

variable {α β γ ι κ : Type}

/-! ## Traces -/

/-- Whether the event is that a function on values ran. -/
def Event.isApplication : Event → Bool
  | .acted _ => true
  | .mapped => true
  | _ => false

namespace Trace

/-- How often the function of a map ran. -/
def mappings (events : List Event) : Nat := events.count .mapped

/-- How often a function on values ran, the action of any rule or the function of a map. -/
def applications (events : List Event) : Nat := events.countP Event.isApplication

/-- The second list is the first with a copy put in for some calls of the rule: for these, the
    records of entering and leaving it are gone, and where its action ran, a map ran. -/
inductive Inlined (rule : String) : List Event → List Event → Prop
  | nil : Inlined rule [] []
  | keep (e : Event) {es es' : List Event} : Inlined rule es es' → Inlined rule (e :: es) (e :: es')
  | entered (position : Offset) {es es' : List Event} :
      Inlined rule es es' → Inlined rule (.entered rule position :: es) es'
  | left (span : Span) {es es' : List Event} :
      Inlined rule es es' → Inlined rule (.left rule span :: .acted rule :: es) (.mapped :: es')
  | leftFailing (failure : Failure) {es es' : List Event} :
      Inlined rule es es' → Inlined rule (.leftFailing rule failure :: es) es'

variable {rule : String} {es es' fs fs' : List Event}

/-- A trace in which no call was replaced is its own counterpart. -/
theorem Inlined.refl (rule : String) (es : List Event) : Inlined rule es es := by
  induction es with
  | nil => exact .nil
  | cons e es ih => exact .keep e ih

/-- Traces are related if they consist of related parts. -/
theorem Inlined.append (h : Inlined rule es es') (hf : Inlined rule fs fs') :
    Inlined rule (es ++ fs) (es' ++ fs') := by
  induction h with
  | nil => exact hf
  | keep e _ ih => exact .keep e ih
  | entered position _ ih => exact .entered position ih
  | left span _ ih => exact .left span ih
  | leftFailing failure _ ih => exact .leftFailing failure ih

/-- The actions of all other rules run as often. -/
theorem Inlined.actions_eq (h : Inlined rule es es') {other : String} (hother : other ≠ rule) :
    actions other es = actions other es' := by
  unfold actions
  -- what is gone are records and an action of the rule, and a map is no action
  induction h with
  | nil => rfl
  | keep e _ ih => simp [List.count_cons, ih]
  | entered position _ ih => simpa using ih
  | left span _ ih => simpa [List.count_cons, Ne.symm hother] using ih
  | leftFailing failure _ ih => simpa using ih

/-- The action of the rule runs no more often, and where it does not run any more, a map does. -/
theorem Inlined.actions_add_mappings (h : Inlined rule es es') :
    actions rule es + mappings es = actions rule es' + mappings es' := by
  unfold actions mappings
  -- the sum stays at each step: one action of the rule goes where one map comes
  induction h with
  | nil => rfl
  | keep e _ ih =>
    simp only [List.count_cons]
    omega
  | entered position _ ih => simpa using ih
  | left span _ ih =>
    simp only [List.count_cons]
    simp
    omega
  | leftFailing failure _ ih => simpa using ih

/-- Functions on values run as often. -/
theorem Inlined.applications_eq (h : Inlined rule es es') : applications es = applications es' := by
  unfold applications
  -- an action and a map that takes its place count the same
  induction h with
  | nil => rfl
  | keep e _ ih => simp [List.countP_cons, ih]
  | entered position _ ih => simpa [List.countP_cons, Event.isApplication] using ih
  | left span _ ih => simpa [List.countP_cons, Event.isApplication] using ih
  | leftFailing failure _ ih => simpa [List.countP_cons, Event.isApplication] using ih

end Trace

/-! ## Runs that end alike -/

namespace Run

/-- The runs end alike, with related traces. -/
structure Matches (T : List Event → List Event → Prop) (r r' : Run β) : Prop where
  ending : r.ending = r'.ending
  trace : T r.trace.toList r'.trace.toList

/-- Unless `r` is out of fuel, `r'` matches it. -/
def EndsAs (T : List Event → List Event → Prop) (r r' : Run β) : Prop :=
  r.ending = .error .outOfFuel ∨ r.Matches T r'

variable {T : List Event → List Event → Prop}

/-- A run ends as another one does if it ends as an approximation of that. -/
theorem EndsAs.of_approximates {r r' r'' : Run β} (h : r.EndsAs T r')
    (h' : r'.Approximates r'') : r.EndsAs T r'' := by
  rcases h with hr | hmatches
  · exact .inl hr
  · rcases h' with hr' | rfl
    · exact .inl (hmatches.ending.trans hr')
    · exact .inr hmatches

/-- A relation between traces that goes through joining them goes through all combinators. -/
theorem endsAs_congruence (hrefl : ∀ es, T es es)
    (happend : ∀ {es es' fs fs'}, T es es' → T fs fs' → T (es ++ fs) (es' ++ fs')) :
    Congruence fun _ => EndsAs T where
  refl r := .inr ⟨rfl, hrefl _⟩
  andThen {β γ r r' k k'} h hk := by
    -- a run that is out of fuel goes no further; else the steps that follow start from one answer
    rcases h with hr | hmatches
    · left
      rw [ending_andThen, hr]
      rfl
    · cases hr : r.ending with
      | error stop =>
        have hr' := hmatches.ending.symm.trans hr
        right
        constructor
        · rw [ending_andThen, ending_andThen, hr, hr']
          rfl
        · rw [toList_andThen_of_error hr, toList_andThen_of_error hr']
          exact hmatches.trace
      | ok b =>
        have hr' := hmatches.ending.symm.trans hr
        -- the answers are the same, so what follows is related; it may run out of fuel itself
        rcases hk b with hb | hb
        · left
          rw [ending_andThen, hr]
          exact hb
        · right
          constructor
          · rw [ending_andThen, ending_andThen, hr, hr']
            exact hb.ending
          · rw [toList_andThen_of_ok hr, toList_andThen_of_ok hr']
            exact happend hmatches.trace hb.trace

/-- A congruence read from right to left is one as well. -/
theorem Congruence.swap {S : (β : Type) → Run β → Run β → Prop} (hS : Congruence S) :
    Congruence fun β r r' => S β r' r where
  refl := hS.refl
  andThen h hk := hS.andThen h hk

end Run

/-! ## A rule and its copy -/

namespace Parser

variable {p q : Parser α} {c : Cursor} {rule : String} {action : α → β}

/-- Under the name of a rule and under a map, parsers that match do so still. -/
theorem named_matches_mapped (h : (p c).Matches (Trace.Inlined rule) (q c)) (action : α → β) :
    (named rule action p c).Matches (Trace.Inlined rule) (mapped action q c) := by
  have hending := h.ending
  constructor
  · simp only [named, mapped, Run.ending_after, Run.ending_andThen, hending]
    rcases (q c).ending with stop | ⟨v, s⟩ | f <;> rfl
  · rw [named, Run.toList_after, mapped]
    -- the record of entering is gone; what the body did comes next, and then how it was left
    apply Trace.Inlined.entered
    cases hq : (q c).ending with
    | error stop =>
      rw [Run.toList_andThen_of_error (hending.trans hq), Run.toList_andThen_of_error hq]
      exact h.trace
    | ok o =>
      rw [Run.toList_andThen_of_ok (hending.trans hq), Run.toList_andThen_of_ok hq]
      apply h.trace.append
      cases o with
      | done v s => exact .left s .nil
      | failed f => exact .leftFailing f .nil

/-- A rule whose body is out of fuel is so as well. -/
theorem named_outOfFuel (h : (p c).ending = .error .outOfFuel) :
    (named rule action p c).ending = .error .outOfFuel := by
  simp [named, Run.ending_andThen, h, Except.bind]

/-- A map over what is out of fuel is so as well. -/
theorem mapped_outOfFuel (h : (p c).ending = .error .outOfFuel) :
    (mapped action p c).ending = .error .outOfFuel := by
  simp [mapped, Run.ending_andThen, h, Except.bind]

/-- A copy ends as the rule does. -/
theorem named_endsAs_mapped (h : (p c).EndsAs (Trace.Inlined rule) (q c)) (action : α → β) :
    (named rule action p c).EndsAs (Trace.Inlined rule) (mapped action q c) := by
  rcases h with hout | hmatches
  · exact .inl (named_outOfFuel hout)
  · exact .inr (named_matches_mapped hmatches action)

/-- The rule ends as a copy does. -/
theorem mapped_endsAs_named (h : (q c).EndsAs (flip (Trace.Inlined rule)) (p c))
    (action : α → β) :
    (mapped action q c).EndsAs (flip (Trace.Inlined rule)) (named rule action p c) := by
  rcases h with hout | hmatches
  · exact .inl (mapped_outOfFuel hout)
  · have hsame : (p c).Matches (Trace.Inlined rule) (q c) :=
      ⟨hmatches.ending.symm, hmatches.trace⟩
    have hnamed := named_matches_mapped hsame action
    exact .inr ⟨hnamed.ending.symm, hnamed.trace⟩

end Parser

/-! ## Grammars with copies -/

/-- The second grammar is the first, where in place of some references to the rule `i` stands its
    body under a map with its action. In such a copy, references may be replaced again. -/
inductive Grammar.Inlines (book : Rulebook ι κ) (i : ι) : Grammar ι κ → Grammar ι κ → Prop
  | endOfInput : Inlines book i .endOfInput .endOfInput
  | symbol (x : Char) : Inlines book i (.symbol x) (.symbol x)
  | range (lo hi : Char) : Inlines book i (.range lo hi) (.range lo hi)
  | word (w : String) : Inlines book i (.word w) (.word w)
  | sequence {items items' : List (Grammar ι κ)} :
      items.length = items'.length → (∀ {g g'}, (g, g') ∈ items.zip items' → Inlines book i g g') →
      Inlines book i (.sequence items) (.sequence items')
  | either {branches branches' : List (Grammar ι κ)} :
      branches.length = branches'.length →
      (∀ {g g'}, (g, g') ∈ branches.zip branches' → Inlines book i g g') →
      Inlines book i (.either branches) (.either branches')
  | oneOf (form : Form) (types : List String) {branches branches' : List (Grammar ι κ)} :
      branches.length = branches'.length →
      (∀ {g g'}, (g, g') ∈ branches.zip branches' → Inlines book i g g') →
      Inlines book i (.oneOf form types branches) (.oneOf form types branches')
  | many {item item' : Grammar ι κ} :
      Inlines book i item item' → Inlines book i (.many item) (.many item')
  | map (f : Value κ → Value κ) {inner inner' : Grammar ι κ} :
      Inlines book i inner inner' → Inlines book i (.map f inner) (.map f inner')
  | rule (j : ι) : Inlines book i (.rule j) (.rule j)
  | watch (label : String) {inner inner' : Grammar ι κ} :
      Inlines book i inner inner' → Inlines book i (.watch label inner) (.watch label inner')
  | custom (read : Cursor → Except Fault (Outcome (Value κ))) :
      Inlines book i (.custom read) (.custom read)
  /-- A copy in place of a reference. -/
  | copy {body : Grammar ι κ} :
      Inlines book i (book.rule i).body body →
      Inlines book i (.rule i) (.map (book.rule i).action body)

/-- The second rule book has the rules of the first, where in some bodies copies of the rule `i`
    stand in place of references to it. -/
structure Rulebook.Inlines (book : Rulebook ι κ) (i : ι) (book' : Rulebook ι κ) : Prop where
  name (j : ι) : (book'.rule j).name = (book.rule j).name
  action (j : ι) : (book'.rule j).action = (book.rule j).action
  body (j : ι) : Grammar.Inlines book i (book.rule j).body (book'.rule j).body

namespace Grammar.Inlines

variable {book : Rulebook ι κ} {i : ι} {g g' : Grammar ι κ}

/-- Nothing has to be replaced. -/
theorem refl (book : Rulebook ι κ) (i : ι) (g : Grammar ι κ) : g.Inlines book i g := by
  -- each node is built again from its children
  induction g using Grammar.structural_induction with
  | node g ih =>
    have hself {gs : List (Grammar ι κ)} (hgs : ∀ h ∈ gs, h.Inlines book i h) :
        ∀ {h h'}, (h, h') ∈ gs.zip gs → h.Inlines book i h' :=
      (List.forall₂_iff_zip.1 (List.forall₂_same.2 hgs)).2
    cases g with
    | endOfInput => exact .endOfInput
    | symbol x => exact .symbol x
    | range lo hi => exact .range lo hi
    | word w => exact .word w
    | sequence items => exact .sequence rfl (hself ih)
    | either branches => exact .either rfl (hself ih)
    | oneOf form types branches => exact .oneOf form types rfl (hself ih)
    | many item => exact .many (ih item (List.mem_singleton_self item))
    | map f inner => exact .map f (ih inner (List.mem_singleton_self inner))
    | rule j => exact .rule j
    | watch label inner => exact .watch label (ih inner (List.mem_singleton_self inner))
    | custom read => exact .custom read

/-- A sequence goes part by part. -/
theorem sequence_of_forall₂ {items items' : List (Grammar ι κ)}
    (h : List.Forall₂ (Grammar.Inlines book i) items items') :
    (Grammar.sequence items).Inlines book i (.sequence items') :=
  .sequence h.length_eq (List.forall₂_iff_zip.1 h).2

/-- What the grammars do is related if what rules do is, and what the rule does to a copy of it. -/
theorem related {S : (β : Type) → Run β → Run β → Prop} (hS : Run.Congruence S) {input : String}
    {call call' : ι → Parser (Value κ)} (hcall : ∀ j, Parser.Related S input (call j) (call' j))
    (hcopy : ∀ {body}, (book.rule i).body.Inlines book i body →
      Parser.Related S input ((book.rule i).body.parser call) (body.parser call') →
      Parser.Related S input (call i) (Parser.mapped (book.rule i).action (body.parser call')))
    (h : g.Inlines book i g') : Parser.Related S input (g.parser call) (g'.parser call') := by
  -- the parts of two nodes, one by one
  have hlist {gs gs' : List (Grammar ι κ)} (hlen : gs.length = gs'.length)
      (h : ∀ {h h'}, (h, h') ∈ gs.zip gs' →
        Parser.Related S input (h.parser call) (h'.parser call')) :
      List.Forall₂ (Parser.Related S input) (gs.map (parser call)) (gs'.map (parser call')) := by
    rw [List.forall₂_map_left_iff, List.forall₂_map_right_iff]
    exact List.forall₂_iff_zip.2 ⟨hlen, h⟩
  -- a combinator is a congruence, so only references and copies depend on the rules
  induction h with
  | endOfInput | symbol | range | word | custom => exact .refl hS _
  | sequence hlen _ ih =>
    simp only [parser, parsers_eq_map]
    exact fun o => hS.map (Parser.sequenceFrom_congr hS (hlist hlen ih) o o) _
  | either hlen _ ih =>
    simp only [parser, parsers_eq_map]
    exact Parser.choice_congr hS (hlist hlen ih)
  | oneOf form types hlen _ ih =>
    simp only [parser, parsers_eq_map]
    exact fun o => hS.map (Parser.taggedFrom_congr hS (hlist hlen ih) types o o) _
  | many _ ih => exact fun o => hS.map (Parser.manyFrom_congr hS ih o o) _
  | map f _ ih => exact Parser.mapped_congr hS ih f
  | rule j => exact hcall j
  | watch label _ ih => exact Parser.watched_congr hS ih label
  | copy hbody ih => exact hcopy hbody ih

/-! ### Counterparts -/

/-- A child of the grammar has its counterpart among the children of the other. -/
theorem exists_child (h : g.Inlines book i g') {k : Grammar ι κ} (hk : k ∈ g.children) :
    ∃ k' ∈ g'.children, k.Inlines book i k' := by
  have hlist {gs gs' : List (Grammar ι κ)} (hlen : gs.length = gs'.length)
      (h : ∀ {h h'}, (h, h') ∈ gs.zip gs' → h.Inlines book i h') (hmem : k ∈ gs) :
      ∃ k' ∈ gs', k.Inlines book i k' := by
    rw [← List.map_fst_zip (Nat.le_of_eq hlen), List.mem_map] at hmem
    obtain ⟨⟨_, k'⟩, hpair, rfl⟩ := hmem
    exact ⟨k', (List.of_mem_zip hpair).2, h hpair⟩
  -- the lists of children are as long and related in order; a copy stands for a node without
  -- children
  cases h with
  | endOfInput | symbol | range | word | rule | custom | copy => cases hk
  | sequence hlen hitems => exact hlist hlen hitems hk
  | either hlen hbranches => exact hlist hlen hbranches hk
  | oneOf form types hlen hbranches => exact hlist hlen hbranches hk
  | many hitem =>
    obtain rfl := List.mem_singleton.1 hk
    exact ⟨_, List.mem_singleton_self _, hitem⟩
  | map f hinner =>
    obtain rfl := List.mem_singleton.1 hk
    exact ⟨_, List.mem_singleton_self _, hinner⟩
  | watch label hinner =>
    obtain rfl := List.mem_singleton.1 hk
    exact ⟨_, List.mem_singleton_self _, hinner⟩

/-- A child of the other grammar is the counterpart of a child, or a copy of the body of the
    rule that the grammar refers to. -/
theorem exists_child_of_child (h : g.Inlines book i g') {k' : Grammar ι κ} (hk : k' ∈ g'.children) :
    (∃ k ∈ g.children, k.Inlines book i k') ∨
      g = .rule i ∧ (book.rule i).body.Inlines book i k' := by
  have hlist {gs gs' : List (Grammar ι κ)} (hlen : gs.length = gs'.length)
      (h : ∀ {h h'}, (h, h') ∈ gs.zip gs' → h.Inlines book i h') (hmem : k' ∈ gs') :
      ∃ k ∈ gs, k.Inlines book i k' := by
    rw [← List.map_snd_zip (Nat.le_of_eq hlen.symm), List.mem_map] at hmem
    obtain ⟨⟨k, _⟩, hpair, rfl⟩ := hmem
    exact ⟨k, (List.of_mem_zip hpair).1, h hpair⟩
  -- only where a copy was put in, there is a child that the first grammar has not got
  cases h with
  | endOfInput | symbol | range | word | rule | custom => cases hk
  | sequence hlen hitems => exact .inl (hlist hlen hitems hk)
  | either hlen hbranches => exact .inl (hlist hlen hbranches hk)
  | oneOf form types hlen hbranches => exact .inl (hlist hlen hbranches hk)
  | many hitem =>
    obtain rfl := List.mem_singleton.1 hk
    exact .inl ⟨_, List.mem_singleton_self _, hitem⟩
  | map f hinner =>
    obtain rfl := List.mem_singleton.1 hk
    exact .inl ⟨_, List.mem_singleton_self _, hinner⟩
  | watch label hinner =>
    obtain rfl := List.mem_singleton.1 hk
    exact .inl ⟨_, List.mem_singleton_self _, hinner⟩
  | copy hbody =>
    obtain rfl := List.mem_singleton.1 hk
    exact .inr ⟨rfl, hbody⟩

/-- Counterparts are well formed together. -/
theorem wellFormed_iff (h : g.Inlines book i g') : g.WellFormed ↔ g'.WellFormed := by
  cases h <;> rfl

end Grammar.Inlines

namespace Rulebook

variable {book book' : Rulebook ι κ} {i : ι} {g g' : Grammar ι κ}

/-! ## Both directions -/

/-- With copies, a parse ends as without, however deep rules may be nested there. -/
theorem runWith_endsAs_run (hbook : book.Inlines i book') (hg : g.Inlines book i g') (n : Nat)
    {input : String} :
    Parser.Related (fun _ => Run.EndsAs (Trace.Inlined (book.rule i).name)) input
      (book.runWith n g) (book'.run g') := by
  have hS : Run.Congruence fun _ => Run.EndsAs (Trace.Inlined (book.rule i).name) :=
    Run.endsAs_congruence (.refl _) .append
  -- on the fuel of the references: a rule is entered with one unit less, and so is a copy of it
  induction n generalizing g g' with
  | zero =>
    have hout (j : ι) {q : Parser (Value κ)} :
        Parser.Related (fun _ => Run.EndsAs (Trace.Inlined (book.rule i).name)) input
          (book.call 0 j) q := fun _ => .inl rfl
    exact hg.related hS (fun j => hout j) fun _ _ => hout i
  | succ n ih =>
    refine hg.related hS (fun j => ?_) fun hcopy _ o => ?_
    · have hbody := ih (hbook.body j)
      have hnamed := Parser.named_congr hS hbody (book'.rule j).name (book'.rule j).action
      intro o
      have hrule := (hnamed o).of_approximates (named_approximates_run book' j o)
      -- the rule has the same name and action in both books
      rw [hbook.name j, hbook.action j] at hrule
      exact hrule
    · exact Parser.named_endsAs_mapped (ih hcopy o) (book.rule i).action

/-- Without copies, a parse ends as with them, however deep rules may be nested there. -/
theorem runWith_endsAs_inlined (hbook : book.Inlines i book') (hg : g.Inlines book i g') (n : Nat)
    {input : String} :
    Parser.Related (fun _ => Run.EndsAs (flip (Trace.Inlined (book.rule i).name))) input
      (book'.runWith n g') (book.run g) := by
  have hS : Run.Congruence fun _ => Run.EndsAs (flip (Trace.Inlined (book.rule i).name)) :=
    Run.endsAs_congruence (Trace.Inlined.refl _) fun h h' => Trace.Inlined.append h h'
  -- on the fuel of the references that are left; a copy may be nested as deep as it likes
  have hcopied {n : Nat} {body : Grammar ι κ}
      (hbody : Parser.Related (fun _ => Run.EndsAs (flip (Trace.Inlined (book.rule i).name))) input
        (book'.runWith n body) (book.run (book.rule i).body)) :
      Parser.Related (fun _ => Run.EndsAs (flip (Trace.Inlined (book.rule i).name))) input
        (Parser.mapped (book.rule i).action (book'.runWith n body)) (book.run (.rule i)) := by
    intro o
    have hcopy := Parser.mapped_endsAs_named (hbody o) (book.rule i).action
    exact hcopy.of_approximates (named_approximates_run book i o)
  -- on the fuel as before; only a reference that is still one takes fuel on both sides
  induction n generalizing g g' with
  | zero =>
    exact hg.related hS.swap (fun j _ => .inl rfl) fun _ hbody => hcopied hbody
  | succ n ih =>
    refine hg.related hS.swap (fun j => ?_) fun _ hbody => hcopied hbody
    have hbody := ih (hbook.body j)
    have hnamed := Parser.named_congr hS hbody (book.rule j).name (book.rule j).action
    intro o
    have hrule := (hnamed o).of_approximates (named_approximates_run book j o)
    rw [← hbook.name j, ← hbook.action j] at hrule
    exact hrule

/-- A run that finishes is matched by the run with copies. -/
theorem run_matches_inlined (hbook : book.Inlines i book') (hg : g.Inlines book i g') {c : Cursor}
    (hfinished : (book.run g c).ending ≠ .error .outOfFuel) :
    (book.run g c).Matches (Trace.Inlined (book.rule i).name) (book'.run g' c) :=
  (runWith_endsAs_run hbook hg book.depthBound c.offset).resolve_left hfinished

/-- With copies and without, the runs end alike. -/
theorem ending_run_inlined (hbook : book.Inlines i book') (hg : g.Inlines book i g') (c : Cursor) :
    (book.run g c).ending = (book'.run g' c).ending := by
  by_cases hout : (book.run g c).ending = .error .outOfFuel
  · -- then the other is out of fuel as well, or it would be matched by this one
    rcases runWith_endsAs_inlined hbook hg book'.depthBound c.offset with hout' | hmatches
    · exact hout.trans hout'.symm
    · exact hmatches.ending.symm
  · exact (run_matches_inlined hbook hg hout).ending

/-! ## Checking -/

/-- What is reached with copies is the counterpart of something that is reached without. -/
theorem Inlines.exists_counterpart (hbook : book.Inlines i book') {k' : Grammar ι κ}
    (hreach : book'.Reaches g' k') (hg : g.Inlines book i g') :
    ∃ k, book.Reaches g k ∧ k.Inlines book i k' := by
  induction hreach generalizing g with
  | refl => exact ⟨g, .refl g, hg⟩
  | child hmem _ ih =>
    rcases hg.exists_child_of_child hmem with ⟨k, hk, hchild⟩ | ⟨rfl, hcopy⟩
    · obtain ⟨m, hreach, hm⟩ := ih hchild
      exact ⟨m, .child hk hreach, hm⟩
    · -- a step into a copy is a step into the body of the rule
      obtain ⟨m, hreach, hm⟩ := ih hcopy
      exact ⟨m, .body hreach, hm⟩
  | @body j _ _ ih =>
    cases hg with
    | rule =>
      obtain ⟨m, hreach, hm⟩ := ih (hbook.body j)
      exact ⟨m, .body hreach, hm⟩

/-- Where names identify the rules, what is reached without copies from a counterpart of something
    that is met with them has a counterpart that is met. -/
theorem Inlines.exists_met (hbook : book.Inlines i book') (hnames : book.NamesIdentify)
    {met : List (Grammar ι κ)} {v : Visited} (hwalk : book'.Walked Visited.empty [g'] met v)
    {a k : Grammar ι κ} (hreach : book.Reaches a k) {a' : Grammar ι κ} (hmet : a' ∈ met)
    (ha : a.Inlines book i a') : ∃ k' ∈ met, k.Inlines book i k' := by
  -- the way to it is gone step by step, and each step leads to a node that is met
  induction hreach generalizing a' with
  | refl => exact ⟨a', hmet, ha⟩
  | child hmem _ ih =>
    obtain ⟨c', hc', hchild⟩ := ha.exists_child hmem
    exact ih (hwalk.children_mem hmet hc') hchild
  | @body j _ _ ih =>
    cases ha with
    | rule j =>
      -- a rule that is met is entered, perhaps under another key of the same name
      have hentered := hwalk.name_mem_of_rule_mem hmet
      rcases hwalk.rule_mem_of_name_mem hentered with hnone | ⟨j', hname, -, hbody⟩
      · cases hnone
      · rw [hbook.name, hbook.name] at hname
        apply ih hbody
        rw [← hnames j' j hname]
        exact hbook.body j'
    | copy hcopy => exact ih (hwalk.children_mem hmet (List.mem_singleton_self _)) hcopy

/-- Where names identify the rules, the grammar is well formed exactly if it is with copies. -/
theorem check_inlined_iff (hnames : book.NamesIdentify) (hbook : book.Inlines i book')
    (hg : g.Inlines book i g') :
    (book.check Visited.empty g).ending = .ok () ↔
      (book'.check Visited.empty g').ending = .ok () := by
  obtain ⟨met, v, hwalk⟩ := Walked.exists_of_stack book' Visited.empty [g']
  rw [check_eq_ok_iff hnames, hwalk.check_eq_ok_iff]
  -- without copies the nodes that can be reached are asked for, with them those that are met
  constructor
  · intro hwell k' hk'
    obtain ⟨a', ha', hreach'⟩ := hwalk.exists_reaches hk'
    obtain rfl := List.mem_singleton.1 ha'
    obtain ⟨k, hreach, hk⟩ := hbook.exists_counterpart hreach' hg
    rw [Grammar.flaw?_eq_none_iff, ← hk.wellFormed_iff]
    exact hwell k hreach
  · intro hmet k hreach
    have hfirst : g' ∈ met := hwalk.subset_met (List.mem_singleton_self g')
    obtain ⟨k', hk', hk⟩ := hbook.exists_met hnames hwalk hreach hfirst hg
    rw [hk.wellFormed_iff, ← Grammar.flaw?_eq_none_iff]
    exact hmet k' hk'

/-! ## Inlining preserves meaning -/

/-- A grammar and its rule book, against the same with copies of the rule `i` in place of some
    references to it: its body, under a map with its action.

    Run at any cursor, one finishes with some bound on the nesting of rules exactly if the other
    does. Then both read the same value from the same span, fail with the same failure or break off
    on the same fault. The traces differ in nothing but the records of the rule and in which of its
    actions are maps now, so functions on values run equally often: the action of any other rule by
    itself, the action of the rule together with the maps, and all of them together.

    If names identify the rules, the check accepts both grammars or neither. -/
theorem run_inlined (book book' : Rulebook ι κ) (i : ι) (hbook : book.Inlines i book')
    (g g' : Grammar ι κ) (hg : g.Inlines book i g') :
    (∀ c : Cursor,
      ((∃ n, (book.runWith n g c).ending ≠ .error .outOfFuel) ↔
        ∃ n, (book'.runWith n g' c).ending ≠ .error .outOfFuel) ∧
      (book.run g c).ending = (book'.run g' c).ending ∧
      ((∃ n, (book.runWith n g c).ending ≠ .error .outOfFuel) →
        Trace.Inlined (book.rule i).name (book.run g c).trace.toList
          (book'.run g' c).trace.toList ∧
        (∀ name, name ≠ (book.rule i).name →
          Trace.actions name (book.run g c).trace.toList =
            Trace.actions name (book'.run g' c).trace.toList) ∧
        Trace.actions (book.rule i).name (book.run g c).trace.toList +
            Trace.mappings (book.run g c).trace.toList =
          Trace.actions (book.rule i).name (book'.run g' c).trace.toList +
            Trace.mappings (book'.run g' c).trace.toList ∧
        Trace.applications (book.run g c).trace.toList =
          Trace.applications (book'.run g' c).trace.toList)) ∧
    (book.NamesIdentify → ((book.check Visited.empty g).ending = .ok () ↔
      (book'.check Visited.empty g').ending = .ok ())) := by
  refine ⟨fun c => ?_, fun hnames => check_inlined_iff hnames hbook hg⟩
  have hending := ending_run_inlined hbook hg c
  -- the counts follow from how the traces are related
  refine ⟨?_, hending, fun hfinishes => ?_⟩
  · rw [← run_finishes_iff, ← run_finishes_iff, hending]
  · have hfinished := run_finishes_iff.2 hfinishes
    have htrace := (run_matches_inlined hbook hg hfinished).trace
    exact ⟨htrace, fun name hname => htrace.actions_eq hname, htrace.actions_add_mappings,
      htrace.applications_eq⟩

open Sample (Bracket BracketRule) in
/-- The bracket grammar with the rule of pairs inlined in documents and in curly brackets, through
    which it refers to itself. -/
def withCopies : Rulebook BracketRule Bracket where
  keys := BracketRule.book.keys
  rule
    | .document =>
      { BracketRule.rule .document with
        body := .sequence [.map id (BracketRule.rule .paren).body, .endOfInput] }
    | .curly =>
      { BracketRule.rule .curly with
        body := .sequence [.symbol '\x7b', .many (.map id (BracketRule.rule .paren).body),
          .symbol '\x7d'] }
    | i => BracketRule.rule i
  mem_keys := BracketRule.book.mem_keys

open Sample (Bracket BracketRule) in
/-- With the copies a document is read as without, and of the two pairs in it one is made by an
    action and one by a map. -/
theorem run_inlined_pairs :
    BracketRule.book.Inlines .paren withCopies ∧
    (Grammar.rule .document).Inlines BracketRule.book .paren (.rule .document) ∧
    BracketRule.book.NamesIdentify ∧
    (withCopies.run (.rule .document) ⟨"(\x7b\x7d)", 0⟩).ending =
      .ok (.done (.made (.round [.curly []])) ⟨0, 4, by decide⟩) ∧
    Trace.actions "Paren" (withCopies.run (.rule .document) ⟨"(\x7b\x7d)", 0⟩).trace.toList +
      Trace.mappings (withCopies.run (.rule .document) ⟨"(\x7b\x7d)", 0⟩).trace.toList = 2 ∧
    (withCopies.check Visited.empty (.rule .document)).ending = .ok () := by
  have hcopy : (Grammar.rule .paren).Inlines BracketRule.book .paren
      (.map id (BracketRule.rule .paren).body) := .copy (.refl _ _ _)
  -- copies stand in two bodies, the others are as they were
  have hbook : BracketRule.book.Inlines .paren withCopies := by
    refine ⟨fun j => by cases j <;> rfl, fun j => by cases j <;> rfl, fun j => ?_⟩
    cases j with
    | document =>
      apply Grammar.Inlines.sequence_of_forall₂
      exact .cons hcopy (.cons .endOfInput .nil)
    | curly =>
      apply Grammar.Inlines.sequence_of_forall₂
      exact .cons (.symbol _) (.cons (.many hcopy) (.cons (.symbol _) .nil))
    | paren => exact .refl _ _ _
    | round => exact .refl _ _ _
  have hg : (Grammar.rule .document).Inlines BracketRule.book .paren (.rule .document) := .rule _
  have hends : (BracketRule.book.runWith 7 (.rule .document) ⟨"(\x7b\x7d)", 0⟩).ending =
      .ok (.done (.made (.round [.curly []])) ⟨0, 4, by decide⟩) := by cbv
  -- the trace without copies is computed; the one with them has the same sum
  have hcount : Trace.actions "Paren"
        (BracketRule.book.runWith 7 (.rule .document) ⟨"(\x7b\x7d)", 0⟩).trace.toList +
      Trace.mappings
        (BracketRule.book.runWith 7 (.rule .document) ⟨"(\x7b\x7d)", 0⟩).trace.toList = 2 := by
    cbv
  have hfinished : (BracketRule.book.runWith 7 (.rule .document) ⟨"(\x7b\x7d)", 0⟩).ending ≠
      .error .outOfFuel := by simp [hends]
  rw [runWith_eq_run hfinished] at hends hcount
  obtain ⟨hruns, hchecks⟩ := run_inlined _ _ _ hbook _ _ hg
  obtain ⟨-, hending, htraces⟩ := hruns ⟨"(\x7b\x7d)", 0⟩
  obtain ⟨-, -, hsum, -⟩ := htraces ⟨7, hfinished⟩
  refine ⟨hbook, hg, namesIdentify_brackets, hending.symm.trans hends, hsum.symm.trans hcount, ?_⟩
  exact (hchecks namesIdentify_brackets).1 (by cbv)

end Rulebook

end ParserKit
