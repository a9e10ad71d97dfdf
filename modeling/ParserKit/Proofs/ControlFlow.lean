import Mathlib
import ParserKit.Proofs.FuelIndependence
import ParserKit.Sample.Brackets

/-!
# Control flow

What a parse does never depends on the values it produces. Two grammars that differ in nothing but
the functions of their maps, the actions of their rules and the form in which choices answer
(`Rulebook.Twin`) run in lock step: they finish together, with one span, one failure or one fault,
and they leave the same trace, although the values they read may be of different types.

The relation that goes through the loops is `Run.Alike`: two runs end alike but for the value that
is read, and their traces agree on the events that pass a test. With the test that all events pass
it compares twins; with the one that attempts do not pass it compares a grammar with its watched
form, in which each node records where it is tried (`Rulebook.watchAll`).

## Key results

- `Run.Alike.andThen`: going on alike from runs that are alike
- `sequenceFrom_alike`, `choiceFrom_alike`, `taggedFrom_alike`, `manyFrom_alike`: every loop runs
  alike if its parts do
- `runWith_twin`: twins run alike, with any bound on the nesting of rules
- `runWith_watchAll`: watching every node changes nothing but the attempts in the trace
-/

namespace ParserKit

variable {α β α' β' ι κ κ' : Type}

/-! ## Runs that are alike -/

/-- The outcome without the value that was read. -/
def Outcome.erase : Outcome α → Outcome Unit := Outcome.map fun _ => ()

/-- The events that pass the test are the same in both runs, and so is the ending but for the value
    that was read. -/
structure Run.Alike (keep : Event → Bool) (r : Run (Outcome α)) (r' : Run (Outcome β)) : Prop where
  trace : r.trace.toList.filter keep = r'.trace.toList.filter keep
  ending : r.ending.map Outcome.erase = r'.ending.map Outcome.erase

namespace Run

variable {keep : Event → Bool} {r : Run (Outcome α)} {r' : Run (Outcome β)}

@[refl] theorem Alike.refl (r : Run (Outcome α)) : r.Alike keep r := ⟨rfl, rfl⟩

/-- Runs that are alike read the same span, fail with the same failure, or stop for the same
    reason. -/
theorem Alike.cases (h : r.Alike keep r') :
    (∃ v v' s, r.ending = .ok (.done v s) ∧ r'.ending = .ok (.done v' s)) ∨
    (∃ f, r.ending = .ok (.failed f) ∧ r'.ending = .ok (.failed f)) ∨
    ∃ stop, r.ending = .error stop ∧ r'.ending = .error stop := by
  have hending := h.ending
  -- erasing the value keeps the form of an ending and all else that is in it
  rcases hr : r.ending with stop | ⟨v, s⟩ | f <;>
    rcases hr' : r'.ending with stop' | ⟨v', s'⟩ | f' <;>
    simp_all [Except.map, Outcome.erase, Outcome.map]

/-- Runs that are alike stop together. -/
theorem Alike.stops_iff (h : r.Alike keep r') (stop : Stop) :
    r.ending = .error stop ↔ r'.ending = .error stop := by
  obtain ⟨v, v', s, hr, hr'⟩ | ⟨f, hr, hr'⟩ | ⟨stop', hr, hr'⟩ := h.cases <;> simp [hr, hr']

/-- Runs that are alike go on alike if what follows does, for matches of any values over one span
    and     for equal failures. -/
theorem Alike.andThen {k : Outcome α → Run (Outcome α')} {k' : Outcome β → Run (Outcome β')}
    (h : r.Alike keep r') (hdone : ∀ v v' s, (k (.done v s)).Alike keep (k' (.done v' s)))
    (hfailed : ∀ f, (k (.failed f)).Alike keep (k' (.failed f))) :
    (r.andThen k).Alike keep (r'.andThen k') := by
  have htrace := h.trace
  constructor
  -- the trace of the whole is that of the first run, with what follows behind it if it did not stop
  · obtain ⟨v, v', s, hr, hr'⟩ | ⟨f, hr, hr'⟩ | ⟨stop, hr, hr'⟩ := h.cases
    · rw [toList_andThen_of_ok hr, toList_andThen_of_ok hr', List.filter_append,
        List.filter_append, htrace, (hdone v v' s).trace]
    · rw [toList_andThen_of_ok hr, toList_andThen_of_ok hr', List.filter_append,
        List.filter_append, htrace, (hfailed f).trace]
    · rw [toList_andThen_of_error hr, toList_andThen_of_error hr', htrace]
  -- the ending of the whole is that of what follows, or the stop of the first run
  · rw [ending_andThen, ending_andThen]
    obtain ⟨v, v', s, hr, hr'⟩ | ⟨f, hr, hr'⟩ | ⟨stop, hr, hr'⟩ := h.cases
    · rw [hr, hr']
      exact (hdone v v' s).ending
    · rw [hr, hr']
      exact (hfailed f).ending
    · rw [hr, hr']
      rfl

/-- Different conversions of the values keep runs alike. -/
theorem Alike.mapValue (h : r.Alike keep r') (f : α → α') (f' : β → β') :
    (r.mapValue f).Alike keep (r'.mapValue f') := by
  refine ⟨h.trace, ?_⟩
  obtain ⟨v, v', s, hr, hr'⟩ | ⟨e, hr, hr'⟩ | ⟨stop, hr, hr'⟩ := h.cases <;>
    simp only [Run.mapValue, Run.ending_map, hr, hr'] <;> rfl

/-- The same event before both runs. -/
theorem Alike.after (h : r.Alike keep r') (e : Event) : (r.after e).Alike keep (r'.after e) := by
  refine ⟨?_, h.ending⟩
  simp only [toList_after, List.filter_cons, h.trace]

/-- An event that does not pass the test makes no difference. -/
theorem Alike.after_left (h : r.Alike keep r') {e : Event} (he : keep e = false) :
    (r.after e).Alike keep r' := by
  refine ⟨?_, h.ending⟩
  simp [he, h.trace]

/-- Matches over one span are alike, whatever was read. -/
theorem alike_done (v : α) (v' : β) (s : Span) : (Run.done v s).Alike keep (Run.done v' s) :=
  ⟨rfl, rfl⟩

/-- Equal failures are alike. -/
theorem alike_failed (f : Failure) :
    (Run.failed f : Run (Outcome α)).Alike keep (Run.failed f : Run (Outcome β)) := ⟨rfl, rfl⟩

/-- To close one span is alike for any values, also where the span is a fault. -/
theorem alike_doneAt (v : α) (v' : β) (span : Except Fault Span) :
    (Run.doneAt v span).Alike keep (Run.doneAt v' span) := by
  cases span <;> exact ⟨rfl, rfl⟩

/-- Custom parsers run alike if what they report is the same but for the value. -/
theorem alike_ofExcept {x : Except Fault (Outcome α)} {x' : Except Fault (Outcome β)}
    (h : x.map Outcome.erase = x'.map Outcome.erase) :
    (Run.ofExcept x).Alike keep (Run.ofExcept x') := by
  cases x with
  | error e =>
    cases x' with
    | error e' =>
      cases h
      exact ⟨rfl, rfl⟩
    | ok x' => cases h
  | ok x =>
    cases x' with
    | error e' => cases h
    | ok x' =>
      have hx : x.erase = x'.erase := by simpa [Except.map] using h
      exact ⟨rfl, congrArg Except.ok hx⟩

end Run

/-! ## Parsers that run alike -/

namespace Parser

/-- At every cursor, the two parsers run alike. -/
def Alike (keep : Event → Bool) (p : Parser α) (q : Parser β) : Prop := ∀ c, (p c).Alike keep (q c)

variable {keep : Event → Bool} {p : Parser α} {q : Parser β} {ps : List (Parser α)}
  {qs : List (Parser β)}

/-- Different conversions of the values keep parsers alike. -/
theorem Alike.map (h : Alike keep p q) (f : α → α') (f' : β → β') :
    Alike keep (Parser.map f p) (Parser.map f' q) := fun c => (h c).mapValue f f'

/-! ### Combinators

None of them looks at the value it hands on, so each goes on at the same cursor on both sides. -/

/-- Sequences run alike if their parts do, pair by pair. -/
theorem sequenceFrom_alike (h : List.Forall₂ (Alike keep) ps qs) (start : Offset) (c : Cursor) :
    (sequenceFrom start ps c).Alike keep (sequenceFrom start qs c) := by
  -- both go on at the end of one span, so at the same cursor
  induction h generalizing c with
  | nil => exact Run.alike_doneAt _ _ _
  | cons hp _ ih =>
    refine (hp c).andThen (fun v v' s => ?_) fun f => ?_
    · exact (ih (c.moveTo s.stop)).mapValue _ _
    · exact Run.alike_failed f

/-- Choices run alike if their branches do, pair by pair. -/
theorem choiceFrom_alike (h : List.Forall₂ (Alike keep) ps qs) (c : Cursor) (furthest : Offset) :
    (choiceFrom c furthest ps).Alike keep (choiceFrom c furthest qs) := by
  induction h generalizing furthest with
  | nil => exact Run.alike_failed _
  | cons hp _ ih =>
    refine (hp c).andThen (fun v v' s => ?_) fun f => ?_
    · exact Run.alike_done v v' s
    · exact ih _

/-- The same for choices from their start. -/
theorem choice_alike (h : List.Forall₂ (Alike keep) ps qs) :
    Alike keep (choice ps) (choice qs) := by
  intro c
  rw [choice_eq_choiceFrom, choice_eq_choiceFrom]
  exact choiceFrom_alike h c _

/-- The types of the alternatives may differ, but not how many there are. -/
theorem taggedFrom_alike {types types' : List String} (ht : types.length = types'.length)
    (h : List.Forall₂ (Alike keep) ps qs) (c : Cursor) (furthest : Offset) :
    (taggedFrom c furthest (types.zip ps)).Alike keep
      (taggedFrom c furthest (types'.zip qs)) := by
  -- the types run along with the parts on both sides; where one list of them ends, so does the
  -- other
  induction h generalizing types types' furthest with
  | nil =>
    rw [List.zip_nil_right, List.zip_nil_right]
    exact Run.alike_failed _
  | cons hp _ ih =>
    cases types with
    | nil =>
      rw [List.length_eq_zero_iff.1 ht.symm]
      exact Run.alike_failed _
    | cons t types =>
      cases types' with
      | nil => cases ht
      | cons t' types' =>
        refine (hp c).andThen (fun v v' s => ?_) fun f => ?_
        · exact Run.alike_done _ _ s
        · exact (ih (Nat.succ.inj ht) _).mapValue _ _

/-- Repetitions run alike if their items do. -/
theorem manyFrom_alike (h : Alike keep p q) (start : Offset) (c : Cursor) :
    (manyFrom p start c).Alike keep (manyFrom q start c) := by
  induction c using Cursor.forward_induction with
  | further c ih =>
    rw [manyFrom, manyFrom]
    refine (h c).andThen (fun v v' s => ?_) fun f => ?_
    · dsimp only
      -- whether there is a further round is decided by the span
      split
      · rename_i hmoves
        exact (ih s.stop hmoves).mapValue _ _
      · exact Run.alike_doneAt _ _ _
    · exact Run.alike_doneAt _ _ _

/-- Conversions with an event run alike if their parts do. -/
theorem mapped_alike (h : Alike keep p q) (f : α → α') (f' : β → β') :
    Alike keep (mapped f p) (mapped f' q) := fun c =>
  (h c).andThen (fun _ _ _ => ⟨rfl, rfl⟩) Run.alike_failed

/-- Whatever the actions do, they run after the same events. -/
theorem named_alike (h : Alike keep p q) (name : String) (action : α → α') (action' : β → β') :
    Alike keep (named name action p) (named name action' q) := fun c =>
  ((h c).andThen (fun _ _ _ => ⟨rfl, rfl⟩) fun _ => ⟨rfl, rfl⟩).after _

/-- Watched under one label, parsers that run alike record the same attempt. -/
theorem watched_alike (h : Alike keep p q) (label : String) :
    Alike keep (watched label p) (watched label q) := fun c => (h c).after _

end Parser

/-! ## Twins -/

/-- Two grammars that are the same node by node but for the functions of their maps. What their
    custom parsers do at a cursor is the same but for the value they read. The forms in which
    tagged choices answer and the names of the types may differ, as these follow the values. -/
inductive Grammar.Twin : Grammar ι κ → Grammar ι κ' → Prop
  | endOfInput : Twin .endOfInput .endOfInput
  | symbol (x : Char) : Twin (.symbol x) (.symbol x)
  | range (lo hi : Char) : Twin (.range lo hi) (.range lo hi)
  | word (w : String) : Twin (.word w) (.word w)
  | sequence {items : List (Grammar ι κ)} {items' : List (Grammar ι κ')} :
      items.length = items'.length → (∀ {g g'}, (g, g') ∈ items.zip items' → Twin g g') →
      Twin (.sequence items) (.sequence items')
  | either {branches : List (Grammar ι κ)} {branches' : List (Grammar ι κ')} :
      branches.length = branches'.length →
      (∀ {g g'}, (g, g') ∈ branches.zip branches' → Twin g g') →
      Twin (.either branches) (.either branches')
  | oneOf {form form' : Form} {types types' : List String} {branches : List (Grammar ι κ)}
      {branches' : List (Grammar ι κ')} :
      types.length = types'.length → branches.length = branches'.length →
      (∀ {g g'}, (g, g') ∈ branches.zip branches' → Twin g g') →
      Twin (.oneOf form types branches) (.oneOf form' types' branches')
  | many {item : Grammar ι κ} {item' : Grammar ι κ'} :
      Twin item item' → Twin (.many item) (.many item')
  | map {f : Value κ → Value κ} {f' : Value κ' → Value κ'} {inner : Grammar ι κ}
      {inner' : Grammar ι κ'} : Twin inner inner' → Twin (.map f inner) (.map f' inner')
  | rule (i : ι) : Twin (.rule i) (.rule i)
  | watch {label : String} {inner : Grammar ι κ} {inner' : Grammar ι κ'} :
      Twin inner inner' → Twin (.watch label inner) (.watch label inner')
  | custom {read : Cursor → Except Fault (Outcome (Value κ))}
      {read' : Cursor → Except Fault (Outcome (Value κ'))} :
      (∀ c, (read c).map Outcome.erase = (read' c).map Outcome.erase) →
      Twin (.custom read) (.custom read')

/-- Two rule books with rules of the same names, whose bodies are twins. Actions may differ. -/
def Rulebook.Twin (book : Rulebook ι κ) (book' : Rulebook ι κ') : Prop :=
  ∀ i, (book.rule i).name = (book'.rule i).name ∧ (book.rule i).body.Twin (book'.rule i).body

namespace Grammar

variable {keep : Event → Bool}

/-- Every grammar is its own twin. -/
@[refl] theorem Twin.refl (g : Grammar ι κ) : g.Twin g := by
  induction g using Grammar.structural_induction with
  | node g ih =>
    -- pairs of a list with itself are pairs of equal nodes
    have hself {gs : List (Grammar ι κ)} (hgs : ∀ h ∈ gs, h.Twin h) :
        ∀ {h h'}, (h, h') ∈ gs.zip gs → h.Twin h' :=
      (List.forall₂_iff_zip.1 (List.forall₂_same.2 hgs)).2
    cases g with
    | endOfInput => exact .endOfInput
    | symbol x => exact .symbol x
    | range lo hi => exact .range lo hi
    | word w => exact .word w
    | sequence items => exact .sequence rfl (hself ih)
    | either branches => exact .either rfl (hself ih)
    | oneOf form types branches => exact .oneOf rfl rfl (hself ih)
    | many item => exact .many (ih item (List.mem_singleton_self item))
    | map f inner => exact .map (ih inner (List.mem_singleton_self inner))
    | rule i => exact .rule i
    | watch label inner => exact .watch (ih inner (List.mem_singleton_self inner))
    | custom read => exact .custom fun _ => rfl

/-- Twins run alike when what their rules do does. -/
theorem Twin.parser_alike {g : Grammar ι κ} {g' : Grammar ι κ'} (hg : g.Twin g')
    {call : ι → Parser (Value κ)} {call' : ι → Parser (Value κ')}
    (hcall : ∀ i, (call i).Alike keep (call' i)) :
    (g.parser call).Alike keep (g'.parser call') := by
  -- the parts of two nodes, one by one
  have hlist {gs : List (Grammar ι κ)} {gs' : List (Grammar ι κ')} (hlen : gs.length = gs'.length)
      (h : ∀ {h h'}, (h, h') ∈ gs.zip gs' → (h.parser call).Alike keep (h'.parser call')) :
      List.Forall₂ (Parser.Alike keep) (gs.map (parser call)) (gs'.map (parser call')) := by
    rw [List.forall₂_map_left_iff, List.forall₂_map_right_iff]
    exact List.forall₂_iff_zip.2 ⟨hlen, h⟩
  induction hg with
  -- terminals are the same on both sides but for the conversion of what is read
  | endOfInput | symbol | range | word => exact Parser.Alike.map (fun _ => .refl _) _ _
  | sequence hlen _ ih =>
    simp only [parser, parsers_eq_map]
    exact fun c => (Parser.sequenceFrom_alike (hlist hlen ih) c.offset c).mapValue _ _
  | either hlen _ ih =>
    simp only [parser, parsers_eq_map]
    exact Parser.choice_alike (hlist hlen ih)
  | oneOf ht hlen _ ih =>
    simp only [parser, parsers_eq_map]
    exact fun c => (Parser.taggedFrom_alike ht (hlist hlen ih) c c.offset).mapValue _ _
  | many _ ih => exact fun c => (Parser.manyFrom_alike ih c.offset c).mapValue _ _
  | map _ ih => exact Parser.mapped_alike ih _ _
  | rule i => exact hcall i
  | watch _ ih => exact Parser.watched_alike ih _
  | custom h => exact fun c => Run.alike_ofExcept (h c)

end Grammar

namespace Rulebook

variable {keep : Event → Bool} {book : Rulebook ι κ} {book' : Rulebook ι κ'} {g : Grammar ι κ}
  {g' : Grammar ι κ'}

/-- The rule book with other actions. -/
def withActions (book : Rulebook ι κ) (action : ι → Value κ → Value κ) : Rulebook ι κ where
  keys := book.keys
  rule i := { book.rule i with action := action i }
  mem_keys := book.mem_keys

/-- Other actions make a twin. -/
theorem twin_withActions (book : Rulebook ι κ) (action : ι → Value κ → Value κ) :
    book.Twin (book.withActions action) := fun _ => ⟨rfl, .refl _⟩

/-- The rules of twins run alike when they are called with the same fuel. -/
theorem call_twin (hbook : book.Twin book') (n : Nat) (i : ι) :
    (book.call n i).Alike keep (book'.call n i) := by
  -- on the fuel: both books call their rules with the same amount
  induction n generalizing i with
  | zero => exact fun _ => ⟨rfl, rfl⟩
  | succ n ih =>
    obtain ⟨hname, hbody⟩ := hbook i
    rw [call, call, hname]
    exact Parser.named_alike (hbody.parser_alike ih) _ _ _

/-- Twins run alike, however deep rules may be nested. -/
theorem runWith_twin (hbook : book.Twin book') (hg : g.Twin g') (n : Nat) :
    (book.runWith n g).Alike keep (book'.runWith n g') :=
  hg.parser_alike (call_twin hbook n)

end Rulebook

/-! ## Watching every node -/

/-- Whether the event happens watched or not: all do but the attempts, which only watched parsers
    record. -/
def Event.unwatched : Event → Bool
  | .tried _ _ => false
  | _ => true

namespace Grammar

mutual

/-- The grammar with every node watched. The label of a node is given by the path to it, the
    positions of the children on the way down. -/
def watchAll (label : List Nat → String) : Grammar ι κ → Grammar ι κ
  | endOfInput => watch (label []) endOfInput
  | symbol x => watch (label []) (symbol x)
  | range lo hi => watch (label []) (range lo hi)
  | word w => watch (label []) (word w)
  | sequence items => watch (label []) (sequence (watchAllFrom label 0 items))
  | either branches => watch (label []) (either (watchAllFrom label 0 branches))
  | oneOf form types branches =>
    watch (label []) (oneOf form types (watchAllFrom label 0 branches))
  | many item => watch (label []) (many (item.watchAll fun path => label (0 :: path)))
  | map f inner => watch (label []) (map f (inner.watchAll fun path => label (0 :: path)))
  | rule i => watch (label []) (rule i)
  | watch own inner =>
    watch (label []) (watch own (inner.watchAll fun path => label (0 :: path)))
  | custom read => watch (label []) (custom read)

/-- Each of the grammars with every node watched, the first one being the child at `k`. -/
def watchAllFrom (label : List Nat → String) (k : Nat) : List (Grammar ι κ) → List (Grammar ι κ)
  | [] => []
  | g :: gs => (g.watchAll fun path => label (k :: path)) :: watchAllFrom label (k + 1) gs

end

/-- What every node of two lists has under any labels, the watched lists have. -/
private theorem forall₂_watchAllFrom {R : Grammar ι κ → Grammar ι κ' → Prop}
    {gs : List (Grammar ι κ)} {gs' : List (Grammar ι κ')}
    (h : List.Forall₂ (fun g g' => ∀ label, R (g.watchAll label) (g'.watchAll label)) gs gs')
    (label : List Nat → String) (k : Nat) :
    List.Forall₂ R (watchAllFrom label k gs) (watchAllFrom label k gs') := by
  induction h generalizing k with
  | nil => exact .nil
  | cons hg _ ih => exact .cons (hg _) (ih (k + 1))

/-- Twins watched under the same labels are twins. -/
theorem Twin.watchAll {g : Grammar ι κ} {g' : Grammar ι κ'} (hg : g.Twin g')
    (label : List Nat → String) : (g.watchAll label).Twin (g'.watchAll label) := by
  have hlist {gs : List (Grammar ι κ)} {gs' : List (Grammar ι κ')} (hlen : gs.length = gs'.length)
      (h : ∀ {h h'}, (h, h') ∈ gs.zip gs' → ∀ label, (h.watchAll label).Twin (h'.watchAll label))
      (label : List Nat → String) :
      List.Forall₂ Twin (watchAllFrom label 0 gs) (watchAllFrom label 0 gs') :=
    forall₂_watchAllFrom (List.forall₂_iff_zip.2 ⟨hlen, h⟩) label 0
  -- the labels change on the way down, but in both grammars alike
  induction hg generalizing label with
  | endOfInput => exact .watch .endOfInput
  | symbol x => exact .watch (.symbol x)
  | range lo hi => exact .watch (.range lo hi)
  | word w => exact .watch (.word w)
  | sequence hlen _ ih =>
    obtain ⟨hlen', h⟩ := List.forall₂_iff_zip.1 (hlist hlen ih label)
    exact .watch (.sequence hlen' h)
  | either hlen _ ih =>
    obtain ⟨hlen', h⟩ := List.forall₂_iff_zip.1 (hlist hlen ih label)
    exact .watch (.either hlen' h)
  | oneOf ht hlen _ ih =>
    obtain ⟨hlen', h⟩ := List.forall₂_iff_zip.1 (hlist hlen ih label)
    exact .watch (.oneOf ht hlen' h)
  | many _ ih => exact .watch (.many (ih _))
  | map _ ih => exact .watch (.map (ih _))
  | rule i => exact .watch (.rule i)
  | watch _ ih => exact .watch (.watch (ih _))
  | custom h => exact .watch (.custom h)

section

variable {call call' : ι → Parser (Value κ)}

/-- The attempt at a node itself does not pass the test. -/
private theorem watched_alike_unwatched {p q : Parser (Value κ)} (h : p.Alike Event.unwatched q)
    (label : String) : (Parser.watched label p).Alike Event.unwatched q := fun c =>
  (h c).after_left rfl

/-- Nodes that run alike under any labels do so one by one in a watched list. -/
private theorem parsers_watchAllFrom {gs : List (Grammar ι κ)}
    (h : ∀ g ∈ gs, ∀ label, ((g.watchAll label).parser call).Alike Event.unwatched
      (g.parser call')) (label : List Nat → String) (k : Nat) :
    List.Forall₂ (Parser.Alike Event.unwatched) ((watchAllFrom label k gs).map (parser call))
      (gs.map (parser call')) := by
  induction gs generalizing k with
  | nil => exact .nil
  | cons g gs ih =>
    have htail := ih (fun g' hg' => h g' (List.mem_cons_of_mem g hg')) (k + 1)
    exact .cons (h g List.mem_cons_self _) htail

/-- What a grammar does while all its nodes are watched is what it does, but for the attempts. -/
theorem parser_watchAll (g : Grammar ι κ) (label : List Nat → String)
    (hcall : ∀ i, (call i).Alike Event.unwatched (call' i)) :
    ((g.watchAll label).parser call).Alike Event.unwatched (g.parser call') := by
  -- every node is watched, so in each case the attempt at the node is taken off first
  induction g using Grammar.structural_induction generalizing label with
  | node g ih =>
    cases g with
    | endOfInput | symbol | range | word | custom =>
      exact watched_alike_unwatched (fun _ => .refl _) _
    | sequence items =>
      have hitems := parsers_watchAllFrom ih label 0
      apply watched_alike_unwatched
      simp only [parser, parsers_eq_map]
      exact fun c => (Parser.sequenceFrom_alike hitems c.offset c).mapValue _ _
    | either branches =>
      have hbranches := parsers_watchAllFrom ih label 0
      apply watched_alike_unwatched
      simp only [parser, parsers_eq_map]
      exact Parser.choice_alike hbranches
    | oneOf form types branches =>
      have hbranches := parsers_watchAllFrom ih label 0
      apply watched_alike_unwatched
      simp only [parser, parsers_eq_map]
      exact fun c => (Parser.taggedFrom_alike rfl hbranches c c.offset).mapValue _ _
    | many item =>
      have hitem := ih item (List.mem_singleton_self item) fun path => label (0 :: path)
      apply watched_alike_unwatched
      exact fun c => (Parser.manyFrom_alike hitem c.offset c).mapValue _ _
    | map f inner =>
      apply watched_alike_unwatched
      exact Parser.mapped_alike (ih inner (List.mem_singleton_self inner) _) f f
    | rule i => exact watched_alike_unwatched (hcall i) _
    | watch own inner =>
      apply watched_alike_unwatched
      exact Parser.watched_alike (ih inner (List.mem_singleton_self inner) _) own

end

end Grammar

namespace Rulebook

variable {book : Rulebook ι κ} {book' : Rulebook ι κ'}

/-- The rule book with every node of every body watched. -/
def watchAll (book : Rulebook ι κ) (label : ι → List Nat → String) : Rulebook ι κ where
  keys := book.keys
  rule i := { book.rule i with body := (book.rule i).body.watchAll (label i) }
  mem_keys := book.mem_keys

/-- Twins watched under the same labels are twins. -/
theorem Twin.watchAll (hbook : book.Twin book') (label : ι → List Nat → String) :
    (book.watchAll label).Twin (book'.watchAll label) := fun i =>
  ⟨(hbook i).1, (hbook i).2.watchAll (label i)⟩

/-- A rule of the watched book, called, does what the rule does, but for the attempts. -/
theorem call_watchAll (label : ι → List Nat → String) (n : Nat) (i : ι) :
    ((book.watchAll label).call n i).Alike Event.unwatched (book.call n i) := by
  induction n generalizing i with
  | zero => exact fun _ => ⟨rfl, rfl⟩
  | succ n ih =>
    exact Parser.named_alike (Grammar.parser_watchAll (book.rule i).body (label i) ih) _ _ _

/-- A watched run ends alike, and what it leaves besides the attempts is what the run leaves. -/
theorem runWith_watchAll (label : ι → List Nat → String) (g : Grammar ι κ)
    (top : List Nat → String) (n : Nat) :
    ((book.watchAll label).runWith n (g.watchAll top)).Alike Event.unwatched
      (book.runWith n g) :=
  Grammar.parser_watchAll g top (call_watchAll label n)

/-- The same for a run with the bound of the book, which watching does not change. -/
theorem run_watchAll (label : ι → List Nat → String) (g : Grammar ι κ)
    (top : List Nat → String) :
    ((book.watchAll label).run (g.watchAll top)).Alike Event.unwatched (book.run g) :=
  runWith_watchAll label g top book.depthBound

/-! ## Twins in lock step -/

/-- A run that finishes is alike to the run of its twin, although each of the two books gives its
    own bound. -/
theorem run_alike_of_finished {g : Grammar ι κ} {g' : Grammar ι κ'} {c : Cursor}
    (hbook : book.Twin book') (hg : g.Twin g')
    (hfinished : (book.run g c).ending ≠ .error .outOfFuel) :
    (book.run g c).Alike (fun _ => true) (book'.run g' c) := by
  have h : (book.run g c).Alike (fun _ => true) (book'.runWith book.depthBound g' c) :=
    runWith_twin hbook hg book.depthBound c
  -- the bound is that of one book, but the twin finishes with it as well
  have hfinished' : (book'.runWith book.depthBound g' c).ending ≠ .error .outOfFuel :=
    fun hout => hfinished ((h.stops_iff _).2 hout)
  rw [runWith_eq_run hfinished'] at h
  exact h

/-- Twins that finish leave the same trace. -/
theorem run_trace_of_finished {g : Grammar ι κ} {g' : Grammar ι κ'} {c : Cursor}
    (hbook : book.Twin book') (hg : g.Twin g')
    (hfinished : (book.run g c).ending ≠ .error .outOfFuel) :
    (book.run g c).trace.toList = (book'.run g' c).trace.toList := by
  simpa using (run_alike_of_finished hbook hg hfinished).trace

/-- Two grammars with rule books that differ in nothing but functions on values, run at one cursor.
    One finishes with some bound on the nesting of rules exactly if the other does. Then both read
    the same span, fail with the same failure or break off on the same fault. They leave the same
    trace, and so the action of every rule ran equally often. With every node watched, under any
    labels, both try the same nodes at the same offsets in the same order; and watching them made
    no difference. -/
theorem run_twin (book : Rulebook ι κ) (book' : Rulebook ι κ') (hbook : book.Twin book')
    (g : Grammar ι κ) (g' : Grammar ι κ') (hg : g.Twin g') (c : Cursor) :
    ((∃ n, (book.runWith n g c).ending ≠ .error .outOfFuel) ↔
      ∃ n, (book'.runWith n g' c).ending ≠ .error .outOfFuel) ∧
    ((∃ n, (book.runWith n g c).ending ≠ .error .outOfFuel) →
      ((∃ v v' s, (book.run g c).ending = .ok (.done v s) ∧
          (book'.run g' c).ending = .ok (.done v' s)) ∨
        (∃ f, (book.run g c).ending = .ok (.failed f) ∧
          (book'.run g' c).ending = .ok (.failed f)) ∨
        ∃ fault, (book.run g c).ending = .error (.fault fault) ∧
          (book'.run g' c).ending = .error (.fault fault)) ∧
      (book.run g c).trace.toList = (book'.run g' c).trace.toList ∧
      (∀ name, Trace.actions name (book.run g c).trace.toList =
        Trace.actions name (book'.run g' c).trace.toList) ∧
      ∀ (label : ι → List Nat → String) (top : List Nat → String),
        ((book.watchAll label).run (g.watchAll top) c).Alike Event.unwatched (book.run g c) ∧
        ((book'.watchAll label).run (g'.watchAll top) c).Alike Event.unwatched
          (book'.run g' c) ∧
        Trace.attempts ((book.watchAll label).run (g.watchAll top) c).trace.toList =
          Trace.attempts ((book'.watchAll label).run (g'.watchAll top) c).trace.toList) := by
  -- with one bound for both, twins run in lock step
  have hlockstep (n : Nat) : (book.runWith n g c).Alike (fun _ => true) (book'.runWith n g' c) :=
    runWith_twin hbook hg n c
  refine ⟨exists_congr fun n => not_congr ((hlockstep n).stops_iff _), fun hfinishes => ?_⟩
  have hfinished := run_finishes_iff.2 hfinishes
  have hends := (run_alike_of_finished hbook hg hfinished).cases
  have htrace := run_trace_of_finished hbook hg hfinished
  refine ⟨?_, htrace, fun name => by rw [htrace], fun label top => ?_⟩
  · obtain hdone | hfailed | ⟨stop, hr, hr'⟩ := hends
    · exact .inl hdone
    · exact .inr (.inl hfailed)
    · -- a finished run stops for a fault only
      cases stop with
      | fault fault => exact .inr (.inr ⟨fault, hr, hr'⟩)
      | outOfFuel => exact absurd hr hfinished
  · have hwatched : ((book.watchAll label).run (g.watchAll top) c).Alike Event.unwatched
        (book.run g c) := run_watchAll label g top c
    -- the watched parse finishes as well, so the watched twin runs in lock step with it
    have hstill : ((book.watchAll label).run (g.watchAll top) c).ending ≠ .error .outOfFuel :=
      fun hout => hfinished ((hwatched.stops_iff _).1 hout)
    refine ⟨hwatched, run_watchAll label g' top c, ?_⟩
    rw [run_trace_of_finished (hbook.watchAll label) (hg.watchAll top) hstill]

/-- The bracket grammar with actions that forget what they are given. -/
def forgetful : Rulebook Sample.BracketRule Sample.Bracket :=
  Sample.BracketRule.book.withActions fun _ _ => .unit

/-- With other actions, and under another map, a pair of brackets reads the same span, and the
    action of the rule of pairs runs as often. -/
theorem run_twin_forgetful :
    Sample.BracketRule.book.Twin forgetful ∧
    (Grammar.map id (.rule .paren) : Grammar Sample.BracketRule Sample.Bracket).Twin
      (.map (fun _ => .eof) (.rule .paren) : Grammar Sample.BracketRule Sample.Bracket) ∧
    (∃ v, (forgetful.run (.map (fun _ => .eof) (.rule .paren)) ⟨"(\x7b\x7d)", 0⟩).ending =
      .ok (.done v ⟨0, 4, by decide⟩)) ∧
    Trace.actions "Paren" (forgetful.run (.map (fun _ => .eof) (.rule .paren))
      ⟨"(\x7b\x7d)", 0⟩).trace.toList = 2 := by
  have hbook : Sample.BracketRule.book.Twin forgetful := twin_withActions _ _
  have hg : (Grammar.map id (.rule .paren) : Grammar Sample.BracketRule Sample.Bracket).Twin
      (.map (fun _ => .eof) (.rule .paren) : Grammar Sample.BracketRule Sample.Bracket) :=
    .map (.refl _)
  have hends : (Sample.BracketRule.book.runWith 6 (.map id (.rule .paren))
      ⟨"(\x7b\x7d)", 0⟩).ending =
        .ok (.done (.made (.round [.curly []])) ⟨0, 4, by decide⟩) := by cbv
  have hactions : Trace.actions "Paren" (Sample.BracketRule.book.runWith 6
      (.map id (.rule .paren)) ⟨"(\x7b\x7d)", 0⟩).trace.toList = 2 := by cbv
  have hfinished : (Sample.BracketRule.book.runWith 6 (.map id (.rule .paren))
      ⟨"(\x7b\x7d)", 0⟩).ending ≠ .error .outOfFuel := by simp [hends]
  rw [runWith_eq_run hfinished] at hends hactions
  obtain ⟨hsame, -, hcount, -⟩ := (run_twin _ _ hbook _ _ hg ⟨"(\x7b\x7d)", 0⟩).2 ⟨6, hfinished⟩
  refine ⟨hbook, hg, ?_, ?_⟩
  · obtain ⟨v, v', s, hr, hr'⟩ | ⟨f, hr, -⟩ | ⟨fault, hr, -⟩ := hsame <;> rw [hends] at hr
    · cases hr
      exact ⟨v', hr'⟩
    · cases hr
    · cases hr
  · rw [← hcount, hactions]

end Rulebook

end ParserKit
