import ParserKit.Proofs.LinkedMatches
import ParserKit.Proofs.OffsetSafety

/-!
# Regrouping sequences

Neighbours in a sequence may be put into a sequence of their own, and neighbours in that one again.
Such a bracketing of the elements is a tree (`Nest`) whose leaves, from left to right, are the
elements of the flat sequence. Without parsers of one's own the bracketed sequence does what the
flat one does: what an inner sequence hands on is the end of its last match, and that is where the
flat sequence is then too. The value is nested like the sequence is.

## Key results

- `Nest.fold`, `Nest.parts_induction`: recursion and induction over bracketings
- `Rulebook.parts_cases`: parts one after the other, and their leaves one after the other
- `Rulebook.flattens`: every bracketing against its leaves

The bracketed and the flat sequence are compared last.
-/

namespace ParserKit

/-! ## Bracketings -/

/-- A list of elements with brackets around some of its segments. -/
inductive Nest (γ : Type) where
  /-- One element. -/
  | leaf (a : γ)
  /-- The parts between two brackets. -/
  | group (parts : List (Nest γ))

namespace Nest

variable {γ δ : Type}

mutual

/-- Replaces elements by `leaf` and brackets by `group`. -/
def fold (leaf : γ → δ) (group : List δ → δ) : Nest γ → δ
  | .leaf a => leaf a
  | .group parts => group (foldEach leaf group parts)

/-- Folds each part. -/
def foldEach (leaf : γ → δ) (group : List δ → δ) : List (Nest γ) → List δ
  | [] => []
  | n :: parts => n.fold leaf group :: foldEach leaf group parts

end

/-- A fold goes through the parts of a group one by one. -/
theorem fold_group (leaf : γ → δ) (group : List δ → δ) (parts : List (Nest γ)) :
    (Nest.group parts).fold leaf group = group (parts.map (fold leaf group)) := by
  have hparts : foldEach leaf group parts = parts.map (fold leaf group) := by
    induction parts with
    | nil => rfl
    | cons n parts ih => rw [foldEach, ih, List.map_cons]
  rw [fold, hparts]

mutual

/-- To prove something of every bracketing, prove it of an element, and of parts between brackets
    from the same of each of them. -/
@[elab_as_elim]
theorem parts_induction {motive : Nest γ → Prop} (leaf : ∀ a, motive (.leaf a))
    (group : ∀ parts, (∀ n ∈ parts, motive n) → motive (.group parts)) : ∀ n, motive n
  | .leaf a => leaf a
  | .group parts => group parts (each_of_parts leaf group parts)

/-- The same for each of several parts. -/
private theorem each_of_parts {motive : Nest γ → Prop} (leaf : ∀ a, motive (.leaf a))
    (group : ∀ parts, (∀ n ∈ parts, motive n) → motive (.group parts)) :
    ∀ parts : List (Nest γ), ∀ n ∈ parts, motive n
  | [] => nofun
  | n :: parts => List.forall_mem_cons.2
      ⟨parts_induction leaf group n, each_of_parts leaf group parts⟩

end

/-- The elements from left to right, without the brackets. -/
def leaves (n : Nest γ) : List γ := n.fold ([·]) List.flatten

/-- The brackets without the elements. -/
def shape (n : Nest γ) : Nest Unit := n.fold (fun _ => .leaf ()) .group

/-- The grammar in which each pair of brackets is a sequence. -/
def grammar {ι κ : Type} (element : γ → Grammar ι κ) (n : Nest γ) : Grammar ι κ :=
  n.fold element .sequence

/-- The value in which each pair of brackets is a tuple. -/
def value {κ : Type} (n : Nest (Value κ)) : Value κ := n.fold id .seq

@[simp] theorem leaves_group (parts : List (Nest γ)) :
    (Nest.group parts).leaves = (parts.map leaves).flatten := fold_group _ _ _

@[simp] theorem shape_group (parts : List (Nest γ)) :
    (Nest.group parts).shape = .group (parts.map shape) := fold_group _ _ _

@[simp] theorem grammar_group {ι κ : Type} (element : γ → Grammar ι κ) (parts : List (Nest γ)) :
    (Nest.group parts).grammar element = .sequence (parts.map (grammar element)) :=
  fold_group _ _ _

@[simp] theorem value_group {κ : Type} (parts : List (Nest (Value κ))) :
    (Nest.group parts).value = .seq (parts.map value) := fold_group _ _ _

/-- The elements of a part are elements of the group. -/
theorem mem_leaves_group {parts : List (Nest γ)} {n : Nest γ} {a : γ} (hn : n ∈ parts)
    (ha : a ∈ n.leaves) : a ∈ (Nest.group parts).leaves := by
  rw [leaves_group]
  exact List.mem_flatten_of_mem (List.mem_map_of_mem hn) ha

end Nest

/-! ## Linked grammars -/

open ParserKit.Parser (Linked Breaks)

/-- Linked parsers that never go back come to no offset before the first. -/
theorem Parser.Linked.le {α : Type} {input : String} {ps : List (Parser α)} {o e : Offset}
    {ms : List (α × Span)} {es : List Event} (h : Linked input ps o ms es e)
    (hps : ∀ p ∈ ps, ∀ q v s, (p ⟨input, q⟩).ending = .ok (.done v s) → q.val ≤ s.stop.val) :
    o.val ≤ e.val := by
  induction h with
  | nil => exact Nat.le_refl _
  | cons hp _ ih =>
    rw [List.forall_mem_cons] at hps
    exact (hps.1 _ _ _ hp).trans (ih hps.2)

namespace Rulebook

variable {ι κ γ : Type} {book : Rulebook ι κ} {element : γ → Grammar ι κ} {input : String}
  {parts : List (Nest γ)}

/-- Watching a grammar brings no parser of one's own into it. -/
theorem CustomFree.watch {g : Grammar ι κ} (hg : book.CustomFree g) (label : String) :
    book.CustomFree (.watch label g) := by
  intro read h
  cases h with
  | child hmem h =>
    obtain rfl := List.mem_singleton.1 hmem
    exact hg read h

/-- Neither does a sequence of grammars without any. -/
theorem CustomFree.sequence {items : List (Grammar ι κ)} (h : ∀ g ∈ items, book.CustomFree g) :
    book.CustomFree (.sequence items) := by
  intro read hreaches
  cases hreaches with
  | child hmem hreaches => exact h _ hmem read hreaches

/-- Grammars without parsers of one's own that are linked come to no offset before the first. -/
theorem le_of_linked {as : List γ} {o e : Offset} {ms : List (Value κ × Span)} {es : List Event}
    (hfree : ∀ a ∈ as, book.CustomFree (element a)) (hsize : input.utf8ByteSize < 2 ^ 64)
    (h : Linked input ((as.map element).map book.run) o ms es e) : o.val ≤ e.val := by
  refine h.le fun p hp q v s hreads => ?_
  rw [List.map_map] at hp
  obtain ⟨a, ha, rfl⟩ := List.mem_map.1 hp
  exact le_stop_of_run (hfree a ha) hsize hreads

/-! ## A bracketing against its elements -/

/-- How a run of a bracketing at `o` compares with runs of its elements, one after the other from
    there on: they record the same events, and they come to the same end or break off alike. What is
    read is nested like the bracketing. -/
inductive Flattens (book : Rulebook ι κ) (element : γ → Grammar ι κ) (input : String) (n : Nest γ)
    (o : Offset) : Prop
  | reads (V : Nest (Value κ)) {s : Span} {ms : List (Value κ × Span)} {es : List Event} :
      V.shape = n.shape → s.begin = o →
      (book.run (n.grammar element) ⟨input, o⟩).ending = .ok (.done V.value s) →
      (book.run (n.grammar element) ⟨input, o⟩).trace.toList = es →
      Linked input ((n.leaves.map element).map book.run) o ms es s.stop →
      ms.map (·.1) = V.leaves → Flattens book element input n o
  | breaks {x : Except Stop Failure} {es : List Event} :
      (book.run (n.grammar element) ⟨input, o⟩).ending = x.map .failed →
      (book.run (n.grammar element) ⟨input, o⟩).trace.toList = es →
      Breaks input ((n.leaves.map element).map book.run) o es x → Flattens book element input n o

/-- How parts that are run one after the other compare with their elements. -/
inductive PartsFlatten (book : Rulebook ι κ) (element : γ → Grammar ι κ) (input : String)
    (parts : List (Nest γ)) (o : Offset) : Prop
  | linked (Vs : List (Nest (Value κ))) {ms ms' : List (Value κ × Span)} {es : List Event}
      {e : Offset} :
      Vs.map Nest.shape = parts.map Nest.shape →
      Linked input ((parts.map (Nest.grammar element)).map book.run) o ms es e →
      ms.map (·.1) = Vs.map Nest.value →
      Linked input (((Nest.group parts).leaves.map element).map book.run) o ms' es e →
      ms'.map (·.1) = (Nest.group Vs).leaves → PartsFlatten book element input parts o
  | breaks {es : List Event} {x : Except Stop Failure} :
      Breaks input ((parts.map (Nest.grammar element)).map book.run) o es x →
      Breaks input (((Nest.group parts).leaves.map element).map book.run) o es x →
      PartsFlatten book element input parts o

/-- An element by itself is a bracketing of itself: it matches and is linked, or it breaks. -/
theorem flattens_leaf {a : γ} (ha : book.CustomFree (element a))
    (hsize : input.utf8ByteSize < 2 ^ 64) (o : Offset) :
    Flattens book element input (.leaf a) o := by
  rcases Parser.done_or_breaks (book.run (element a)) ⟨input, o⟩ with ⟨v, s, h⟩ | ⟨x, h⟩
  -- a match of the element is linked to nothing yet
  · have hlinked : Linked input [book.run (element a)] o [(v, s)] _ s.stop := .cons h (.nil s.stop)
    exact .reads (.leaf v) rfl (begin_eq_of_run ha hsize h) h (List.append_nil _).symm hlinked rfl
  · exact .breaks h rfl (.here h)

/-- Parts that each compare with their elements compare with them one after the other as well. If
    all     parts match, their matches are linked, and so are the matches of all elements, up to the
    same end     and with the same events. Otherwise both break off with the same failure or for the
    same     reason. -/
theorem parts_cases (ih : ∀ n ∈ parts, ∀ o, Flattens book element input n o) (o : Offset) :
    PartsFlatten book element input parts o := by
  -- the offset goes on from part to part, so it is generalized
  induction parts generalizing o with
  | nil => exact .linked [] rfl (.nil o) rfl (.nil o) rfl
  | cons n parts ihparts =>
    obtain ⟨hn, hparts⟩ := List.forall_mem_cons.1 ih
    -- the elements of all parts are those of the first, and then those of the others
    have hleaves : ((Nest.group (n :: parts)).leaves.map element).map book.run =
        (n.leaves.map element).map book.run ++
          ((Nest.group parts).leaves.map element).map book.run := by
      simp
    cases hn o with
    | reads V hshape _ hending htrace hlinked hvalues =>
      -- the other parts go on where the first one ends, and so do its elements
      cases ihparts hparts _ with
      | linked Vs hshapes hnested hvalues' hflat hleaves' =>
        have hall := hlinked.append hflat
        rw [← hleaves, ← htrace] at hall
        -- all parts match: the values are nested like the parts, with the same items in a row
        refine .linked (V :: Vs) ?_ (.cons hending hnested) ?_ hall ?_
        · rw [List.map_cons, List.map_cons, hshape, hshapes]
        · rw [List.map_cons, List.map_cons, hvalues']
        · rw [List.map_append, hvalues, hleaves']
          simp
      | breaks hnested hflat =>
        have hall := hlinked.append_breaks hflat
        rw [← hleaves, ← htrace] at hall
        -- a later part breaks off, and so do its elements behind those of the first
        exact .breaks (.later hending hnested) hall
    | breaks hending htrace hbreaks =>
      -- the first part breaks off, and what stands behind is not run in either form
      have hall := hbreaks.append (((Nest.group parts).leaves.map element).map book.run)
      rw [← hleaves, ← htrace] at hall
      exact .breaks (.here hending) hall

/-- What holds of the parts of a group, one after the other, holds of the sequence in its brackets.
    -/
theorem flattens_group (ih : ∀ n ∈ parts, ∀ o, Flattens book element input n o)
    (hfree : ∀ a ∈ (Nest.group parts).leaves, book.CustomFree (element a))
    (hsize : input.utf8ByteSize < 2 ^ 64) (o : Offset) :
    Flattens book element input (.group parts) o := by
  -- the parts run as the group does, up to where its span is closed
  cases parts_cases ih o with
  | @linked Vs ms ms' es e hshapes hnested hvalues hflat hleaves =>
    -- only here is the end compared with the start: the span of the group must not be reversed
    have hle : o.val ≤ e.val := le_of_linked hfree hsize hflat
    obtain ⟨hending, htrace⟩ := run_sequence_of_linked hnested
    rw [← Nest.grammar_group, hvalues, ← Nest.value_group] at hending
    rw [← Nest.grammar_group] at htrace
    refine .reads (.group Vs) ?_ rfl ((Run.closes_of_ending hending).reads hle) htrace hflat hleaves
    rw [Nest.shape_group, Nest.shape_group, hshapes]
  | breaks hnested hflat =>
    obtain ⟨hending, htrace⟩ := run_sequence_of_breaks hnested
    rw [← Nest.grammar_group] at hending htrace
    exact .breaks hending htrace hflat

/-- Every bracketing of elements without parsers of one's own compares with its elements. -/
theorem flattens (hsize : input.utf8ByteSize < 2 ^ 64) (n : Nest γ)
    (hfree : ∀ a ∈ n.leaves, book.CustomFree (element a)) (o : Offset) :
    Flattens book element input n o := by
  -- on the bracketing: each part is compared at any offset, as it runs where the part before ended
  induction n using Nest.parts_induction generalizing o with
  | leaf a => exact flattens_leaf (hfree a (List.mem_singleton_self a)) hsize o
  | group parts ih =>
    exact flattens_group (fun n hn => ih n hn fun a ha => hfree a (Nest.mem_leaves_group hn ha))
      hfree hsize o

/-! ## The bracketed and the flat sequence -/

/-- The bracketed sequence and the flat one leave the same trace. -/
theorem trace_regrouped (hfree : ∀ a ∈ (Nest.group parts).leaves, book.CustomFree (element a))
    (hsize : input.utf8ByteSize < 2 ^ 64) (o : Offset) :
    (book.run ((Nest.group parts).grammar element) ⟨input, o⟩).trace.toList =
      (book.run (.sequence ((Nest.group parts).leaves.map element)) ⟨input, o⟩).trace.toList := by
  cases flattens hsize (.group parts) hfree o with
  | reads _ _ _ _ htrace hlinked _ => rw [htrace, (run_sequence_of_linked hlinked).2]
  | breaks _ htrace hbreaks => rw [htrace, (run_sequence_of_breaks hbreaks).2]

/-- A bracketing of elements without parsers of one's own, as nested sequences, and the flat
    sequence of the same elements, at any offset of a text.

    - Both read, from the same span, and the value of the nested one is nested like the bracketing,
      with the items of the flat one from left to right, or both fail with the same failure, or
      neither comes to an end.
    - They record the same events.
    - Whichever labels the elements are watched under, the same elements are tried at the same
      offsets in the same order. -/
theorem run_regrouped (book : Rulebook ι κ) (element : γ → Grammar ι κ) (parts : List (Nest γ))
    (hfree : ∀ a ∈ (Nest.group parts).leaves, book.CustomFree (element a))
    (input : String) (hsize : input.utf8ByteSize < 2 ^ 64) (o : Offset) :
    ((∃ (V : Nest (Value κ)) (s : Span), V.shape = (Nest.group parts).shape ∧
        (book.run ((Nest.group parts).grammar element) ⟨input, o⟩).ending =
          .ok (.done V.value s) ∧
        (book.run (.sequence ((Nest.group parts).leaves.map element)) ⟨input, o⟩).ending =
          .ok (.done (.seq V.leaves) s)) ∨
      (∃ f, (book.run ((Nest.group parts).grammar element) ⟨input, o⟩).ending =
          .ok (.failed f) ∧
        (book.run (.sequence ((Nest.group parts).leaves.map element)) ⟨input, o⟩).ending =
          .ok (.failed f)) ∨
      (book.run ((Nest.group parts).grammar element) ⟨input, o⟩).ending = .error .outOfFuel ∧
        (book.run (.sequence ((Nest.group parts).leaves.map element)) ⟨input, o⟩).ending =
          .error .outOfFuel) ∧
    (book.run ((Nest.group parts).grammar element) ⟨input, o⟩).trace.toList =
      (book.run (.sequence ((Nest.group parts).leaves.map element)) ⟨input, o⟩).trace.toList ∧
    ∀ label : γ → String,
      Trace.attempts (book.run ((Nest.group parts).grammar fun a => .watch (label a) (element a))
        ⟨input, o⟩).trace.toList =
      Trace.attempts (book.run (.sequence ((Nest.group parts).leaves.map fun a =>
        .watch (label a) (element a))) ⟨input, o⟩).trace.toList := by
  refine ⟨?_, trace_regrouped hfree hsize o, fun label => ?_⟩
  · cases flattens hsize (.group parts) hfree o with
    | @reads V s _ _ hshape hbegin hnested _ hlinked hvalues =>
      -- the flat sequence closes the same span, which is not reversed either
      have hle : o.val ≤ s.stop.val := hbegin ▸ s.begin_le_stop
      have hflat := (Run.closes_of_ending (run_sequence_of_linked hlinked).1).reads hle
      obtain ⟨_, e, _⟩ := s
      obtain rfl := hbegin
      rw [hvalues] at hflat
      exact .inl ⟨V, _, hshape, hnested, hflat⟩
    | @breaks x _ hnested _ hbreaks =>
      have hflat := (run_sequence_of_breaks hbreaks).1
      cases x with
      | ok f => exact .inr (.inl ⟨f, hnested, hflat⟩)
      | error stop =>
        -- without parsers of one's own there is no fault, so a run that stops is out of fuel
        have hsequence : book.CustomFree (.sequence ((Nest.group parts).leaves.map element)) :=
          .sequence (List.forall_mem_map.2 hfree)
        obtain rfl : stop = .outOfFuel :=
          (runWith_within hsequence hsize (c := ⟨input, o⟩) _).eq_outOfFuel hflat
        exact .inr (.inr ⟨hnested, hflat⟩)
  -- watching the elements gives a bracketing of other elements, of which the same holds
  · have hwatched : ∀ a ∈ (Nest.group parts).leaves,
        book.CustomFree (.watch (label a) (element a)) := fun a ha => (hfree a ha).watch (label a)
    rw [trace_regrouped hwatched hsize o]

/-- Four letters with brackets around the middle ones, and around the last of these again. -/
def bracketed : List (Nest Char) :=
  [.leaf 'a', .group [.leaf 'b', .group [.leaf 'c']], .leaf 'd']

private theorem bracketed_abcd :
    ((noRules : Rulebook Empty Unit).run ((Nest.group bracketed).grammar .symbol)
      ⟨"abcd", 0⟩).ending = .ok (.done
        (.seq [.char 'a', .seq [.char 'b', .seq [.char 'c']], .char 'd']) ⟨0, 4, by decide⟩) := by
  cbv

private theorem bracketed_abx :
    ((noRules : Rulebook Empty Unit).run ((Nest.group bracketed).grammar .symbol)
      ⟨"abx", 0⟩).ending = .ok (.failed ⟨2, 2, .symbol 'c', by decide⟩) := by
  cbv

private theorem bracketed_tried :
    Trace.attempts ((noRules : Rulebook Empty Unit).run ((Nest.group bracketed).grammar fun c =>
      .watch c.toString (.symbol c)) ⟨"abx", 0⟩).trace.toList = [("a", 0), ("b", 1), ("c", 2)] := by
  cbv

/-- On `abcd` the flat sequence reads the items of the nested tuples. On `abx` it fails like the
    nested one, having tried the same three letters. -/
theorem run_regrouped_letters :
    (∀ a ∈ (Nest.group bracketed).leaves,
        (noRules : Rulebook Empty Unit).CustomFree (.symbol a)) ∧
      "abcd".utf8ByteSize < 2 ^ 64 ∧ "abx".utf8ByteSize < 2 ^ 64 ∧
      (∃ V : Nest (Value Unit), V.shape = (Nest.group bracketed).shape ∧
        V.value = .seq [.char 'a', .seq [.char 'b', .seq [.char 'c']], .char 'd'] ∧
        ((noRules : Rulebook Empty Unit).run
          (.sequence ((Nest.group bracketed).leaves.map .symbol)) ⟨"abcd", 0⟩).ending =
            .ok (.done (.seq V.leaves) ⟨0, 4, by decide⟩)) ∧
      ((noRules : Rulebook Empty Unit).run
        (.sequence ((Nest.group bracketed).leaves.map .symbol)) ⟨"abx", 0⟩).ending =
          .ok (.failed ⟨2, 2, .symbol 'c', by decide⟩) ∧
      Trace.attempts ((noRules : Rulebook Empty Unit).run
        (.sequence ((Nest.group bracketed).leaves.map fun c => .watch c.toString (.symbol c)))
          ⟨"abx", 0⟩).trace.toList = [("a", 0), ("b", 1), ("c", 2)] := by
  have hfree : ∀ a ∈ (Nest.group bracketed).leaves,
      (noRules : Rulebook Empty Unit).CustomFree (.symbol a) :=
    fun _ _ => customFree_of_all (fun i => i.elim) rfl
  have hsize : "abcd".utf8ByteSize < 2 ^ 64 := by decide
  have hsize' : "abx".utf8ByteSize < 2 ^ 64 := by decide
  obtain ⟨hreads, -⟩ := run_regrouped noRules .symbol bracketed hfree "abcd" hsize 0
  obtain ⟨hfails, -, htried⟩ := run_regrouped noRules .symbol bracketed hfree "abx" hsize' 0
  rw [bracketed_abcd] at hreads
  rw [bracketed_abx] at hfails
  refine ⟨hfree, hsize, hsize', ?_, ?_, ?_⟩
  · obtain ⟨V, s, hshape, hnested, hflat⟩ | ⟨_, hnested, -⟩ | ⟨hnested, -⟩ := hreads
    · injection hnested with hdone
      injection hdone with hvalue hspan
      exact ⟨V, hshape, hvalue.symm, hspan ▸ hflat⟩
    · cases hnested
    · cases hnested
  · obtain ⟨_, _, _, hnested, -⟩ | ⟨f, hnested, hflat⟩ | ⟨hnested, -⟩ := hfails
    · cases hnested
    · cases hnested
      exact hflat
    · cases hnested
  · rw [← htried fun c => c.toString]
    exact bracketed_tried

end Rulebook

end ParserKit
