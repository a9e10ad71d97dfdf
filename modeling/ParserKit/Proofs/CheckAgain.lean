import Mathlib.Data.List.Nodup
import ParserKit.Proofs.CheckCorrect

/-!
# Checking once more

A check remembers the names of the rules that it has entered, and may be asked to go on with another
grammar, or with the same one. What it says the second time depends on where the first check
stopped.

If it went through to the end, or stopped at a node that is outside the bodies of all rules it had
entered, the second one goes the same way without entering anything and ends the same way
(`Walked.walk_again`, `StopsAt.walk_again`). If it stopped inside the body of a rule, then this rule
was entered, though its body was not looked at to the end, and it is never looked at again. So a
second check may find nothing wrong. What it says is what a check that has not entered anything says
of the grammar and the rules in which the references to all entered rules are cut off
(`walk_cut`).

## Key results

- `walk_added`: names are only added, each with one record
- `Walked.walk_again`: what was walked through without a flaw is walked through once more, and
  nothing is entered
- `StopsAt`: where a check stops, and in the bodies of which rules that is; there is exactly one
  such place (`Walked.exists_stopsAt`, `StopsAt.unique`)
- `StopsAt.walk_again`: outside all bodies it stops there once more
- `walk_cut`: rules entered before are leaves
-/

namespace ParserKit

variable {ι κ : Type}

/-! ## Cutting references off -/

namespace Grammar

mutual

/-- The grammar with `f i` in the place of each reference to the rule `i`. -/
def substitute (f : ι → Grammar ι κ) : Grammar ι κ → Grammar ι κ
  | sequence items => sequence (substituteAll f items)
  | either branches => either (substituteAll f branches)
  | oneOf form types branches => oneOf form types (substituteAll f branches)
  | many item => many (item.substitute f)
  | map g inner => map g (inner.substitute f)
  | watch label inner => watch label (inner.substitute f)
  | rule i => f i
  | endOfInput => endOfInput
  | symbol x => symbol x
  | range lo hi => range lo hi
  | word w => word w
  | custom read => custom read

/-- The same for each of the grammars. -/
def substituteAll (f : ι → Grammar ι κ) : List (Grammar ι κ) → List (Grammar ι κ)
  | [] => []
  | g :: gs => g.substitute f :: substituteAll f gs

end

/-- To substitute in a list of grammars is to do so in each of them. -/
@[simp] theorem substituteAll_eq_map (f : ι → Grammar ι κ) (gs : List (Grammar ι κ)) :
    substituteAll f gs = gs.map (substitute f) := by
  induction gs with
  | nil => rfl
  | cons g gs ih => simp [substituteAll, ih]

variable {f : ι → Grammar ι κ} {g : Grammar ι κ}

/-- A node that is no reference keeps its children, in which the references are replaced. -/
theorem children_substitute (hrule : ∀ i, g ≠ .rule i) :
    (g.substitute f).children = g.children.map (substitute f) := by
  cases g with
  | rule i => exact absurd rfl (hrule i)
  | _ => simp [substitute, children]

/-- What is wrong with a node itself is not in its children, so it stays. -/
theorem flaw?_substitute (hrule : ∀ i, g ≠ .rule i) : (g.substitute f).flaw? = g.flaw? := by
  cases g with
  | rule i => exact absurd rfl (hrule i)
  | _ => simp [substitute, flaw?]

/-- Only a reference can turn into a reference. -/
theorem substitute_ne_rule (hrule : ∀ i, g ≠ .rule i) (i : ι) : g.substitute f ≠ .rule i := by
  cases g with
  | rule j => exact absurd rfl (hrule j)
  | _ => simp [substitute]

/-- A leaf of which a check asks nothing. -/
def IsFreeLeaf : Grammar ι κ → Prop
  | endOfInput => True
  | symbol _ => True
  | word _ => True
  | custom _ => True
  | _ => False

end Grammar

namespace Visited

variable {v v' : Visited}

/-- A rule that is new is entered with its name. -/
theorem names_enter {name : String} (hnew : name ∉ v.names) :
    (v.enter name).2.names = name :: v.names := by
  rw [enter, dif_neg hnew]

/-- Names that were added are new, and each was added once. -/
theorem nodup_of_names_eq {added : List String} (h : v'.names = added.reverse ++ v.names) :
    added.Nodup ∧ ∀ name ∈ added, name ∉ v.names := by
  have hnodup := v'.nodup
  rw [h, List.nodup_append'] at hnodup
  obtain ⟨hadded, -, hdisjoint⟩ := hnodup
  exact ⟨List.nodup_reverse.1 hadded, fun name hname =>
    hdisjoint (List.mem_reverse.2 hname)⟩

end Visited

/-- The reports are alike, though the first check began with the rules `old` entered and the second
    one did not. -/
structure CheckReport.AlikeAfter (old : Visited) (r r' : CheckReport) : Prop where
  ending : r.ending = r'.ending
  events : r.events = r'.events
  names : r.visited.names = r'.visited.names ++ old.names

namespace Rulebook

/-- What a reference to the rule `i` becomes when the rules with the names `v` are cut off. -/
def cutReference (book : Rulebook ι κ) (v : Visited) (leaf : Grammar ι κ) (i : ι) : Grammar ι κ :=
  if (book.rule i).name ∈ v.names then leaf else .rule i

/-- The grammar with `leaf` for each reference to a rule whose name is in `v`. -/
def cut (book : Rulebook ι κ) (v : Visited) (leaf g : Grammar ι κ) : Grammar ι κ :=
  g.substitute (book.cutReference v leaf)

/-- The rules with `leaf` in their bodies for each reference to a rule whose name is in `v`. -/
def cutRules (book : Rulebook ι κ) (v : Visited) (leaf : Grammar ι κ) : Rulebook ι κ where
  keys := book.keys
  rule i := { book.rule i with body := book.cut v leaf (book.rule i).body }
  mem_keys := book.mem_keys

variable {book : Rulebook ι κ} {v v' : Visited} {gs met : List (Grammar ι κ)}

/-- A free leaf is walked over. -/
theorem walk_leaf {leaf : Grammar ι κ} (hleaf : leaf.IsFreeLeaf) (stack : List (Grammar ι κ)) :
    book.walk v (leaf :: stack) = book.walk v stack := by
  -- a leaf that is free has no flaw, is no reference and has no children
  have hnode : leaf.flaw? = none ∧ (∀ i, leaf ≠ .rule i) ∧ leaf.children = [] := by
    cases leaf <;> simp_all [Grammar.IsFreeLeaf, Grammar.flaw?, Grammar.children]
  obtain ⟨hflaw, hrule, hchildren⟩ := hnode
  rw [walk_node hflaw hrule, hchildren, List.nil_append]

/-- With the rules `old` entered before, the check goes through the grammars as one goes that has
    not entered them, through the grammars and the rules in which they are cut off. -/
theorem walk_cut {leaf : Grammar ι κ} (hleaf : leaf.IsFreeLeaf) (old v v' : Visited)
    (stack : List (Grammar ι κ)) (hnames : v.names = v'.names ++ old.names) :
    (book.walk v stack).AlikeAfter old
      ((book.cutRules old leaf).walk v' (stack.map (book.cut old leaf))) := by
  -- both checks take the same step: the induction follows the first one
  fun_induction walk book v stack generalizing v' with
  | case1 v =>
    rw [List.map_nil, walk_nil]
    exact ⟨rfl, rfl, hnames⟩
  | case2 v g stack flaw hflaw =>
    -- a reference to a rule has no flaw of its own
    have hrule : ∀ i, g ≠ .rule i := by
      rintro i rfl
      cases hflaw
    have hcut : (book.cut old leaf g).flaw? = some flaw := by
      rw [cut, Grammar.flaw?_substitute hrule, hflaw]
    rw [List.map_cons, walk_flawed hcut]
    exact ⟨rfl, rfl, hnames⟩
  | case3 v stack i hnew hflaw ih =>
    rw [Visited.enter_fst] at hnew
    -- a rule that is new to the first check is new to the second one, and was not cut off
    obtain ⟨hnew', hold⟩ : (book.rule i).name ∉ v'.names ∧ (book.rule i).name ∉ old.names := by
      rwa [hnames, List.mem_append, not_or] at hnew
    have hcut : book.cut old leaf (.rule i) = .rule i := if_neg hold
    have hcutNew : ((book.cutRules old leaf).rule i).name ∉ v'.names := hnew'
    have hnames' : (v.enter (book.rule i).name).2.names =
        (v'.enter (book.rule i).name).2.names ++ old.names := by
      rw [Visited.names_enter hnew, Visited.names_enter hnew', hnames, List.cons_append]
    obtain ⟨hending, hevents, hvisited⟩ := ih _ hnames'
    rw [List.map_cons, hcut, walk_enter hcutNew]
    exact ⟨hending, congrArg (List.cons _) hevents, hvisited⟩
  | case4 v stack i hentered hflaw ih =>
    rw [Visited.enter_fst, not_not, hnames, List.mem_append] at hentered
    -- either the reference was cut off, or the rule has been entered in the other walk as well
    by_cases hold : (book.rule i).name ∈ old.names
    · have hcut : book.cut old leaf (.rule i) = leaf := if_pos hold
      rw [List.map_cons, hcut, walk_leaf hleaf]
      exact ih v' hnames
    · have hcut : book.cut old leaf (.rule i) = .rule i := if_neg hold
      have hcutEntered : ((book.cutRules old leaf).rule i).name ∈ v'.names :=
        hentered.resolve_right hold
      rw [List.map_cons, hcut, walk_skip hcutEntered]
      exact ih v' hnames
  | case5 v stack g hrule hflaw ih =>
    have hcut : (book.cut old leaf g).flaw? = none := by
      rw [cut, Grammar.flaw?_substitute hrule, hflaw]
    have hrest := ih v' hnames
    rw [List.map_append] at hrest
    rw [List.map_cons, walk_node hcut (Grammar.substitute_ne_rule hrule), cut,
      Grammar.children_substitute hrule]
    exact hrest

/-! ## What a check adds -/

/-- What a check records when it ends. -/
def closingEvents : Except GrammarFlaw Unit → List Event
  | .ok () => []
  | .error flaw => [flaw.event]

/-- A check adds names to those that were entered, and records each of them when it does, and at its
    end the flaw if it found one. -/
theorem walk_added (book : Rulebook ι κ) (v : Visited) (stack : List (Grammar ι κ)) :
    ∃ added : List String, (book.walk v stack).visited.names = added.reverse ++ v.names ∧
      (book.walk v stack).events =
        added.map .checked ++ closingEvents (book.walk v stack).ending := by
  -- only where a rule is entered does a name come to those there were
  fun_induction walk book v stack with
  | case1 v => exact ⟨[], rfl, rfl⟩
  | case2 v g stack flaw hflaw => exact ⟨[], rfl, rfl⟩
  | case3 v stack i hnew hflaw ih =>
    rw [Visited.enter_fst] at hnew
    obtain ⟨added, hnames, hevents⟩ := ih
    refine ⟨(book.rule i).name :: added, ?_, congrArg (List.cons _) hevents⟩
    rw [Visited.names_enter hnew] at hnames
    simpa [CheckReport.after] using hnames
  | case4 v stack i hentered hflaw ih => exact ih
  | case5 v stack g hrule hflaw ih => exact ih

/-- No rule that was entered is forgotten by a check. -/
theorem names_subset_walk (v : Visited) (stack : List (Grammar ι κ)) :
    v.names ⊆ (book.walk v stack).visited.names := by
  obtain ⟨added, hnames, -⟩ := walk_added book v stack
  rw [hnames]
  exact List.subset_append_right _ _

/-! ## The same way once more -/

/-- Where all nodes of a walk are well formed, the check goes on with what follows. -/
theorem Walked.walk_past (h : book.Walked v gs met v') (hmet : ∀ k ∈ met, k.WellFormed)
    (stack : List (Grammar ι κ)) :
    (book.walk v (gs ++ stack)).ending = (book.walk v' stack).ending ∧
      (book.walk v (gs ++ stack)).visited = (book.walk v' stack).visited :=
  walk_append_of_forall h (fun k hk => Grammar.flaw?_eq_none_iff.2 (hmet k hk)) stack

/-- Where all nodes of a walk are well formed, a check that has entered the rules of that walk goes
    on with what follows, and enters nothing on the way. -/
theorem Walked.walk_again (h : book.Walked v gs met v') (hmet : ∀ k ∈ met, k.WellFormed)
    {later : Visited} (hlater : v'.names ⊆ later.names) (stack : List (Grammar ι κ)) :
    book.walk later (gs ++ stack) = book.walk later stack := by
  -- induction on the walk of the first check, through what is inside a node and what follows it
  induction h generalizing stack with
  | nil => rfl
  | @node _ _ _ g gs _ _ hrule _ hafter ih₁ ih₂ =>
    simp only [List.mem_cons, List.mem_append, forall_eq_or_imp] at hmet
    obtain ⟨hg, hmet⟩ := hmet
    have hinside := ih₁ (fun k hk => hmet k (.inl hk))
      (List.Subset.trans hafter.names_subset hlater) (gs ++ stack)
    rw [List.cons_append, walk_node (Grammar.flaw?_eq_none_iff.2 hg) hrule, hinside]
    exact ih₂ (fun k hk => hmet k (.inr hk)) hlater stack
  | @enter v _ _ i gs _ _ _ hinside hafter _ ih₂ =>
    simp only [List.mem_cons, List.mem_append, forall_eq_or_imp] at hmet
    -- the rule was entered then, so its body is not gone into now
    have hentered := (Visited.mem_names_enter v (book.rule i).name _).2 (.inl rfl)
    have hname := hlater (hafter.names_subset (hinside.names_subset hentered))
    rw [List.cons_append, walk_skip hname]
    exact ih₂ (fun k hk => hmet.2 k (.inr hk)) hlater stack
  | skip hold hafter ih =>
    rw [List.cons_append, walk_skip (hlater (hafter.names_subset hold))]
    exact ih (fun k hk => hmet k (List.mem_cons_of_mem _ hk)) hlater stack

/-! ## Where a check stops -/

/-- `book.StopsAt v gs inside k`: going through the grammars `gs` from left to right, with the rules
    `v` entered before, the first malformed node that is met is `k`, and it stands in the bodies of
    the rules `inside`, which are entered on the way to it, the outermost first. -/
inductive StopsAt (book : Rulebook ι κ) :
    Visited → List (Grammar ι κ) → List ι → Grammar ι κ → Prop
  /-- The first node is malformed itself. -/
  | here {v : Visited} {g : Grammar ι κ} {gs : List (Grammar ι κ)} :
      ¬ g.WellFormed → StopsAt book v (g :: gs) [] g
  /-- The check stops in the children of the first node. -/
  | child {v : Visited} {g k : Grammar ι κ} {gs : List (Grammar ι κ)} {inside : List ι} :
      g.WellFormed → (∀ i, g ≠ .rule i) → StopsAt book v g.children inside k →
      StopsAt book v (g :: gs) inside k
  /-- The first node is a rule, which is entered, and the check stops in its body. -/
  | body {v : Visited} {i : ι} {k : Grammar ι κ} {gs : List (Grammar ι κ)} {inside : List ι} :
      (book.rule i).name ∉ v.names →
      StopsAt book (v.enter (book.rule i).name).2 [(book.rule i).body] inside k →
      StopsAt book v (.rule i :: gs) (i :: inside) k
  /-- The check comes past the first node and stops behind it. -/
  | after {v v' : Visited} {g k : Grammar ι κ} {gs met : List (Grammar ι κ)} {inside : List ι} :
      book.Walked v [g] met v' → (∀ h ∈ met, h.WellFormed) → StopsAt book v' gs inside k →
      StopsAt book v (g :: gs) inside k

variable {inside : List ι} {k : Grammar ι κ} {flaw : GrammarFlaw}

/-- If not all nodes of a walk are well formed, the check stops somewhere. -/
theorem Walked.exists_stopsAt (h : book.Walked v gs met v') (hmet : ¬ ∀ k ∈ met, k.WellFormed) :
    ∃ inside k, book.StopsAt v gs inside k := by
  -- what is malformed is the first node, or it is met inside it, or else behind it
  induction h with
  | nil => simp at hmet
  | @node _ _ _ g _ inside _ hrule hinside _ ih₁ ih₂ =>
    by_cases hg : g.WellFormed
    · by_cases hwell : ∀ k ∈ inside, k.WellFormed
      · obtain ⟨path, k, hstop⟩ := ih₂ fun hafter => hmet (by grind)
        exact ⟨path, k, .after (.node hrule hinside (.nil _)) (by grind) hstop⟩
      · obtain ⟨path, k, hstop⟩ := ih₁ hwell
        exact ⟨path, k, .child hg hrule hstop⟩
    · exact ⟨[], g, .here hg⟩
  | @enter _ _ _ i _ inside _ hnew hinside _ ih₁ ih₂ =>
    have hrule : (Grammar.rule i : Grammar ι κ).WellFormed := trivial
    by_cases hwell : ∀ k ∈ inside, k.WellFormed
    · obtain ⟨path, k, hstop⟩ := ih₂ fun hafter => hmet (by grind)
      exact ⟨path, k, .after (.enter hnew hinside (.nil _)) (by grind) hstop⟩
    · obtain ⟨path, k, hstop⟩ := ih₁ hwell
      exact ⟨i :: path, k, .body hnew hstop⟩
  | skip hold _ ih =>
    obtain ⟨inside, k, hstop⟩ := ih (by simpa [Grammar.WellFormed] using hmet)
    exact ⟨inside, k, .after (.skip hold (.nil _)) (by simp [Grammar.WellFormed]) hstop⟩

namespace StopsAt

/-- There is a flaw where a check stops. -/
theorem exists_flaw (h : book.StopsAt v gs inside k) : ∃ flaw, k.flaw? = some flaw := by
  induction h with
  | here hg => exact Option.ne_none_iff_exists'.1 (mt Grammar.flaw?_eq_none_iff.1 hg)
  | child _ _ _ ih => exact ih
  | body _ _ ih => exact ih
  | after _ _ _ ih => exact ih

/-- The check answers with the flaw of the node where it stops. -/
theorem ending_walk (h : book.StopsAt v gs inside k) (hk : k.flaw? = some flaw)
    (stack : List (Grammar ι κ)) : (book.walk v (gs ++ stack)).ending = .error flaw := by
  -- what stands behind the place where the check stops is never looked at
  induction h generalizing stack with
  | here => rw [List.cons_append, walk_flawed hk]
  | @child _ g _ gs _ hg hrule _ ih =>
    rw [List.cons_append, walk_node (Grammar.flaw?_eq_none_iff.2 hg) hrule]
    exact ih hk (gs ++ stack)
  | @body _ _ _ gs _ hnew _ ih =>
    rw [List.cons_append, walk_enter hnew]
    exact ih hk (gs ++ stack)
  | @after _ _ g _ gs _ _ hwalk hmet _ ih =>
    exact (hwalk.walk_past hmet (gs ++ stack)).1.trans (ih hk stack)

/-- A check does not stop where all nodes of its walk are well formed. -/
theorem not_walked (h : book.StopsAt v gs inside k) (hwalk : book.Walked v gs met v')
    (hmet : ∀ h ∈ met, h.WellFormed) : False := by
  obtain ⟨flaw, hflaw⟩ := h.exists_flaw
  have herror := h.ending_walk hflaw []
  rw [(hwalk.walk_past hmet []).1, walk_nil] at herror
  cases herror

/-- There is at most one place where a check stops. -/
theorem unique (h : book.StopsAt v gs inside k) :
    ∀ {inside₂ : List ι} {k₂ : Grammar ι κ}, book.StopsAt v gs inside₂ k₂ →
      inside₂ = inside ∧ k₂ = k := by
  -- a check that stops in a node does not come past it
  induction h with
  | here hg =>
    intro inside₂ k₂ h₂
    cases h₂ with
    | here => exact ⟨rfl, rfl⟩
    | child hg₂ => exact absurd hg₂ hg
    | body => exact absurd trivial hg
    | after hwalk hmet => exact absurd (hmet _ (hwalk.subset_met List.mem_cons_self)) hg
  | child hg hrule hstop ih =>
    intro inside₂ k₂ h₂
    cases h₂ with
    | here hg₂ => exact absurd hg hg₂
    | child _ _ hstop₂ => exact ih hstop₂
    | body => exact absurd rfl (hrule _)
    | after hwalk hmet => exact (not_walked (.child hg hrule hstop) hwalk hmet).elim
  | body hnew hstop ih =>
    intro inside₂ k₂ h₂
    cases h₂ with
    | here hg₂ => exact absurd trivial hg₂
    | child _ hrule => exact absurd rfl (hrule _)
    | body _ hstop₂ =>
      obtain ⟨rfl, rfl⟩ := ih hstop₂
      exact ⟨rfl, rfl⟩
    | after hwalk hmet => exact (not_walked (.body hnew hstop) hwalk hmet).elim
  | after hwalk hmet _ ih =>
    intro inside₂ k₂ h₂
    cases h₂ with
    | here hg₂ => exact absurd (hmet _ (hwalk.subset_met List.mem_cons_self)) hg₂
    | child hg hrule hstop₂ => exact (not_walked (.child hg hrule hstop₂) hwalk hmet).elim
    | body hnew hstop₂ => exact (not_walked (.body hnew hstop₂) hwalk hmet).elim
    | after hwalk₂ _ hstop₂ =>
      obtain ⟨-, rfl⟩ := hwalk.deterministic hwalk₂
      exact ih hstop₂

/-- A check that has stopped outside the bodies of all rules it entered stops there once more, and
    enters nothing on the way. -/
theorem walk_again (h : book.StopsAt v gs [] k) (hk : k.flaw? = some flaw)
    (stack : List (Grammar ι κ)) {later : Visited}
    (hlater : (book.walk v (gs ++ stack)).visited.names ⊆ later.names) :
    book.walk later (gs ++ stack) = ⟨.error flaw, later, [flaw.event]⟩ := by
  -- that no body is entered on the way rules out the case of a rule
  generalize hinside : ([] : List ι) = inside at h
  induction h generalizing stack with
  | here => rw [List.cons_append, walk_flawed hk]
  | @child _ g _ gs _ hg hrule _ ih =>
    have hflaw := Grammar.flaw?_eq_none_iff.2 hg
    rw [List.cons_append, walk_node hflaw hrule] at hlater ⊢
    exact ih hk (gs ++ stack) hlater hinside
  | body => cases hinside
  | @after _ _ g _ gs _ _ hwalk hmet _ ih =>
    rw [← List.singleton_append, List.append_assoc] at hlater ⊢
    rw [(hwalk.walk_past hmet (gs ++ stack)).2] at hlater
    -- by the end of the first check, the rules of this part had been entered
    have hmore := List.Subset.trans (names_subset_walk _ _) hlater
    rw [hwalk.walk_again hmet hmore]
    exact ih hk stack hlater hinside

end StopsAt

/-- What it is to check a grammar a second time, with the rules entered that the first check
    entered. Some rules may have been entered before the first one.

    - A check only adds names, all of them new, each of which it records once, and after them the
      flaw if there is one.
    - If the first check succeeds, so does the second, which enters and records nothing.
    - If the first one fails, it does so at one node. If that is not in the body of a rule that it
      entered, the second check fails with the same flaw and enters nothing.
    - In any case the second check answers and records what a check answers and records that has not
      entered anything, of the grammar and the rules in which each reference to a rule entered by
      the end of the first check is replaced by a leaf. -/
theorem check_again (book : Rulebook ι κ) (v : Visited) (g leaf : Grammar ι κ)
    (hleaf : leaf.IsFreeLeaf) :
    (∃ added : List String, added.Nodup ∧ (∀ name ∈ added, name ∉ v.names) ∧
        (book.check v g).visited.names = added.reverse ++ v.names ∧
        (book.check v g).events =
          added.map .checked ++ closingEvents (book.check v g).ending) ∧
      ((book.check v g).ending = .ok () →
        book.check (book.check v g).visited g = ⟨.ok (), (book.check v g).visited, []⟩) ∧
      (∀ flaw, (book.check v g).ending = .error flaw →
        ∃ inside k, book.StopsAt v [g] inside k ∧ k.flaw? = some flaw ∧
          (∀ inside' k', book.StopsAt v [g] inside' k' → inside' = inside ∧ k' = k) ∧
          (inside = [] → book.check (book.check v g).visited g =
            ⟨.error flaw, (book.check v g).visited, [flaw.event]⟩)) ∧
      (book.check (book.check v g).visited g).AlikeAfter (book.check v g).visited
        ((book.cutRules (book.check v g).visited leaf).check Visited.empty
          (book.cut (book.check v g).visited leaf g)) := by
  -- the walk that a check takes, with all the nodes it would meet if none had a flaw
  obtain ⟨met, v', hwalk⟩ := Walked.exists_of_stack book v [g]
  have hok_iff : (book.check v g).ending = .ok () ↔ ∀ k ∈ met, k.WellFormed := by
    simp only [hwalk.check_eq_ok_iff, Grammar.flaw?_eq_none_iff]
  refine ⟨?_, fun hok => ?_, fun flaw herror => ?_, ?_⟩
  · obtain ⟨added, hnames, hevents⟩ := walk_added book v [g]
    obtain ⟨hnodup, hnew⟩ := Visited.nodup_of_names_eq hnames
    exact ⟨added, hnodup, hnew, hnames, hevents⟩
  · rw [hwalk.visited_check hok]
    exact (hwalk.walk_again (hok_iff.1 hok) (List.Subset.refl _) []).trans walk_nil
  · have hmet : ¬ ∀ k ∈ met, k.WellFormed := by
      rw [← hok_iff, herror]
      exact nofun
    obtain ⟨inside, k, hstop⟩ := hwalk.exists_stopsAt hmet
    obtain ⟨flaw', hk⟩ := hstop.exists_flaw
    -- the flaw that is reported is the one of the node where the check stops
    obtain rfl : flaw' = flaw :=
      Except.error.inj ((hstop.ending_walk hk []).symm.trans herror)
    refine ⟨inside, k, hstop, hk, fun _ _ => hstop.unique, ?_⟩
    rintro rfl
    exact hstop.walk_again hk [] (List.Subset.refl _)
  · exact walk_cut hleaf _ _ Visited.empty [g] rfl

/-- One rule, with an empty range for its body. -/
def backwards : Rulebook (Fin 1) Unit := .ofList [⟨"Backwards", .range 'z' 'a', id⟩] rfl

/-- A rule whose body is malformed is not looked at a second time, so that the second check finds
    nothing wrong. -/
theorem check_again_backwards :
    (Grammar.endOfInput : Grammar (Fin 1) Unit).IsFreeLeaf ∧
      (backwards.check Visited.empty (.many (.rule 0))).ending =
        .error (.emptyRange 'z' 'a') ∧
      (backwards.check (backwards.check Visited.empty (.many (.rule 0))).visited
        (.many (.rule 0))).ending = .ok () := by
  have hleaf : (Grammar.endOfInput : Grammar (Fin 1) Unit).IsFreeLeaf := trivial
  obtain ⟨-, -, -, hagain⟩ := check_again backwards Visited.empty (.many (.rule 0)) _ hleaf
  refine ⟨hleaf, by cbv, hagain.ending.trans ?_⟩
  cbv

end Rulebook

end ParserKit
