import Mathlib
import ParserKit.Proofs.DuplicateAlternatives
import ParserKit.Proofs.GrammarInduction
import ParserKit.Sample.Brackets

/-!
# Checking finds every flaw that can be reached

`Rulebook.check` keeps a stack of grammars still to look at. Here the same walk is described as a
recursion: `Rulebook.Walked` says which nodes a depth-first walk from left to right meets, in which
order, when it goes into a rule only if its name is not entered yet. The check answers with the
first flaw among those nodes (`walk_append_of_flaw`), and although a rule that is still being looked
at is skipped as well, the nodes that are met are exactly those that can be reached
(`Walked.mem_iff_reaches`): the met nodes are closed under children, and under the bodies of all
rules entered by the end of the walk.

## Key results

- `Walked.exists_of_stack` / `Walked.deterministic`: there is exactly one such walk
- `walk_append_of_forall` / `walk_append_of_flaw`: the check goes on where nothing is wrong with
  the walk, and answers with its first flaw
- `Walked.mem_iff_reaches`: it meets exactly what can be reached
- `count_checked_walk`: a rule is entered once or never

Together they make the check sound, complete and exact, which is stated last.
-/

namespace ParserKit

variable {ι κ : Type}

/-! ## Well-formed nodes -/

/-- Nothing is wrong with the node itself: its bounds are in order, its alternatives distinct. -/
def Grammar.WellFormed : Grammar ι κ → Prop
  | .range lo hi => lo ≤ hi
  | .oneOf _ types _ => types.Nodup
  | _ => True

/-- The flaw says what is wrong with the node: the bounds of an empty range, or two positions of a
    tagged choice and the type that stands at both. -/
inductive GrammarFlaw.Describes : GrammarFlaw → Grammar ι κ → Prop
  | emptyRange {lo hi : Char} : hi < lo → Describes (.emptyRange lo hi) (.range lo hi)
  | duplicate {form : Form} {types : List String} {branches : List (Grammar ι κ)}
      {d : Duplicate} :
      d.first < d.second → types[d.first]? = some d.typeName →
      types[d.second]? = some d.typeName →
      Describes (.duplicateAlternative d) (.oneOf form types branches)

namespace Grammar

/-- The check finds nothing wrong with a node exactly if it is well formed. -/
theorem flaw?_eq_none_iff {g : Grammar ι κ} : g.flaw? = none ↔ g.WellFormed := by
  cases g with
  | range lo hi =>
    simp only [flaw?, WellFormed, ite_eq_right_iff, reduceCtorEq, imp_false]
    exact Char.not_lt
  | oneOf form types branches =>
    simp only [flaw?, WellFormed, ← Alternatives.distinct_eq_ok_iff]
    split <;> simp_all
  | _ => simp [flaw?, WellFormed]

/-- What the check finds wrong with a node is wrong with it, and described as it is. -/
theorem describes_of_flaw? {g : Grammar ι κ} {flaw : GrammarFlaw} (h : g.flaw? = some flaw) :
    flaw.Describes g := by
  -- two kinds of nodes can be flawed, and the test of each says what it found
  cases g with
  | range lo hi =>
    simp only [flaw?, Option.ite_none_right_eq_some, Option.some.injEq] at h
    obtain ⟨hlt, rfl⟩ := h
    exact .emptyRange hlt
  | oneOf form types branches =>
    simp only [flaw?] at h
    split at h
    · cases h
    · rename_i d hd
      cases h
      obtain ⟨hlt, hfirst, hsecond⟩ := Alternatives.distinct_eq_error hd
      exact .duplicate hlt hfirst hsecond
  | _ => simp [flaw?] at h

end Grammar

namespace Rulebook

/-- Rules of the same name are the same: a grammar is entered by its name. -/
def NamesIdentify (book : Rulebook ι κ) : Prop :=
  ∀ i j, (book.rule i).name = (book.rule j).name → (book.rule i).body = (book.rule j).body

/-! ## The walk as a recursion -/

/-- `book.Walked v gs met v'`: walking the grammars `gs` from left to right, each before what is in
    it and that before the next, with the rules `v` entered before, meets the nodes `met` in this
    order and has then entered `v'`. A rule is gone into when its name is new, and only then. -/
inductive Walked (book : Rulebook ι κ) :
    Visited → List (Grammar ι κ) → List (Grammar ι κ) → Visited → Prop
  | nil (v : Visited) : Walked book v [] [] v
  | node {v v' v'' : Visited} {g : Grammar ι κ} {gs inside after : List (Grammar ι κ)} :
      (∀ i, g ≠ .rule i) → Walked book v g.children inside v' → Walked book v' gs after v'' →
      Walked book v (g :: gs) (g :: (inside ++ after)) v''
  | enter {v v' v'' : Visited} {i : ι} {gs inside after : List (Grammar ι κ)} :
      (book.rule i).name ∉ v.names →
      Walked book (v.enter (book.rule i).name).2 [(book.rule i).body] inside v' →
      Walked book v' gs after v'' →
      Walked book v (.rule i :: gs) (.rule i :: (inside ++ after)) v''
  | skip {v v' : Visited} {i : ι} {gs after : List (Grammar ι κ)} :
      (book.rule i).name ∈ v.names → Walked book v gs after v' →
      Walked book v (.rule i :: gs) (.rule i :: after) v'

namespace Walked

variable {book : Rulebook ι κ} {v v' : Visited} {gs met : List (Grammar ι κ)}

/-- A walk only ever enters rules. -/
theorem names_subset (h : book.Walked v gs met v') : v.names ⊆ v'.names := by
  induction h with
  | nil => exact List.Subset.refl _
  | node _ _ _ ih₁ ih₂ => exact List.Subset.trans ih₁ ih₂
  | enter _ _ _ ih₁ ih₂ =>
    intro name hname
    exact ih₂ (ih₁ ((Visited.mem_names_enter _ _ _).2 (.inr hname)))
  | skip _ _ ih => exact ih

/-- There is at most one walk. -/
theorem deterministic (h : book.Walked v gs met v') :
    ∀ {met₂ : List (Grammar ι κ)} {v₂ : Visited}, book.Walked v gs met₂ v₂ →
      met₂ = met ∧ v₂ = v' := by
  -- the node in front decides which step both walks take
  induction h with
  | nil =>
    intro met₂ v₂ h₂
    cases h₂
    exact ⟨rfl, rfl⟩
  | node hg _ _ ih₁ ih₂ =>
    intro met₂ v₂ h₂
    cases h₂ with
    | node _ hinside hafter =>
      obtain ⟨rfl, rfl⟩ := ih₁ hinside
      obtain ⟨rfl, rfl⟩ := ih₂ hafter
      exact ⟨rfl, rfl⟩
    | enter => exact absurd rfl (hg _)
    | skip => exact absurd rfl (hg _)
  | enter hnew _ _ ih₁ ih₂ =>
    intro met₂ v₂ h₂
    cases h₂ with
    | node hg => exact absurd rfl (hg _)
    | enter _ hinside hafter =>
      obtain ⟨rfl, rfl⟩ := ih₁ hinside
      obtain ⟨rfl, rfl⟩ := ih₂ hafter
      exact ⟨rfl, rfl⟩
    | skip hold => exact absurd hold hnew
  | skip hold _ ih =>
    intro met₂ v₂ h₂
    cases h₂ with
    | node hg => exact absurd rfl (hg _)
    | enter hnew => exact absurd hold hnew
    | skip _ hafter =>
      obtain ⟨rfl, rfl⟩ := ih hafter
      exact ⟨rfl, rfl⟩

/-- With more rules entered there are not more left. -/
private theorem length_unvisited_le (h : v.names ⊆ v'.names) :
    (book.unvisited v').length ≤ (book.unvisited v).length := by
  refine List.Sublist.length_le ?_
  refine List.monotone_filter_right book.keys fun i hi => ?_
  simp only [decide_eq_true_eq] at hi ⊢
  exact fun hmem => hi (h hmem)

/-- From everywhere there is a walk. -/
theorem exists_of_stack (book : Rulebook ι κ) (v : Visited) (gs : List (Grammar ι κ)) :
    ∃ met v', book.Walked v gs met v' := by
  -- going in leaves less to look at, and so does going on, whatever was entered in between
  induction hn : book.work v gs using Nat.strongRecOn generalizing v gs with
  | ind n ih =>
    cases gs with
    | nil => exact ⟨[], v, .nil v⟩
    | cons g gs =>
      -- behind the first node there is less to look at, whatever has been entered meanwhile
      have hon : ∀ {v' : Visited}, v.names ⊆ v'.names → book.work v' gs < n := by
        intro v' hsub
        have hle : (book.unvisited v').length ≤ (book.unvisited v).length :=
          length_unvisited_le hsub
        have hmul := Nat.mul_le_mul_right book.size hle
        have hpos := g.nodes_pos
        simp only [work, Grammar.nodesOf] at hn ⊢
        omega
      by_cases hrule : ∃ i, g = .rule i
      · obtain ⟨i, rfl⟩ := hrule
        -- a rule is entered unless its name is known; a known one is skipped
        by_cases hname : (book.rule i).name ∈ v.names
        · obtain ⟨after, v', hafter⟩ := ih _ (hon (List.Subset.refl _)) v gs rfl
          exact ⟨_, _, .skip hname hafter⟩
        · have hin := book.work_enter_lt ((Visited.enter_fst v _).2 hname) gs
          have hle : book.work (v.enter (book.rule i).name).2 [(book.rule i).body] ≤
              book.work (v.enter (book.rule i).name).2 ((book.rule i).body :: gs) := by
            simp only [work, Grammar.nodesOf]
            omega
          obtain ⟨inside, v', hinside⟩ :=
            ih _ (by omega) (v.enter (book.rule i).name).2 [(book.rule i).body] rfl
          have hsub : v.names ⊆ v'.names := fun name hmem =>
            hinside.names_subset ((Visited.mem_names_enter _ _ _).2 (.inr hmem))
          obtain ⟨after, v'', hafter⟩ := ih _ (hon hsub) v' gs rfl
          exact ⟨_, _, .enter hname hinside hafter⟩
      -- any other node is followed by its children
      · have hin := book.work_children_lt v g gs
        have hle : book.work v g.children ≤ book.work v (g.children ++ gs) := by
          simp only [work, Grammar.nodesOf_append]
          omega
        obtain ⟨inside, v', hinside⟩ := ih _ (by omega) v g.children rfl
        obtain ⟨after, v'', hafter⟩ := ih _ (hon hinside.names_subset) v' gs rfl
        exact ⟨_, _, .node (not_exists.1 hrule) hinside hafter⟩

/-! ## What a walk meets -/

/-- Everything that is met can be reached from where the walk began. -/
theorem exists_reaches (h : book.Walked v gs met v') {k : Grammar ι κ} (hk : k ∈ met) :
    ∃ g ∈ gs, book.Reaches g k := by
  -- a node on top is met itself; what is met inside is reached from it, and what is met after from
  -- one of the others
  induction h with
  | nil => cases hk
  | node _ _ _ ih₁ ih₂ =>
    rcases List.mem_cons.1 hk with rfl | hk
    · exact ⟨k, List.mem_cons_self, .refl k⟩
    · rcases List.mem_append.1 hk with hk | hk
      · obtain ⟨h, hmem, hreach⟩ := ih₁ hk
        exact ⟨_, List.mem_cons_self, .child hmem hreach⟩
      · obtain ⟨h, hmem, hreach⟩ := ih₂ hk
        exact ⟨h, List.mem_cons_of_mem _ hmem, hreach⟩
  | enter _ _ _ ih₁ ih₂ =>
    rcases List.mem_cons.1 hk with rfl | hk
    · exact ⟨_, List.mem_cons_self, .refl _⟩
    · rcases List.mem_append.1 hk with hk | hk
      · obtain ⟨h, hmem, hreach⟩ := ih₁ hk
        obtain rfl := List.mem_singleton.1 hmem
        exact ⟨_, List.mem_cons_self, .body hreach⟩
      · obtain ⟨h, hmem, hreach⟩ := ih₂ hk
        exact ⟨h, List.mem_cons_of_mem _ hmem, hreach⟩
  | skip _ _ ih =>
    rcases List.mem_cons.1 hk with rfl | hk
    · exact ⟨_, List.mem_cons_self, .refl _⟩
    · obtain ⟨h, hmem, hreach⟩ := ih hk
      exact ⟨h, List.mem_cons_of_mem _ hmem, hreach⟩

/-- The walk meets what it begins with. -/
theorem subset_met (h : book.Walked v gs met v') : gs ⊆ met := by
  induction h with
  | nil => exact List.Subset.refl _
  | node _ _ _ _ ih =>
    exact List.cons_subset_cons _ (List.Subset.trans ih (List.subset_append_right _ _))
  | enter _ _ _ _ ih =>
    exact List.cons_subset_cons _ (List.Subset.trans ih (List.subset_append_right _ _))
  | skip _ _ ih => exact List.cons_subset_cons _ ih

/-- What is met is closed under children. -/
theorem children_mem (h : book.Walked v gs met v') {k c : Grammar ι κ} (hk : k ∈ met)
    (hc : c ∈ k.children) : c ∈ met := by
  -- the children of a node are met right inside of it; a rule has no children
  induction h with
  | nil => cases hk
  | node _ hinside _ ih₁ ih₂ =>
    refine List.mem_cons_of_mem _ (List.mem_append.2 ?_)
    rcases List.mem_cons.1 hk with rfl | hk
    · exact .inl (hinside.subset_met hc)
    · exact (List.mem_append.1 hk).imp ih₁ ih₂
  | enter _ _ _ ih₁ ih₂ =>
    rcases List.mem_cons.1 hk with rfl | hk
    · cases hc
    · refine List.mem_cons_of_mem _ (List.mem_append.2 ?_)
      exact (List.mem_append.1 hk).imp ih₁ ih₂
  | skip _ _ ih =>
    rcases List.mem_cons.1 hk with rfl | hk
    · cases hc
    · exact List.mem_cons_of_mem _ (ih hk)

/-- By the end, every rule that is met has been entered, perhaps before the walk. -/
theorem name_mem_of_rule_mem (h : book.Walked v gs met v') {i : ι} (hi : .rule i ∈ met) :
    (book.rule i).name ∈ v'.names := by
  -- a rule that is skipped has been entered before, perhaps without being left yet; only the end
  -- of the whole walk makes the statement true
  induction h with
  | nil => cases hi
  | node hg _ hafter ih₁ ih₂ =>
    rcases List.mem_cons.1 hi with heq | hi
    · exact absurd heq.symm (hg i)
    · rcases List.mem_append.1 hi with hi | hi
      · exact hafter.names_subset (ih₁ hi)
      · exact ih₂ hi
  | enter _ hinside hafter ih₁ ih₂ =>
    rcases List.mem_cons.1 hi with heq | hi
    · cases heq
      refine hafter.names_subset (hinside.names_subset ?_)
      exact (Visited.mem_names_enter _ _ _).2 (.inl rfl)
    · rcases List.mem_append.1 hi with hi | hi
      · exact hafter.names_subset (ih₁ hi)
      · exact ih₂ hi
  | skip hold hafter ih =>
    rcases List.mem_cons.1 hi with heq | hi
    · cases heq
      exact hafter.names_subset hold
    · exact ih hi

/-- A name that was entered on the way is that of a rule that is met together with its body. -/
theorem rule_mem_of_name_mem (h : book.Walked v gs met v') {name : String}
    (hname : name ∈ v'.names) :
    name ∈ v.names ∨
      ∃ i, (book.rule i).name = name ∧ .rule i ∈ met ∧ (book.rule i).body ∈ met := by
  -- what is met inside or after a node is met by the walk of the node and what follows
  have weaken : ∀ {small : List (Grammar ι κ)} {g : Grammar ι κ} {inside after},
      (small = inside ∨ small = after) →
      (∃ i, (book.rule i).name = name ∧ .rule i ∈ small ∧ (book.rule i).body ∈ small) →
      ∃ i, (book.rule i).name = name ∧ .rule i ∈ g :: (inside ++ after) ∧
        (book.rule i).body ∈ g :: (inside ++ after) := by
    rintro small g inside after hsmall ⟨i, hi, hrule, hbody⟩
    refine ⟨i, hi, ?_, ?_⟩ <;> rcases hsmall with rfl | rfl <;> simp [hrule, hbody]
  induction h with
  | nil => exact .inl hname
  | node _ _ _ ih₁ ih₂ =>
    rcases ih₂ hname with hname | hfound
    · exact (ih₁ hname).imp_right (weaken (.inl rfl))
    · exact .inr (weaken (.inr rfl) hfound)
  | @enter v _ _ i gs inside after hnew hinside _ ih₁ ih₂ =>
    rcases ih₂ hname with hname | hfound
    · rcases ih₁ hname with hname | hfound
      · rcases (Visited.mem_names_enter _ _ _).1 hname with rfl | hname
        · have hbody := hinside.subset_met List.mem_cons_self
          exact .inr ⟨i, rfl, by simp, by simp [hbody]⟩
        · exact .inl hname
      · exact .inr (weaken (.inl rfl) hfound)
    · exact .inr (weaken (.inr rfl) hfound)
  | skip _ _ ih =>
    refine (ih hname).imp_right ?_
    rintro ⟨i, hi, hrule, hbody⟩
    exact ⟨i, hi, List.mem_cons_of_mem _ hrule, List.mem_cons_of_mem _ hbody⟩

/-- When the names identify the rules, a walk from nothing entered meets what can be reached. -/
theorem mem_iff_reaches {g : Grammar ι κ}
    (hnames : book.NamesIdentify)
    (h : book.Walked Visited.empty [g] met v') (k : Grammar ι κ) :
    k ∈ met ↔ book.Reaches g k := by
  constructor
  · intro hk
    obtain ⟨g', hg', hreach⟩ := h.exists_reaches hk
    obtain rfl := List.mem_singleton.1 hg'
    exact hreach
  · intro hreach
    -- the met nodes are closed under each step down
    have hclosed : ∀ {a b : Grammar ι κ}, book.Reaches a b → a ∈ met → b ∈ met := by
      intro a b hab
      induction hab with
      | refl => exact id
      | child hmem _ ih => exact fun ha => ih (h.children_mem ha hmem)
      | @body i _ _ ih =>
        intro ha
        rcases h.rule_mem_of_name_mem (h.name_mem_of_rule_mem ha) with hnone | hsome
        · cases hnone
        · obtain ⟨j, hj, -, hbody⟩ := hsome
          exact ih (hnames j i hj ▸ hbody)
    exact hclosed hreach (h.subset_met List.mem_cons_self)

end Walked

/-! ## The check follows the walk -/

section Walk

variable {book : Rulebook ι κ} {v v' : Visited} {gs met : List (Grammar ι κ)}

/-- The equations of the check, by what is on top of the stack: nothing is left to look at. -/
theorem walk_nil : book.walk v [] = ⟨.ok (), v, []⟩ := by
  rw [walk]

/-- A node with a flaw ends the check. -/
theorem walk_flawed {g : Grammar ι κ} {flaw : GrammarFlaw} (h : g.flaw? = some flaw)
    (stack : List (Grammar ι κ)) :
    book.walk v (g :: stack) = ⟨.error flaw, v, [flaw.event]⟩ := by
  rw [walk.eq_def]
  simp only [h]

/-- A node without a flaw makes room for its children. -/
theorem walk_node {g : Grammar ι κ} (hflaw : g.flaw? = none) (hrule : ∀ i, g ≠ .rule i)
    (stack : List (Grammar ι κ)) :
    book.walk v (g :: stack) = book.walk v (g.children ++ stack) := by
  rw [walk.eq_def]
  simp only [hflaw]

/-- A rule that is not entered yet is entered, and makes room for its body. -/
theorem walk_enter {i : ι} (h : (book.rule i).name ∉ v.names) (stack : List (Grammar ι κ)) :
    book.walk v (.rule i :: stack) =
      (book.walk (v.enter (book.rule i).name).2 ((book.rule i).body :: stack)).after
        (.checked (book.rule i).name) := by
  rw [walk.eq_def]
  simp only [Grammar.flaw?, (Visited.enter_fst v _).2 h, if_true]

/-- A rule that was entered before is skipped. -/
theorem walk_skip {i : ι} (h : (book.rule i).name ∈ v.names) (stack : List (Grammar ι κ)) :
    book.walk v (.rule i :: stack) = book.walk v stack := by
  have hold : (v.enter (book.rule i).name).1 = false := by
    rw [Bool.eq_false_iff, ne_eq, Visited.enter_fst]
    exact not_not_intro h
  rw [walk.eq_def]
  simp only [Grammar.flaw?, hold, Bool.false_eq_true, if_false]

/-- Where nothing is wrong with the nodes of a walk, the check goes on with what follows. -/
theorem walk_append_of_forall (h : book.Walked v gs met v') (hmet : ∀ k ∈ met, k.flaw? = none)
    (stack : List (Grammar ι κ)) :
    (book.walk v (gs ++ stack)).ending = (book.walk v' stack).ending ∧
      (book.walk v (gs ++ stack)).visited = (book.walk v' stack).visited := by
  -- what comes after a node is part of the stack while the check is inside it
  induction h generalizing stack with
  | nil => exact ⟨rfl, rfl⟩
  | @node _ _ _ _ gs _ _ hrule _ _ ih₁ ih₂ =>
    simp only [List.mem_cons, List.mem_append, forall_eq_or_imp] at hmet
    obtain ⟨hg, hmet⟩ := hmet
    obtain ⟨hend₁, hvis₁⟩ := ih₁ (fun k hk => hmet k (.inl hk)) (gs ++ stack)
    obtain ⟨hend₂, hvis₂⟩ := ih₂ (fun k hk => hmet k (.inr hk)) stack
    rw [List.cons_append, walk_node hg hrule]
    exact ⟨hend₁.trans hend₂, hvis₁.trans hvis₂⟩
  | @enter _ _ _ i gs _ _ hnew _ _ ih₁ ih₂ =>
    simp only [List.mem_cons, List.mem_append, forall_eq_or_imp] at hmet
    obtain ⟨hend₁, hvis₁⟩ := ih₁ (fun k hk => hmet.2 k (.inl hk)) (gs ++ stack)
    obtain ⟨hend₂, hvis₂⟩ := ih₂ (fun k hk => hmet.2 k (.inr hk)) stack
    rw [List.cons_append, walk_enter hnew]
    exact ⟨hend₁.trans hend₂, hvis₁.trans hvis₂⟩
  | skip hold _ ih =>
    rw [List.cons_append, walk_skip hold]
    exact ih (fun k hk => hmet k (List.mem_cons_of_mem _ hk)) stack

/-- The first flaw of two lists is that of the first, or nothing is wrong with the first. -/
private theorem firstFlaw_append {inside after : List (Grammar ι κ)} {flaw : GrammarFlaw}
    (h : (inside ++ after).findSome? Grammar.flaw? = some flaw) :
    inside.findSome? Grammar.flaw? = some flaw ∨
      (∀ k ∈ inside, k.flaw? = none) ∧ after.findSome? Grammar.flaw? = some flaw := by
  rw [List.findSome?_append] at h
  cases hinside : inside.findSome? Grammar.flaw? with
  | some flaw' =>
    rw [hinside, Option.some_or] at h
    exact .inl h
  | none =>
    rw [hinside, Option.none_or] at h
    exact .inr ⟨List.findSome?_eq_none_iff.1 hinside, h⟩

/-- The check answers with the first flaw of a walk. -/
theorem walk_append_of_flaw (h : book.Walked v gs met v') {flaw : GrammarFlaw}
    (hmet : met.findSome? Grammar.flaw? = some flaw) (stack : List (Grammar ι κ)) :
    (book.walk v (gs ++ stack)).ending = .error flaw := by
  -- the first flaw is that of the node on top, or the first inside of it, or the first after it
  induction h generalizing stack with
  | nil => cases hmet
  | @node _ _ _ g gs _ _ hrule hinside _ ih₁ ih₂ =>
    rw [List.cons_append]
    rw [List.findSome?_cons] at hmet
    split at hmet
    · next flaw' hg =>
      cases hmet
      rw [walk_flawed hg]
    · next hg =>
      rw [walk_node hg hrule]
      rcases firstFlaw_append hmet with hfirst | ⟨hnone, hfirst⟩
      · exact ih₁ hfirst (gs ++ stack)
      · rw [(walk_append_of_forall hinside hnone _).1]
        exact ih₂ hfirst stack
  | @enter _ _ _ i gs _ _ hnew hinside _ ih₁ ih₂ =>
    rw [List.cons_append, walk_enter hnew]
    show (book.walk _ ([(book.rule i).body] ++ (gs ++ stack))).ending = _
    -- a rule node has no flaw of its own, so the first one is inside or after it
    rcases firstFlaw_append hmet with hfirst | ⟨hnone, hfirst⟩
    · exact ih₁ hfirst (gs ++ stack)
    · rw [(walk_append_of_forall hinside hnone _).1]
      exact ih₂ hfirst stack
  | skip hold _ ih =>
    rw [List.cons_append, walk_skip hold]
    exact ih hmet stack

/-- The check of a rule is recorded once if the rule is entered, and never otherwise. -/
theorem count_checked_walk (v : Visited) (stack : List (Grammar ι κ)) (name : String) :
    (book.walk v stack).events.count (.checked name) + (if name ∈ v.names then 1 else 0) =
      if name ∈ (book.walk v stack).visited.names then 1 else 0 := by
  fun_induction book.walk v stack with
  | case1 => simp
  | case2 v g stack flaw hflaw =>
    cases flaw <;> simp [GrammarFlaw.event]
  | case3 v stack i hnew hflaw ih =>
    -- the one rule entered here is the one that gets a record
    have hnot : (book.rule i).name ∉ v.names := (Visited.enter_fst v _).1 hnew
    generalize book.walk (v.enter (book.rule i).name).2 ((book.rule i).body :: stack) = r at ih ⊢
    show (Event.checked (book.rule i).name :: r.events).count (.checked name) + _ =
      if name ∈ r.visited.names then 1 else 0
    rw [← ih, List.count_cons]
    simp only [beq_iff_eq, Event.checked.injEq, Visited.mem_names_enter]
    by_cases heq : name = (book.rule i).name
    · subst heq
      simp [hnot]
    · simp [heq, Ne.symm heq]
  | case4 v stack i hold hflaw ih => exact ih
  | case5 v stack g hflaw hrule ih => exact ih

/-- The check of `g` succeeds exactly when nothing is wrong with the nodes of its walk, and has then
    entered what the walk enters. -/
theorem Walked.check_eq_ok_iff {g : Grammar ι κ} (h : book.Walked v [g] met v') :
    (book.check v g).ending = .ok () ↔ ∀ k ∈ met, k.flaw? = none := by
  constructor
  -- a flaw on the walk would be the answer of the check
  · intro hok
    rw [← List.findSome?_eq_none_iff]
    cases hmet : met.findSome? Grammar.flaw? with
    | none => rfl
    | some flaw =>
      have herror := walk_append_of_flaw h hmet []
      rw [List.append_nil] at herror
      rw [check, herror] at hok
      cases hok
  · intro hmet
    have hok := (walk_append_of_forall h hmet []).1
    rwa [List.append_nil, walk_nil] at hok

/-- A check that succeeds has entered the rules that the walk enters. -/
theorem Walked.visited_check {g : Grammar ι κ} (h : book.Walked v [g] met v')
    (hok : (book.check v g).ending = .ok ()) : (book.check v g).visited = v' := by
  have hvisited := (walk_append_of_forall h (h.check_eq_ok_iff.1 hok) []).2
  rwa [List.append_nil, walk_nil] at hvisited

/-- The flaw that a check answers with is the first one on the walk. -/
theorem Walked.exists_first_of_check_eq_error {g : Grammar ι κ} (h : book.Walked v [g] met v')
    {flaw : GrammarFlaw} (herror : (book.check v g).ending = .error flaw) :
    ∃ before k after, met = before ++ k :: after ∧ (∀ j ∈ before, j.flaw? = none) ∧
      k.flaw? = some flaw := by
  -- the check answers with the first flaw of the walk, so there is one
  cases hmet : met.findSome? Grammar.flaw? with
  | none =>
    rw [List.findSome?_eq_none_iff, ← h.check_eq_ok_iff, herror] at hmet
    cases hmet
  | some flaw' =>
    have hfirst := walk_append_of_flaw h hmet []
    rw [List.append_nil] at hfirst
    rw [check, hfirst, Except.error.injEq] at herror
    subst herror
    obtain ⟨before, k, after, hsplit, hk, hbefore⟩ := List.findSome?_eq_some_iff.1 hmet
    exact ⟨before, k, after, hsplit, hbefore, hk⟩

end Walk

/-- When the names identify the rules, the check succeeds exactly if every node that can be reached
    is well formed. -/
theorem check_eq_ok_iff {book : Rulebook ι κ} (hnames : book.NamesIdentify) {g : Grammar ι κ} :
    (book.check Visited.empty g).ending = .ok () ↔ ∀ k, book.Reaches g k → k.WellFormed := by
  obtain ⟨met, v, hwalk⟩ := Walked.exists_of_stack book Visited.empty [g]
  rw [hwalk.check_eq_ok_iff]
  simp only [hwalk.mem_iff_reaches hnames, Grammar.flaw?_eq_none_iff]

/-! ## Soundness, completeness, exactness -/

/-- The names of the rules that can be reached from `g`. -/
def reachedNames (book : Rulebook ι κ) (g : Grammar ι κ) : Set String :=
  {name | ∃ i, book.Reaches g (.rule i) ∧ (book.rule i).name = name}

/-- When the names identify the rules, the check of a grammar from nothing entered

    - enters no rule twice,
    - succeeds if and only if every node that can be reached is well formed,
    - has counted, when it succeeds, the distinct rules that can be reached, and
    - describes, when it fails, the first malformed node on the depth-first walk from left to
      right that looks at a node before its children and skips the rules entered before; that
      walk is unique. -/
theorem check_correct (book : Rulebook ι κ) (hnames : book.NamesIdentify) (g : Grammar ι κ) :
    (∀ name, (book.check Visited.empty g).events.count (.checked name) ≤ 1) ∧
      ((book.check Visited.empty g).ending = .ok () ↔ ∀ k, book.Reaches g k → k.WellFormed) ∧
      ((book.check Visited.empty g).ending = .ok () →
        (∀ name, (book.check Visited.empty g).events.count (.checked name) = 1 ↔
          name ∈ book.reachedNames g) ∧
        (book.check Visited.empty g).visited.count = (book.reachedNames g).ncard) ∧
      ∃ met v, book.Walked Visited.empty [g] met v ∧
        (∀ met' v', book.Walked Visited.empty [g] met' v' → met' = met) ∧
        ∀ flaw, (book.check Visited.empty g).ending = .error flaw →
          ∃ before k after, met = before ++ k :: after ∧ (∀ j ∈ before, j.WellFormed) ∧
            flaw.Describes k ∧ book.Reaches g k := by
  -- everything is read off the one walk that there is
  obtain ⟨met, v, hwalk⟩ := Walked.exists_of_stack book Visited.empty [g]
  have hreach := hwalk.mem_iff_reaches hnames
  have hcount : ∀ name, (book.check Visited.empty g).events.count (.checked name) =
      if name ∈ (book.check Visited.empty g).visited.names then 1 else 0 := fun name =>
    count_checked_walk Visited.empty [g] name
  refine ⟨fun name => ?_, check_eq_ok_iff hnames, fun hok => ?_, met, v, hwalk, ?_,
    fun flaw herror => ?_⟩
  -- a rule is recorded once at most, as it is entered or not
  · rw [hcount]
    split <;> omega
  · -- the rules entered by the end of the walk are the reachable ones
    have hmem : ∀ name, name ∈ v.names ↔ name ∈ book.reachedNames g := by
      intro name
      constructor
      · intro hname
        rcases hwalk.rule_mem_of_name_mem hname with hnone | ⟨i, hi, hrule, -⟩
        · cases hnone
        · exact ⟨i, (hreach _).1 hrule, hi⟩
      · rintro ⟨i, hi, rfl⟩
        exact hwalk.name_mem_of_rule_mem ((hreach _).2 hi)
    -- the check has entered what the walk enters
    have hvisited := hwalk.visited_check hok
    refine ⟨fun name => ?_, ?_⟩
    · rw [hcount, hvisited, ← hmem]
      split <;> simp_all
    · have hset : book.reachedNames g = ↑v.names.toFinset := by
        ext name
        simp [hmem]
      rw [hvisited, hset, Set.ncard_coe_finset, List.toFinset_card_of_nodup v.nodup]
      rfl
  · exact fun met' v' hwalk' => (hwalk.deterministic hwalk').1
  -- the nodes before the one that is described have no flaw
  · obtain ⟨before, k, after, rfl, hbefore, hk⟩ := hwalk.exists_first_of_check_eq_error herror
    refine ⟨before, k, after, rfl, ?_, Grammar.describes_of_flaw? hk, ?_⟩
    · exact fun j hj => Grammar.flaw?_eq_none_iff.1 (hbefore j hj)
    · exact (hreach k).1 (by simp)

/-- The rules of the bracket grammar have names of their own. -/
theorem namesIdentify_brackets : Sample.BracketRule.book.NamesIdentify := by
  intro i j hij
  cases i <;> cases j <;>
    first | rfl | simp [Sample.BracketRule.book, Sample.BracketRule.rule] at hij

/-- The rules of the bracket grammar have names of their own, so an empty range after a pair of
    brackets is found, at the end of a walk through all the rules in between. -/
theorem check_correct_brackets :
    ∃ before k after v, Sample.BracketRule.book.Walked Visited.empty
        [.sequence [.rule .paren, .range 'z' 'a']] (before ++ k :: after) v ∧
      (∀ j ∈ before, j.WellFormed) ∧ (GrammarFlaw.emptyRange 'z' 'a').Describes k := by
  obtain ⟨-, -, -, met, v, hwalk, -, hfirst⟩ :=
    check_correct Sample.BracketRule.book namesIdentify_brackets
      (.sequence [.rule .paren, .range 'z' 'a'])
  obtain ⟨before, k, after, rfl, hbefore, hk, -⟩ := hfirst (.emptyRange 'z' 'a') (by cbv)
  exact ⟨before, k, after, v, hwalk, hbefore, hk⟩

end Rulebook

end ParserKit
