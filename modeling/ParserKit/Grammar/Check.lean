import ParserKit.Grammar.Basic

/-!
# Checking grammars

A grammar is well formed when every range in it, and in the rules it can reach, has something in
it, and the alternatives of every tagged choice produce different types. The check walks the
grammar depth first from left to right, looks at a node before its children, and follows a rule
only when its name is entered for the first time; so it ends, though rules refer to each other.
-/

namespace ParserKit

/-- The names of the rules that a check has entered, each once. -/
structure Visited where
  names : List String
  nodup : names.Nodup

namespace Visited

/-- Before any rule is entered. -/
def empty : Visited := ⟨[], List.nodup_nil⟩

/-- Enters a name: whether it is new, and the names with it. -/
def enter (v : Visited) (name : String) : Bool × Visited :=
  if h : name ∈ v.names then (false, v)
  else (true, ⟨name :: v.names, List.nodup_cons.2 ⟨h, v.nodup⟩⟩)

/-- How many rules have been entered. -/
def count (v : Visited) : Nat := v.names.length

theorem mem_names_enter (v : Visited) (name other : String) :
    other ∈ (v.enter name).2.names ↔ other = name ∨ other ∈ v.names := by
  unfold enter
  split <;> simp_all

theorem enter_fst (v : Visited) (name : String) : (v.enter name).1 = true ↔ name ∉ v.names := by
  unfold enter
  split <;> simp_all

end Visited

namespace Grammar

variable {ι κ : Type}

/-- The grammars directly inside this one. -/
def children : Grammar ι κ → List (Grammar ι κ)
  | sequence items => items
  | either branches => branches
  | oneOf _ _ branches => branches
  | many item => [item]
  | map _ inner => [inner]
  | watch _ inner => [inner]
  | _ => []

mutual

/-- The number of nodes. -/
def nodes : Grammar ι κ → Nat
  | sequence items => nodesOf items + 1
  | either branches => nodesOf branches + 1
  | oneOf _ _ branches => nodesOf branches + 1
  | many item => item.nodes + 1
  | map _ inner => inner.nodes + 1
  | watch _ inner => inner.nodes + 1
  | endOfInput => 1
  | symbol _ => 1
  | range _ _ => 1
  | word _ => 1
  | rule _ => 1
  | custom _ => 1

/-- The number of nodes of all the grammars together. -/
def nodesOf : List (Grammar ι κ) → Nat
  | [] => 0
  | g :: gs => g.nodes + nodesOf gs

end

theorem nodesOf_append (gs hs : List (Grammar ι κ)) :
    nodesOf (gs ++ hs) = nodesOf gs + nodesOf hs := by
  induction gs with
  | nil => simp [nodesOf]
  | cons g gs ih => simp only [List.cons_append, nodesOf, ih]; omega

theorem nodes_le_nodesOf {g : Grammar ι κ} {gs : List (Grammar ι κ)} (h : g ∈ gs) :
    g.nodes ≤ nodesOf gs := by
  induction gs with
  | nil => cases h
  | cons k ks ih =>
    simp only [nodesOf]
    rcases List.mem_cons.1 h with rfl | h
    · omega
    · have := ih h
      omega

/-- A node has more nodes than its children together. -/
theorem nodesOf_children_lt (g : Grammar ι κ) : nodesOf g.children < g.nodes := by
  cases g <;> simp [children, nodes, nodesOf]

theorem nodes_pos (g : Grammar ι κ) : 0 < g.nodes :=
  Nat.lt_of_le_of_lt (Nat.zero_le _) (nodesOf_children_lt g)

/-- What is wrong with the node itself. -/
def flaw? : Grammar ι κ → Option GrammarFlaw
  | range lo hi => if hi < lo then some (.emptyRange lo hi) else none
  | oneOf _ types _ =>
    match Alternatives.distinct types with
    | .ok () => none
    | .error d => some (.duplicateAlternative d)
  | _ => none

end Grammar

/-- What the check records of a flaw. -/
def GrammarFlaw.event : GrammarFlaw → Event
  | .emptyRange lo hi => .emptyRangeMet lo hi
  | .duplicateAlternative d => .duplicateMet d

/-- How a check ended, the rules entered by then, and the events on the way. -/
structure CheckReport where
  ending : Except GrammarFlaw Unit
  visited : Visited
  events : List Event

/-- The same report after the event `e`. -/
def CheckReport.after (e : Event) (r : CheckReport) : CheckReport :=
  { r with events := e :: r.events }

namespace Rulebook

variable {ι κ : Type}

/-- The keys of the rules that are not entered yet. -/
def unvisited (book : Rulebook ι κ) (v : Visited) : List ι :=
  book.keys.filter fun i => (book.rule i).name ∉ v.names

/-- A rule that is entered is one fewer to enter. -/
theorem length_unvisited_enter_lt (book : Rulebook ι κ) {v : Visited} {i : ι}
    (h : (v.enter (book.rule i).name).1 = true) :
    (book.unvisited (v.enter (book.rule i).name).2).length < (book.unvisited v).length := by
  rw [Visited.enter_fst] at h
  have hmem : i ∈ book.unvisited v := by simp [unvisited, book.mem_keys, h]
  -- only rules of the name that was entered go away, and this one does
  have hsub : book.unvisited (v.enter (book.rule i).name).2 =
      (book.unvisited v).filter fun j => (book.rule j).name ≠ (book.rule i).name := by
    simp only [unvisited, Visited.mem_names_enter, List.filter_filter]
    congr 1
    funext j
    simp
  rw [hsub]
  exact List.length_filter_lt_length_iff_exists.2 ⟨i, hmem, by simp⟩

/-- More than the number of nodes in any rule. -/
def size (book : Rulebook ι κ) : Nat :=
  Grammar.nodesOf (book.keys.map fun i => (book.rule i).body) + 1

/-- No body has as many nodes as are set aside for it. -/
theorem nodes_body_lt_size (book : Rulebook ι κ) (i : ι) :
    (book.rule i).body.nodes < book.size :=
  Nat.lt_succ_of_le (Grammar.nodes_le_nodesOf (List.mem_map_of_mem (book.mem_keys i)))

/-- A bound on the nodes that are still to be looked at: those of `stack`, and for every rule not
    entered yet as many as any rule has. -/
def work (book : Rulebook ι κ) (v : Visited) (stack : List (Grammar ι κ)) : Nat :=
  (book.unvisited v).length * book.size + Grammar.nodesOf stack

/-- To enter a rule is progress, although its whole body comes onto the stack. -/
theorem work_enter_lt (book : Rulebook ι κ) {v : Visited} {i : ι}
    (h : (v.enter (book.rule i).name).1 = true) (stack : List (Grammar ι κ)) :
    book.work (v.enter (book.rule i).name).2 ((book.rule i).body :: stack) <
      book.work v (.rule i :: stack) := by
  have hs := book.nodes_body_lt_size i
  -- one rule fewer to enter pays for all the nodes of its body
  have hu := Nat.mul_le_mul_right book.size (book.length_unvisited_enter_lt h)
  rw [Nat.succ_mul] at hu
  simp only [work, Grammar.nodesOf, Grammar.nodes]
  omega

/-- To go on to the children of a node is progress. -/
theorem work_children_lt (book : Rulebook ι κ) (v : Visited) (g : Grammar ι κ)
    (stack : List (Grammar ι κ)) :
    book.work v (g.children ++ stack) < book.work v (g :: stack) := by
  have := g.nodesOf_children_lt
  simp only [work, Grammar.nodesOf_append, Grammar.nodesOf]
  omega

/-- Walks the grammars of `stack` in order, going into each before the next. -/
def walk (book : Rulebook ι κ) (v : Visited) : List (Grammar ι κ) → CheckReport
  | [] => ⟨.ok (), v, []⟩
  | g :: stack =>
    match g.flaw? with
    | some flaw => ⟨.error flaw, v, [flaw.event]⟩
    | none =>
      match g with
      | .rule i =>
        if (v.enter (book.rule i).name).1 then
          (walk book (v.enter (book.rule i).name).2 ((book.rule i).body :: stack)).after
            (.checked (book.rule i).name)
        else
          -- its nodes were looked at when it was entered, or still stand in the stack
          walk book v stack
      | g => walk book v (g.children ++ stack)
termination_by stack => book.work v stack
decreasing_by
  · exact book.work_enter_lt ‹_› stack
  · exact book.work_children_lt v (.rule i) stack
  · exact book.work_children_lt v _ stack

/-- Checks `g` with the rules of `v` already entered. -/
def check (book : Rulebook ι κ) (v : Visited) (g : Grammar ι κ) : CheckReport := book.walk v [g]

/-- The grammar itself, unless a check of its own finds a flaw. -/
def accept (book : Rulebook ι κ) (g : Grammar ι κ) : Except GrammarFlaw (Grammar ι κ) :=
  (book.check Visited.empty g).ending.map fun _ => g

end Rulebook

end ParserKit
