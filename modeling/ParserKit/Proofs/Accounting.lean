import Mathlib.Data.List.Nodup
import Mathlib.Data.List.Perm.Basic
import ParserKit.Variant.Workspace

/-!
# Accounting for values

However the variants of a workspace are used, no value is lost and none is destroyed twice: all
values that were ever made or cloned are, up to their order, those that are alive and those that
were destroyed. A value that is alive is in a variant or is held. While an operation is under way
it may also be in the hands of the operation, so the invariant (`Workspace.Sound`) is about a
workspace together with a list of such values. The moves an operation consists of each take a
value from one place to another, and an operation is sound if at its end its hands are empty.

## Key results

- `Ledger.Accounts`: the ledger accounts for the values that are alive
- `Variant.drop_eq`: a variant is dropped by destroying its value as what it is
- `Workspace.Sound`: the invariant, and `give`, `put`, `vacate`, … keep it
- `Workspace.Sound.perform`: every operation keeps it
- `Workspace.refuses`: what names an alternative that is not active changes nothing
-/

namespace ParserKit

variable {α : Type}

/-! ## Ledgers -/

/-- The value that came to be by what happened. -/
def Deed.born? : Deed α → Option (Owned α)
  | .made v => some v
  | .cloned _ v => some v
  | .destroyed _ _ => none

/-- The value that was destroyed by what happened. -/
def Deed.gone? : Deed α → Option (Owned α)
  | .destroyed v _ => some v
  | _ => none

namespace Ledger

/-- All values that were made or cloned, latest first. -/
def born (l : Ledger α) : List (Owned α) := l.deeds.filterMap Deed.born?

/-- All values that were destroyed, latest first. -/
def gone (l : Ledger α) : List (Owned α) := l.deeds.filterMap Deed.gone?

variable {l : Ledger α} {alive others : List (Owned α)} {v : Owned α}

/-- What came to be is what was made and what was cloned. -/
theorem length_born (l : Ledger α) : l.born.length = l.constructions + l.clones := by
  unfold born constructions clones
  induction l.deeds with
  | nil => rfl
  | cons d deeds ih =>
    cases d <;> simp [List.filterMap_cons, Deed.born?] at ih ⊢ <;> omega

/-- What is gone is what was destroyed. -/
theorem length_gone (l : Ledger α) : l.gone.length = l.destructions := by
  unfold gone destructions
  induction l.deeds with
  | nil => rfl
  | cons d deeds ih =>
    cases d <;> simp [List.filterMap_cons, Deed.gone?] at ih ⊢ <;> omega

@[simp] theorem gone_destroy (l : Ledger α) (v : Owned α) :
    (l.destroy v).gone = v :: l.gone := rfl

@[simp] theorem clones_destroy (l : Ledger α) (v : Owned α) :
    (l.destroy v).clones = l.clones := by
  simp [clones, destroy, destroyAs]

@[simp] theorem constructions_destroy (l : Ledger α) (v : Owned α) :
    (l.destroy v).constructions = l.constructions := by
  simp [constructions, destroy, destroyAs]

@[simp] theorem clones_copy (l : Ledger α) (v : Owned α) :
    (l.copy v).2.clones = l.clones + 1 := by
  simp [clones, copy]

@[simp] theorem constructions_copy (l : Ledger α) (v : Owned α) :
    (l.copy v).2.constructions = l.constructions := by
  simp [constructions, copy]

/-- The ledger accounts for the values that are alive: they and those that were destroyed are all
    there ever were, no two of them are the same, and none was destroyed as what it is not. -/
structure Accounts (l : Ledger α) (alive : List (Owned α)) : Prop where
  perm : l.born.Perm (alive ++ l.gone)
  nodup : (l.born.map Owned.id).Nodup
  id_lt_next : ∀ v ∈ l.born, v.id < l.next
  ownType : ∀ v t, Deed.destroyed v t ∈ l.deeds → t = v.typeName

namespace Accounts

/-- The order of what is alive does not matter. -/
theorem of_perm (h : l.Accounts alive) (hp : alive.Perm others) : l.Accounts others :=
  { h with perm := h.perm.trans (hp.append_right _) }

/-- A value with the next identity comes to be. -/
theorem bear (h : l.Accounts alive) {d : Deed α} (hd : d.born? = some v) (hid : v.id = l.next) :
    Accounts ⟨l.next + 1, d :: l.deeds⟩ (v :: alive) where
  perm := by
    -- what comes to be is not destroyed by the same deed
    have hgone : d.gone? = none := by cases d <;> simp_all [Deed.born?, Deed.gone?]
    simp only [born, gone, List.filterMap_cons, hd, hgone]
    exact h.perm.cons v
  nodup := by
    simp only [born, List.filterMap_cons, hd, List.map_cons, List.nodup_cons]
    -- the next identity is larger than all that were given out
    refine ⟨fun hmem => ?_, h.nodup⟩
    obtain ⟨u, hu, huid⟩ := List.mem_map.1 hmem
    have hlt := h.id_lt_next u hu
    omega
  id_lt_next := by
    simp only [born, List.filterMap_cons, hd, List.mem_cons, forall_eq_or_imp]
    refine ⟨by omega, fun u hu => ?_⟩
    have hlt := h.id_lt_next u hu
    omega
  ownType := by
    intro u t hu
    rcases List.mem_cons.1 hu with rfl | hu
    · cases hd
    · exact h.ownType u t hu

/-- Making a value: it is alive, and nothing else changes. -/
theorem make (h : l.Accounts alive) (t : String) (x : α) :
    (l.make t x).2.Accounts ((l.make t x).1 :: alive) := h.bear rfl rfl

/-- Cloning a value: the clone is alive, and the value it was cloned from is not touched. -/
theorem copy (h : l.Accounts alive) (v : Owned α) :
    (l.copy v).2.Accounts ((l.copy v).1 :: alive) := h.bear rfl rfl

/-- Destroying a value that is alive, as what it is. -/
theorem destroy (h : l.Accounts (v :: alive)) : (l.destroy v).Accounts alive where
  perm := h.perm.trans List.perm_middle.symm
  nodup := h.nodup
  id_lt_next := h.id_lt_next
  ownType := by
    intro u t hu
    rcases List.mem_cons.1 hu with heq | hu
    · cases heq
      rfl
    · exact h.ownType u t hu

/-- Destroying several values that are alive, one after the other. -/
theorem destroyAll {vs : List (Owned α)} (h : l.Accounts (vs ++ alive)) :
    (vs.foldl Ledger.destroy l).Accounts alive := by
  -- the ledger changes with each value, so it is generalized
  induction vs generalizing l with
  | nil => exact h
  | cons v vs ih => exact ih (destroy h)

/-- What is alive and what was destroyed has identities of its own. -/
theorem nodup_append (h : l.Accounts alive) : ((alive ++ l.gone).map Owned.id).Nodup :=
  (h.perm.map Owned.id).nodup_iff.1 h.nodup

/-- The balance of an account: as many came to be as were destroyed and are alive. -/
theorem balance (h : l.Accounts alive) :
    l.constructions + l.clones = l.destructions + alive.length := by
  have hlength := h.perm.length_eq
  rw [length_born, List.length_append, length_gone] at hlength
  omega

end Accounts

end Ledger

/-! ## Variants -/

namespace Variant

/-- The value of the variant has the type of its alternative. -/
def Typed (v : Variant (Owned α)) : Prop := v.types[v.tag]? = some v.storage.payload.typeName

variable {v w : Variant (Owned α)} {x old : Owned α} {k : Nat} {types : List String}

/-- A variant is dropped by destroying its value as what it is. -/
theorem Typed.drop_eq (h : v.Typed) (l : Ledger α) : l.drop v = l.destroy v.storage.payload := by
  -- the destructor walks by the depth of the storage, which is the tag
  have htype : v.types[v.storage.depth]? = some v.storage.payload.typeName := by
    rw [v.depth_eq]
    exact h
  have hdestroy := v.storage.destroyAt_depth htype
  rw [v.depth_eq] at hdestroy
  simp only [Ledger.drop, Ledger.destroyAt, hdestroy]
  rfl

/-- A variant is typed if its value is of the type that stands at its number. -/
theorem typed_inject {h : k < types.length} (hx : x.typeName = types[k]) :
    (Variant.inject types k x h).Typed := by
  simp [Typed, inject, hx]

/-- One more alternative in front moves the tag and the types alike. -/
theorem typed_ofTail {t : String} : (Variant.ofTail t v).Typed ↔ v.Typed := Iff.rfl

/-- A value that was set is in the variant, and the one that was there came back. -/
theorem set_eq_ok (h : v.set k x = .ok (old, w)) (hx : v.types[k]? = some x.typeName) :
    old = v.storage.payload ∧ w.storage.payload = x ∧ w.Typed := by
  -- at another number nothing is set, and there is nothing to show
  by_cases hk : k = v.tag
  · subst hk
    rw [set_tag] at h
    cases h
    obtain ⟨_, htype⟩ := List.getElem?_eq_some_iff.1 hx
    exact ⟨rfl, Chain.payload_inject _ x, typed_inject htype.symm⟩
  · rw [set_of_ne hk] at h
    cases h

/-- To edit through a reference is to set, as far as it succeeds. -/
theorem edit_eq_some (h : v.edit k x = some (old, w)) : v.set k x = .ok (old, w) := by
  unfold edit at h
  cases hset : v.set k x with
  | error e => rw [hset] at h; cases h
  | ok r => rw [hset] at h; cases h; rfl

/-- What is taken is the value of the variant. -/
theorem take_eq_ok (h : v.take k = .ok x) : x = v.storage.payload := by
  by_cases hk : k = v.tag
  · subst hk
    rw [take, get_tag] at h
    cases h
    rfl
  · rw [take, get_of_ne hk] at h
    cases h

/-- What is refused to be taken stays as it was. -/
theorem take_eq_error (h : v.take k = .error w) : w = v := by
  by_cases hk : k = v.tag
  · subst hk
    rw [take, get_tag] at h
    cases h
  · rw [take, get_of_ne hk] at h
    cases h
    rfl

/-- What comes out of a split is the value of the variant. -/
theorem split_eq_ok (h : v.split = .ok x) : x = v.storage.payload := by
  obtain ⟨types, tag, storage, hd, ht⟩ := v
  cases storage with
  | head y => cases h; rfl
  | tail rest => cases h

/-- Splitting leaves the value where it is. -/
theorem split_eq_error (h : v.split = .error w) :
    w.storage.payload = v.storage.payload ∧ (v.Typed → w.Typed) := by
  obtain ⟨types, tag, storage, hd, ht⟩ := v
  cases storage with
  | head y => cases h
  | tail rest =>
    cases h
    refine ⟨rfl, fun htyped => ?_⟩
    -- the tail is not empty, so the tag is not 0
    have htag : tag - 1 + 1 = tag := by
      have hdepth : rest.depth + 1 = tag := hd
      omega
    show types.tail[tag - 1]? = some rest.payload.typeName
    rw [List.getElem?_tail, htag]
    exact htyped

/-- A clone is built anew, at the same tag and of a copy of the value. -/
theorem clone_eq (copy : Owned α → Owned α) (v : Variant (Owned α)) :
    v.clone copy = inject v.types v.tag (copy v.storage.payload) v.tag_lt := by
  have hclone : v.storage.cloneAt copy v.tag =
      some (Chain.inject v.tag (copy v.storage.payload)) := by
    rw [← v.depth_eq, Chain.cloneAt_depth]
  -- the clone asks whether its walk came to a value; it always does
  unfold Variant.clone
  split
  · rename_i storage h
    obtain rfl : Chain.inject v.tag (copy v.storage.payload) = storage := by
      simpa [hclone] using h
    rfl
  · rename_i h
    rw [hclone] at h
    cases h

end Variant

/-- Variants that are dropped one after the other. -/
theorem Ledger.Accounts.dropAll {l : Ledger α} {slots : List (String × Variant (Owned α))}
    {alive : List (Owned α)} (h : l.Accounts (slots.map (fun s => s.2.storage.payload) ++ alive))
    (htyped : ∀ s ∈ slots, s.2.Typed) :
    (slots.foldl (fun l s => l.drop s.2) l).Accounts alive := by
  -- each variant is dropped by destroying its value, so this is `destroyAll` again
  induction slots generalizing l with
  | nil => exact h
  | cons s slots ih =>
    obtain ⟨hs, hslots⟩ := List.forall_mem_cons.1 htyped
    rw [List.foldl_cons, hs.drop_eq]
    exact ih h.destroy hslots

/-! ## Workspaces -/

namespace Workspace

/-- The values that are alive: those in variants, and those that are held. -/
def alive (w : Workspace α) : List (Owned α) :=
  w.slots.map (fun s => s.2.storage.payload) ++ w.held

/-- The ledger accounts for what is alive and what is in the hands of an operation, the variants
    are typed, and no slot is there twice. -/
structure Sound (hand : List (Owned α)) (w : Workspace α) : Prop where
  accounts : w.ledger.Accounts (hand ++ w.alive)
  typed : ∀ s ∈ w.slots, s.2.Typed
  names : (w.slots.map (·.1)).Nodup

variable {w w' : Workspace α} {hand : List (Owned α)} {slot t : String}
  {u v : Variant (Owned α)} {x y : Owned α}

/-! ### Slots -/

/-- A slot that was vacated is not there. -/
theorem names_vacate (w : Workspace α) (slot : String) :
    slot ∉ (w.vacate slot).slots.map (·.1) := by
  simp [vacate]

/-- To vacate a slot that is not there changes nothing. -/
theorem vacate_of_find?_eq_none (h : w.find? slot = none) : w.vacate slot = w := by
  have hall : ∀ s ∈ w.slots, s.1 ≠ slot := by
    intro s hs heq
    have hne := List.lookup_eq_none_iff.1 h s hs
    simp [heq] at hne
  unfold vacate
  rw [List.filter_eq_self.2 fun s hs => decide_eq_true (hall s hs)]

/-- The slots are the one that is asked for and the others. -/
theorem perm_slots (hnames : (w.slots.map (·.1)).Nodup) (h : w.find? slot = some v) :
    w.slots.Perm ((slot, v) :: (w.vacate slot).slots) := by
  obtain ⟨before, after, hslots, hbefore⟩ := List.lookup_eq_some_iff.1 h
  -- the slot is there once, so vacating it leaves what stands before and behind
  have hnot : slot ∉ (before ++ after).map (·.1) := by
    rw [hslots, List.map_append, List.map_cons] at hnames
    rw [List.map_append]
    exact (List.nodup_cons.1 (List.nodup_middle.1 hnames)).1
  have hothers : ∀ s ∈ before ++ after, s.1 ≠ slot := fun s hs heq =>
    hnot (heq ▸ List.mem_map_of_mem hs)
  have hvacate : (w.vacate slot).slots = before ++ after := by
    show w.slots.filter (fun s => decide (s.1 ≠ slot)) = before ++ after
    rw [hslots, List.filter_append, List.filter_cons_of_neg (by simp), ← List.filter_append]
    exact List.filter_eq_self.2 fun s hs => decide_eq_true (hothers s hs)
  rw [hvacate, hslots]
  exact List.perm_middle

/-- What is found in the slots after one of them got a variant. -/
theorem find?_swap (w : Workspace α) (slot : String) (v : Variant (Owned α)) (s : String) :
    (w.swap slot v).find? s = if s = slot then some v else w.find? s := by
  by_cases hs : s = slot
  · rw [if_pos hs, hs]
    exact List.lookup_cons_self
  · rw [if_neg hs]
    have hne : (s == slot) = false := beq_eq_false_iff_ne.2 hs
    simp only [find?, swap, vacate, List.lookup_cons, hne]
    -- vacating drops only entries that the look-up of `s` skips
    induction w.slots with
    | nil => rfl
    | cons entry slots ih =>
      obtain ⟨name, u⟩ := entry
      by_cases hname : name = slot
      · have hskip : (s == name) = false := by rw [hname]; exact hne
        rw [List.filter_cons_of_neg (by simpa using hname), List.lookup_cons, hskip]
        exact ih
      · rw [List.filter_cons_of_pos (by simpa using hname), List.lookup_cons, List.lookup_cons, ih]

/-- What is found depends on the slots only. -/
theorem find?_congr (h : w'.slots = w.slots) (s : String) : w'.find? s = w.find? s := by
  rw [find?, find?, h]

/-- A value from a source is of the type that is asked for, and comes neither out of a slot nor from
    among those that were destroyed. -/
theorem give_frame {src : Source α} (h : w.give t src = some (x, w')) :
    x.typeName = t ∧ w'.slots = w.slots ∧ w'.ledger.gone = w.ledger.gone := by
  cases src with
  | fresh y =>
    cases h
    exact ⟨rfl, rfl, rfl⟩
  | held i =>
    obtain ⟨z, -, hif⟩ := Option.bind_eq_some_iff.1 h
    split at hif
    · cases hif
      exact ⟨‹_›, rfl, rfl⟩
    · cases hif

/-! ### Moving values

Each move takes a value from one place to another: out of the slots or of what is held into the
hands of the operation, or from there to where it ends up. -/

/-- What is taken out of one of two places is taken out of both together. -/
private theorem perm_takeOut {xs ys : List (Owned α)} (h : xs.Perm (x :: ys))
    (zs : List (Owned α)) : (zs ++ xs).Perm (x :: (zs ++ ys)) :=
  (h.append_left zs).trans List.perm_middle

namespace Sound

/-- The order in which an operation has values in hand does not matter. -/
theorem of_perm {hand' : List (Owned α)} (h : w.Sound hand) (hp : hand.Perm hand') :
    w.Sound hand' :=
  { h with accounts := h.accounts.of_perm (hp.append_right _) }

/-- A variant that is found in a slot is typed. -/
theorem typed_of_find? (h : w.Sound hand) (hv : w.find? slot = some v) : v.Typed :=
  h.typed (slot, v) ((perm_slots h.names hv).mem_iff.2 List.mem_cons_self)

/-- A value that was held is taken in hand. -/
theorem unhold (h : w.Sound hand) {i : Nat} (hx : w.held[i]? = some x) :
    { w with held := w.held.eraseIdx i }.Sound (x :: hand) where
  accounts := by
    obtain ⟨hi, rfl⟩ := List.getElem?_eq_some_iff.1 hx
    have hheld : w.held.Perm (w.held[i] :: w.held.eraseIdx i) :=
      (List.getElem_cons_eraseIdx_perm hi).symm
    exact h.accounts.of_perm (perm_takeOut (perm_takeOut hheld _) hand)
  typed := h.typed
  names := h.names

/-- A value from a source comes to hand. -/
theorem give (h : w.Sound hand) {src : Source α} (hx : w.give t src = some (x, w')) :
    w'.Sound (x :: hand) := by
  cases src with
  | fresh y =>
    cases hx
    exact ⟨h.accounts.make t y, h.typed, h.names⟩
  | held i =>
    obtain ⟨z, hz, hif⟩ := Option.bind_eq_some_iff.1 hx
    split at hif
    · cases hif
      exact h.unhold hz
    · cases hif

/-- A variant is taken out of its slot. -/
theorem vacate (h : w.Sound hand) (hv : w.find? slot = some v) :
    (w.vacate slot).Sound (v.storage.payload :: hand) where
  accounts := by
    have hslots := (perm_slots h.names hv).map fun s => s.2.storage.payload
    exact h.accounts.of_perm (perm_takeOut (hslots.append_right w.held) hand)
  typed := fun s hs => h.typed s (List.mem_of_mem_filter hs)
  names := h.names.sublist (List.filter_sublist.map _)

/-- A variant in hand is put where there is no slot of that name. -/
theorem add (h : w.Sound (v.storage.payload :: hand)) (hv : v.Typed)
    (hslot : slot ∉ w.slots.map (·.1)) :
    { w with slots := (slot, v) :: w.slots }.Sound hand where
  accounts := h.accounts.of_perm List.perm_middle.symm
  typed := List.forall_mem_cons.2 ⟨hv, h.typed⟩
  names := List.nodup_cons.2 ⟨hslot, h.names⟩

/-- A variant in hand changes places with the one in a slot. -/
theorem swap (h : w.Sound (v.storage.payload :: hand)) (hu : w.find? slot = some u)
    (hv : v.Typed) : (w.swap slot v).Sound (u.storage.payload :: hand) :=
  add ((h.vacate hu).of_perm (List.Perm.swap _ _ _)) hv (names_vacate w slot)

/-- A slot gets another variant of the value that is in it. -/
theorem rewrap (h : w.Sound hand) (hu : w.find? slot = some u) (hv : v.Typed)
    (hp : v.storage.payload = u.storage.payload) : (w.swap slot v).Sound hand :=
  add (hp ▸ h.vacate hu) hv (names_vacate w slot)

/-- A value in hand is held. -/
theorem hold (h : w.Sound (x :: hand)) : (w.hold x).Sound hand where
  accounts := h.accounts.of_perm (perm_takeOut List.perm_middle hand).symm
  typed := h.typed
  names := h.names

/-- The value of a variant is taken out of it, and is held. -/
theorem moveOut (h : w.Sound hand) (hv : w.find? slot = some v) (hx : x = v.storage.payload) :
    ((w.vacate slot).hold x).Sound hand := by
  rw [hx]
  exact (h.vacate hv).hold

/-- A value in hand is destroyed. -/
theorem destroy (h : w.Sound (x :: hand)) :
    { w with ledger := w.ledger.destroy x }.Sound hand where
  accounts := h.accounts.destroy
  typed := h.typed
  names := h.names

/-- A variant in hand is dropped. -/
theorem drop (h : w.Sound (v.storage.payload :: hand)) (hv : v.Typed) :
    { w with ledger := w.ledger.drop v }.Sound hand := by
  rw [hv.drop_eq]
  exact h.destroy

/-- A variant in hand is put in a slot; one that was there is dropped. -/
theorem put (h : w.Sound (v.storage.payload :: hand)) (hv : v.Typed) (slot : String) :
    (w.put slot v).Sound hand := by
  cases hu : w.find? slot with
  | none =>
    have hvacate : w.vacate slot = w := vacate_of_find?_eq_none hu
    have hslot := names_vacate w slot
    rw [hvacate] at hslot
    simp only [Workspace.put, hu, hvacate]
    exact h.add hv hslot
  | some u =>
    have hdropped := (h.vacate hu).drop (h.typed_of_find? hu)
    simp only [Workspace.put, hu]
    exact hdropped.add hv (names_vacate w slot)

/-- A copy of a value comes to hand. -/
theorem copy (h : w.Sound hand) (y : Owned α) :
    { w with ledger := (w.ledger.copy y).2 }.Sound ((w.ledger.copy y).1 :: hand) where
  accounts := h.accounts.copy y
  typed := h.typed
  names := h.names

/-- A value that is held is destroyed. -/
theorem discard (h : w.Sound hand) {i : Nat} (hd : w.discard i = some w') : w'.Sound hand := by
  obtain ⟨x, hx, rfl⟩ := Option.map_eq_some_iff.1 hd
  exact (h.unhold hx).destroy

/-- All values that are held are destroyed. -/
theorem release (h : w.Sound hand) : w.release.Sound hand where
  accounts := by
    -- first what is held, in the order in which it is destroyed
    have hheld : (hand ++ w.alive).Perm (w.held ++ (hand ++ w.release.alive)) := by
      simp only [alive, Workspace.release, List.append_nil]
      rw [← List.append_assoc]
      exact List.perm_append_comm
    exact (h.accounts.of_perm hheld).destroyAll
  typed := h.typed
  names := h.names

/-- At the end nothing is alive any more. -/
theorem close (h : w.Sound []) : w.close.ledger.Accounts [] := by
  have hdropped : { w with slots := [], ledger := w.slots.foldl (fun l s => l.drop s.2) w.ledger
      : Workspace α }.Sound [] :=
    ⟨h.accounts.dropAll h.typed, nofun, List.nodup_nil⟩
  exact hdropped.release.accounts

end Sound

/-! ### Operations -/

variable {types : List String} {k : Nat} {src : Source α}

/-- A variant comes to hand with a value from a source. -/
theorem Sound.variant? (h : w.Sound hand) (hv : w.variant? types k src = some (v, w')) :
    w'.Sound (v.storage.payload :: hand) ∧ v.Typed ∧ w'.slots = w.slots := by
  unfold Workspace.variant? at hv
  split at hv
  · obtain ⟨⟨x, w₁⟩, hx, heq⟩ := Option.map_eq_some_iff.1 hv
    cases heq
    obtain ⟨htype, hslots, -⟩ := give_frame hx
    -- the value from the source is the one in the variant
    have hpayload : (Variant.inject types k x ‹_›).storage.payload = x :=
      Chain.payload_inject k x
    rw [hpayload]
    exact ⟨h.give hx, Variant.typed_inject htype, hslots⟩
  · cases hv

/-- The value of a variant is exchanged for one from a source; the old one comes to hand. -/
theorem Sound.exchange (h : w.Sound hand) (hv : w.find? slot = some v)
    (ht : v.types[k]? = some t) (hgive : w.give t src = some (x, w'))
    (hset : v.set k x = .ok (y, u)) : (w'.swap slot u).Sound (y :: hand) := by
  obtain ⟨htype, hslots, -⟩ := give_frame hgive
  obtain ⟨rfl, rfl, htyped⟩ := Variant.set_eq_ok hset (by rw [ht, htype])
  -- first the new value comes to hand, then the variants change places
  exact (h.give hgive).swap (by rw [find?_congr hslots, hv]) htyped

/-- The clone of a variant comes to hand. -/
theorem Sound.clone (h : w.Sound hand) (hv : v.Typed) :
    let (x, ledger) := w.ledger.copy v.storage.payload
    { w with ledger }.Sound ((v.clone fun _ => x).storage.payload :: hand) ∧
      (v.clone fun _ => x).Typed := by
  obtain ⟨_, htype⟩ := List.getElem?_eq_some_iff.1 hv
  simp only [Variant.clone_eq]
  refine ⟨?_, Variant.typed_inject htype.symm⟩
  rw [Variant.inject, Chain.payload_inject]
  exact h.copy v.storage.payload

/-- An operation takes in hand only what it puts down again. -/
theorem Sound.perform [BEq α] (h : w.Sound []) {op : WorkspaceOp α} {a : WorkspaceAnswer α}
    (hop : w.perform op = some (a, w')) : w'.Sound [] := by
  -- the answer is taken apart bind by bind; what is left is a chain of moves
  cases op with
  -- building: what comes from a source is in hand, and is put in a slot
  | create slot k src =>
    obtain ⟨⟨v, w₁⟩, hv, hop⟩ := Option.bind_eq_some_iff.1 hop
    cases hop
    obtain ⟨hw₁, htyped, -⟩ := h.variant? hv
    exact hw₁.put htyped slot
  | createHead slot src =>
    simp only [Workspace.perform] at hop
    split at hop
    · rename_i t others _
      obtain ⟨⟨x, w₁⟩, hx, hop⟩ := Option.bind_eq_some_iff.1 hop
      cases hop
      obtain ⟨htype, -, -⟩ := give_frame hx
      have hhand : w₁.Sound [(Variant.ofHead t others x).storage.payload] := h.give hx
      exact hhand.put (congrArg some htype.symm) slot
    · cases hop
  | createTail slot k src =>
    simp only [Workspace.perform] at hop
    split at hop
    · rename_i t others k _
      obtain ⟨⟨rest, w₁⟩, hrest, hop⟩ := Option.bind_eq_some_iff.1 hop
      cases hop
      obtain ⟨hw₁, hrest, -⟩ := h.variant? hrest
      -- among more alternatives the value in hand is the same
      have hhand : w₁.Sound [(Variant.ofTail t rest).storage.payload] := hw₁
      exact hhand.put (Variant.typed_ofTail.2 hrest) slot
    · cases hop
  -- asking: nothing moves
  | inspect slot | holds slot k | get slot k | tryGet slot k =>
    obtain ⟨v, -, hop⟩ := Option.bind_eq_some_iff.1 hop
    cases hop
    exact h
  -- overwriting: the old value comes to hand
  | edit slot k src =>
    obtain ⟨v, hv, hop⟩ := Option.bind_eq_some_iff.1 hop
    split at hop
    · obtain ⟨t, ht, hop⟩ := Option.bind_eq_some_iff.1 hop
      obtain ⟨⟨x, w₁⟩, hx, hop⟩ := Option.bind_eq_some_iff.1 hop
      obtain ⟨⟨y, u⟩, hy, hop⟩ := Option.bind_eq_some_iff.1 hop
      cases hop
      exact (h.exchange hv ht hx (Variant.edit_eq_some hy)).destroy
    · cases hop
      exact h
  | set slot k src =>
    obtain ⟨v, hv, hop⟩ := Option.bind_eq_some_iff.1 hop
    obtain ⟨t, ht, hop⟩ := Option.bind_eq_some_iff.1 hop
    obtain ⟨⟨x, w₁⟩, hx, hop⟩ := Option.bind_eq_some_iff.1 hop
    dsimp only at hop
    split at hop
    · rename_i y u hset
      cases hop
      exact (h.exchange hv ht hx hset).hold
    · -- a value that was refused is still in hand
      cases hop
      exact (h.give hx).destroy
  -- replacing: two variants change places, and the old one is put down elsewhere or dropped
  | replace slot k src target =>
    obtain ⟨u, hu, hop⟩ := Option.bind_eq_some_iff.1 hop
    obtain ⟨⟨v, w₁⟩, hv, hop⟩ := Option.bind_eq_some_iff.1 hop
    obtain ⟨hw₁, htyped, hslots⟩ := h.variant? hv
    have hu₁ : w₁.find? slot = some u := by rw [find?_congr hslots, hu]
    have hswapped : (w₁.swap slot v).Sound [u.storage.payload] := hw₁.swap hu₁ htyped
    cases target with
    | some other =>
      cases hop
      exact hswapped.put (h.typed_of_find? hu) other
    | none =>
      cases hop
      exact hswapped.drop (h.typed_of_find? hu)
  -- taking out: the value is held, and its slot is gone
  | take slot k =>
    obtain ⟨v, hv, hop⟩ := Option.bind_eq_some_iff.1 hop
    split at hop
    · rename_i x hx
      cases hop
      exact h.moveOut hv (Variant.take_eq_ok hx)
    · rename_i u hu
      cases hop
      rw [Variant.take_eq_error hu]
      exact h.rewrap hv (h.typed_of_find? hv) rfl
  | split slot =>
    obtain ⟨v, hv, hop⟩ := Option.bind_eq_some_iff.1 hop
    split at hop
    · rename_i x _ hx
      cases hop
      exact h.moveOut hv (Variant.split_eq_ok hx)
    · rename_i rest t _ hrest _
      cases hop
      obtain ⟨hp, htyped⟩ := Variant.split_eq_error hrest
      exact h.rewrap hv (Variant.typed_ofTail.2 (htyped (h.typed_of_find? hv))) hp
    · cases hop
  | narrow slot =>
    obtain ⟨v, hv, hop⟩ := Option.bind_eq_some_iff.1 hop
    split at hop
    · rename_i x hx
      cases hop
      exact h.moveOut hv (Variant.split_eq_ok hx)
    · rename_i rest hrest
      cases hop
      obtain ⟨hp, htyped⟩ := Variant.split_eq_error hrest
      exact h.rewrap hv (htyped (h.typed_of_find? hv)) hp
  | widen slot t =>
    obtain ⟨v, hv, hop⟩ := Option.bind_eq_some_iff.1 hop
    cases hop
    exact h.rewrap hv (Variant.typed_ofTail.2 (h.typed_of_find? hv)) rfl
  -- the whole variant is used up
  | unify slot =>
    obtain ⟨v, hv, hop⟩ := Option.bind_eq_some_iff.1 hop
    cases hop
    exact h.moveOut hv (Variant.unify_eq_payload v)
  | clone slot target =>
    obtain ⟨v, hv, hop⟩ := Option.bind_eq_some_iff.1 hop
    cases hop
    obtain ⟨hcloned, htyped⟩ := h.clone (h.typed_of_find? hv)
    exact hcloned.put htyped target
  | same slot other =>
    obtain ⟨v, -, hop⟩ := Option.bind_eq_some_iff.1 hop
    obtain ⟨u, -, hop⟩ := Option.bind_eq_some_iff.1 hop
    split at hop
    · cases hop
      exact h
    · cases hop
  -- destroying
  | drop slot =>
    obtain ⟨v, hv, hop⟩ := Option.bind_eq_some_iff.1 hop
    cases hop
    exact (h.vacate hv).drop (h.typed_of_find? hv)
  | discard i =>
    obtain ⟨w₁, hw₁, hop⟩ := Option.bind_eq_some_iff.1 hop
    cases hop
    exact h.discard hw₁
  | release =>
    cases hop
    exact h.release

/-! ### Runs -/

/-- A workspace in which nothing has happened is sound. -/
theorem sound_empty (types : List String) : (empty types : Workspace α).Sound [] where
  accounts := ⟨List.Perm.nil, List.nodup_nil, nofun, nofun⟩
  typed := nofun
  names := List.nodup_nil

/-- However often operations are carried out, each ends with empty hands. -/
theorem Sound.performAll [BEq α] {ops : List (WorkspaceOp α)} (h : w.Sound [])
    (hrun : w.performAll ops = some w') : w'.Sound [] := by
  -- between two operations the hands are empty, which is the invariant
  induction ops generalizing w with
  | nil =>
    cases hrun
    exact h
  | cons op ops ih =>
    obtain ⟨⟨a, w₁⟩, hop, hrest⟩ := Option.bind_eq_some_iff.1 hrun
    exact ih (h.perform hop) hrest

/-! ### Single operations -/

/-- To put a variant in a slot may destroy the one that was there, but neither makes nor clones. -/
theorem Sound.counts_put (h : w.Sound hand) (slot : String) (v : Variant (Owned α)) :
    (w.put slot v).ledger.clones = w.ledger.clones ∧
      (w.put slot v).ledger.constructions = w.ledger.constructions := by
  cases hu : w.find? slot with
  | none => simp [Workspace.put, hu, Ledger.dropIfAny]
  | some u =>
    have hdrop := (h.typed_of_find? hu).drop_eq w.ledger
    simp [Workspace.put, hu, Ledger.dropIfAny, hdrop]

/-- Cloning a variant clones one value, and makes none. -/
theorem Sound.counts_clone [BEq α] (h : w.Sound []) {target : String} {a : WorkspaceAnswer α}
    (hop : w.perform (.clone slot target) = some (a, w')) :
    w'.ledger.clones = w.ledger.clones + 1 ∧
      w'.ledger.constructions = w.ledger.constructions := by
  obtain ⟨v, hv, hop⟩ := Option.bind_eq_some_iff.1 hop
  cases hop
  obtain ⟨hcloned, -⟩ := h.clone (h.typed_of_find? hv)
  obtain ⟨hclones, hconstructions⟩ := hcloned.counts_put target _
  exact ⟨hclones.trans (Ledger.clones_copy _ _),
    hconstructions.trans (Ledger.constructions_copy _ _)⟩

/-- What is answered to operations that name alternative `k` of the variant `v` in a slot when that
    alternative is not active: that it is not, and everything stays as it was, but for a value that
    was given to be stored. -/
structure Refuses [BEq α] (w : Workspace α) (slot : String) (v : Variant (Owned α)) (k : Nat) :
    Prop where
  holds : w.perform (.holds slot k) = some (.bool false, w)
  get : w.perform (.get slot k) = some (.value none, w)
  tryGet : w.perform (.tryGet slot k) = some (.fetched (.error (.wrongAlternative k v.tag)), w)
  /-- No value is given, so none is destroyed. -/
  edit : ∀ src, w.perform (.edit slot k src) = some (.value none, w)
  /-- The variant comes back as it was. -/
  take : ∃ w', w.perform (.take slot k) = some (.taken (.error v), w') ∧
    (∀ s, w'.find? s = w.find? s) ∧ w'.held = w.held ∧ w'.ledger = w.ledger
  /-- The value that is given is destroyed, and no other. -/
  set : ∀ src t x w₁, v.types[k]? = some t → w.give t src = some (x, w₁) →
    ∃ w', w.perform (.set slot k src) = some (.fetched (.error (.wrongAlternative k v.tag)), w') ∧
      w'.slots = w.slots ∧ w'.held = w₁.held ∧ w'.ledger.gone = x :: w.ledger.gone

/-- Every operation that names an alternative which is not active is refused. -/
theorem refuses [BEq α] (hv : w.find? slot = some v) (hk : k ≠ v.tag) : w.Refuses slot v k := by
  have hholds : v.holds k = false := beq_eq_false_iff_ne.2 hk.symm
  have hget : v.get k = none := Variant.get_of_ne hk
  constructor
  case holds => simp [perform, hv, hholds]
  case get => simp [perform, hv, hget]
  case tryGet => simp [perform, hv, Variant.tryGet, hget, Except.map]
  case edit =>
    intro src
    simp [perform, hv, hholds]
  -- the variant is put back where it was, so every look-up finds what it found before
  case take =>
    refine ⟨w.swap slot v, by simp [perform, hv, Variant.take, hget], fun s => ?_, rfl, rfl⟩
    rw [find?_swap]
    split
    · rename_i hs
      rw [hs, hv]
    · rfl
  -- the value came out of its source before it was refused
  case set =>
    intro src t x w₁ ht hgive
    obtain ⟨-, hslots, hgone⟩ := give_frame hgive
    refine ⟨{ w₁ with ledger := w₁.ledger.destroy x }, ?_, hslots, rfl, ?_⟩
    · simp [perform, hv, ht, hgive, Variant.set_of_ne hk]
    · rw [Ledger.gone_destroy, hgone]

/-- The accounts after any run of operations on variants of any alternatives, of which several may
    have one type. The values that were made and cloned, less those that were destroyed, are as
    many as are alive: one for each variant, and those that are held. None was destroyed twice or
    while it is alive, and none but as what it is. To clone a variant is to clone one value. What
    is asked of an alternative that is not active is refused. When everything has been dropped, as
    many values were destroyed as were made and cloned. -/
theorem performAll_accounts [BEq α] (types : List String) (ops : List (WorkspaceOp α))
    (w : Workspace α) (hrun : (empty types).performAll ops = some w) :
    w.ledger.constructions + w.ledger.clones =
      w.ledger.destructions + (w.slots.length + w.held.length) ∧
    ((w.alive ++ w.ledger.gone).map Owned.id).Nodup ∧
    (∀ v t, Deed.destroyed v t ∈ w.ledger.deeds → t = v.typeName) ∧
    (∀ slot target a w', w.perform (.clone slot target) = some (a, w') →
      w'.ledger.clones = w.ledger.clones + 1 ∧
        w'.ledger.constructions = w.ledger.constructions) ∧
    (∀ slot v k, w.find? slot = some v → k ≠ v.tag → w.Refuses slot v k) ∧
    w.close.ledger.destructions = w.close.ledger.constructions + w.close.ledger.clones := by
  have hsound : w.Sound [] := (sound_empty types).performAll hrun
  have halive : w.alive.length = w.slots.length + w.held.length := by
    rw [alive, List.length_append, List.length_map]
  refine ⟨?_, hsound.accounts.nodup_append, hsound.accounts.ownType, ?_, ?_, ?_⟩
  · rw [← halive]
    exact hsound.accounts.balance
  · exact fun slot target a w' hop => hsound.counts_clone hop
  · exact fun slot v k hv hk => refuses hv hk
  -- after closing nothing is alive, so the balance has one term less
  · have hclosed := hsound.close.balance
    rw [List.length_nil] at hclosed
    omega

/-- A variant is refused a value of the type of its own, but at another place, is cloned, and is
    given the value of its clone; it gets another list of alternatives and is replaced. -/
theorem performAll_accounts_mixed :
    ∃ w : Workspace Nat, (empty ["a", "b", "a"]).performAll
        [.create "x" 0 (.fresh 1), .set "x" 2 (.fresh 2), .take "x" 2, .clone "x" "y",
          .take "y" 0, .set "x" 0 (.held 0), .widen "x" "c", .narrow "x",
          .replace "x" 1 (.fresh 3) none] = some w ∧
      w.ledger.constructions = 3 ∧ w.ledger.clones = 1 ∧
      w.ledger.constructions + w.ledger.clones =
        w.ledger.destructions + (w.slots.length + w.held.length) ∧
      w.close.ledger.destructions = 4 := by
  -- one run of the operations for all the numbers
  have hcounts : (((empty ["a", "b", "a"] : Workspace Nat).performAll
      [.create "x" 0 (.fresh 1), .set "x" 2 (.fresh 2), .take "x" 2, .clone "x" "y",
        .take "y" 0, .set "x" 0 (.held 0), .widen "x" "c", .narrow "x",
        .replace "x" 1 (.fresh 3) none]).map fun w =>
          (w.ledger.constructions, w.ledger.clones, w.close.ledger.destructions)) =
      some (3, 1, 4) := by decide +kernel
  obtain ⟨w, hrun, hw⟩ := Option.map_eq_some_iff.1 hcounts
  obtain ⟨hmade, hcloned, hclosed⟩ : w.ledger.constructions = 3 ∧ w.ledger.clones = 1 ∧
      w.close.ledger.destructions = 4 := by simpa using hw
  exact ⟨w, hrun, hmade, hcloned, (performAll_accounts _ _ w hrun).1, hclosed⟩

end Workspace

end ParserKit
