import Mathlib.Data.List.Basic
import ParserKit.Variant.Basic

/-!
# Selecting an alternative

A variant says which alternative it holds in several ways: by its tag, by the depth of its storage,
and by how many alternatives can be split off before the value comes out. Whoever asks it walks
down the storage by a number, and there is one walk for each thing that can be asked. All of them
select the same alternative. Each walk is a look-up (`Chain.get?`) of which something is made, and a
look-up by `k` finds a value exactly in a storage that was built at `k`; the tag is that number.

Two operations are fenced by an assertion: a value is destroyed only at a tag that there is, and a
variant is put together only with such a tag. As every variant carries the bound of its tag, neither
assertion ever fires (`Variant.splitByParts_eq`, `Variant.destroyAt_tag`).

## Key results

- `Chain.get?_inject`: what is stored at `k` is found at `k`, and nowhere else
- `Chain.cloneAt_eq`, `describeAt_eq`, `unifyAt_eq`, `eqAt_iff`, `destroyWithin_eq`: each walk is a
  look-up
- `Variant.get_eq_ite`, `set_eq_ite`: the value is read and overwritten at the tag only
- `Variant.inject_eq_foldr`: building at a number and building from the inside out are the same
- `Variant.unwind_inject`: the tags on the way to the value, when alternatives are split off
- `Variant.rejoin_split`: what was split is put together again
-/

namespace ParserKit

variable {α β : Type}

/-! ## Walks are look-ups -/

namespace Chain

/-- What is stored at `k` is found at `k`, and nothing is found anywhere else. -/
@[simp] theorem get?_inject (j k : Nat) (v : α) :
    (inject k v).get? j = if j = k then some v else none := by
  induction k generalizing j with
  | zero => cases j <;> simp [inject, get?]
  | succ k ih => cases j <;> simp [inject, get?, ih]

/-- A chain holds its value at its depth, and nothing anywhere else. -/
theorem get?_eq (k : Nat) (c : Chain α) :
    c.get? k = if k = c.depth then some c.payload else none := by
  conv_lhs => rw [← c.inject_depth_payload]
  exact get?_inject k c.depth c.payload

/-- A clone at `k` is the copy of what a look-up finds there, stored at the same depth again. -/
theorem cloneAt_eq (copy : α → β) (k : Nat) (c : Chain α) :
    c.cloneAt copy k = (c.get? k).map fun v => inject k (copy v) := by
  -- the walk goes down the storage and the number at once, as the look-up does
  induction c generalizing k with
  | head w => cases k <;> rfl
  | tail rest ih =>
    cases k with
    | zero => rfl
    | succ k =>
      simp only [cloneAt, get?, inject, ih, Option.map_map]
      rfl

/-- What is described at `k` is what a look-up finds there. -/
theorem describeAt_eq (describe : α → β) (k : Nat) (c : Chain α) :
    c.describeAt describe k = (c.get? k).map describe := by
  induction c generalizing k with
  | head w => cases k <;> rfl
  | tail rest ih =>
    cases k with
    | zero => rfl
    | succ k => exact ih k

/-- The conversion that is used is that of the alternative, counted from the head of the chain. -/
theorem unifyAt_eq (convert : Nat → α → β) (k : Nat) (c : Chain α) :
    c.unifyAt convert k = (c.get? k).map (convert k) := by
  induction c generalizing convert k with
  | head w => cases k <;> rfl
  | tail rest ih =>
    cases k with
    | zero => rfl
    | succ k => exact ih _ k

/-- Two chains are the same at `k` if both hold a value there, and the values are the same. -/
theorem eqAt_iff (same : α → α → Bool) (k : Nat) (c d : Chain α) :
    eqAt same k c d = true ↔
      ∃ v w, c.get? k = some v ∧ d.get? k = some w ∧ same v w = true := by
  induction c generalizing k d with
  | head v => cases k <;> cases d <;> simp [eqAt, get?]
  | tail rest ih =>
    cases k with
    | zero => cases d <;> simp [eqAt, get?]
    | succ k =>
      cases d with
      | head w => simp [eqAt, get?]
      | tail other => exact ih k other

/-- A value is destroyed as the type that the list has at the place where the value is. -/
theorem destroyWithin_eq (types : List String) (k : Nat) (c : Chain α) :
    destroyAt.destroyWithin types k c =
      types[k]?.bind fun t => (c.get? k).map fun v => (t, v) := by
  induction c generalizing types k with
  | head w => cases types <;> cases k <;> simp [destroyAt.destroyWithin, get?]
  | tail rest ih =>
    cases types with
    | nil => rfl
    | cons t types =>
      cases k with
      | zero => rfl
      | succ k => exact ih types k

end Chain

namespace Variant

/-! ## Building -/

/-- The same alternative with another value. -/
def refill (v : Variant α) (x : α) : Variant α := inject v.types v.tag x v.tag_lt

/-- A variant is what building its value at its tag gives. -/
theorem inject_tag_payload (v : Variant α) :
    inject v.types v.tag v.storage.payload v.tag_lt = v := by
  obtain ⟨types, tag, storage, rfl, hlt⟩ := v
  simp only [inject, Chain.inject_depth_payload]

/-- To build at `k` is to begin with a first alternative and to put `k` alternatives before it, one
    after the other. -/
theorem inject_eq_foldr (types : List String) (k : Nat) (x : α) (h : k < types.length) :
    inject types k x h = (types.take k).foldr ofTail (ofHead types[k] (types.drop (k + 1)) x) := by
  -- the alternative that stands first is the last one that was put before the value
  induction k generalizing types with
  | zero =>
    cases types with
    | nil => cases h
    | cons t others => rfl
  | succ k ih =>
    cases types with
    | nil => cases h
    | cons t others =>
      have hk : k < others.length := Nat.lt_of_succ_lt_succ h
      simp only [List.take_succ_cons, List.foldr_cons, List.getElem_cons_succ,
        List.drop_succ_cons]
      rw [← ih others hk]
      rfl

/-! ## Splitting -/

/-- Splitting by the tag, as it is done where a variant is only a tag and a storage: at tag 0 the
    head comes out, at another one the rest of the storage is put together with the tag before.
    There is no answer if the storage is not what the tag says. -/
def splitByParts (v : Variant α) : Except Fault (Option (Except (Variant α) α)) :=
  match v.tag, v.storage with
  | 0, .head x => .ok (some (.ok x))
  | tag + 1, .tail rest => (ofParts v.types.tail tag rest).map fun w => w.map .error
  | _, _ => .ok none

/-- The parts of a variant can be put together. -/
theorem ofParts_eq (v : Variant α) : ofParts v.types v.tag v.storage = .ok (some v) := by
  rw [ofParts, dif_pos v.tag_lt, dif_pos v.depth_eq]

/-- The parts that splitting leaves can be put together, and it always answers. -/
theorem splitByParts_eq (v : Variant α) : v.splitByParts = .ok (some v.split) := by
  obtain ⟨types, tag, storage, rfl, hlt⟩ := v
  cases storage with
  | head x => rfl
  | tail rest =>
    -- the tag before is in range of the types that are left over
    have hrest : rest.depth < types.tail.length := by
      rw [List.length_tail]
      simp only [Chain.depth] at hlt
      omega
    simp only [splitByParts, Chain.depth, ofParts, dif_pos hrest, split]
    rfl

/-- What came out of a split, put together again as one of the alternatives `t :: others`. -/
def rejoin (t : String) (others : List String) : Except (Variant α) α → Variant α
  | .ok x => ofHead t others x
  | .error rest => ofTail t rest

/-- What was split is put together again. -/
theorem rejoin_split (v : Variant α) {t : String} {others : List String}
    (h : v.types = t :: others) : rejoin t others v.split = v := by
  obtain ⟨types, tag, storage, rfl, hlt⟩ := v
  obtain rfl : types = t :: others := h
  cases storage <;> rfl

/-- The tags of the variants that are left over while alternatives are split off one by one, and the
    value that comes out at the end. -/
def unwind (v : Variant α) : List Nat × α :=
  match h : v.split with
  | .ok x => ([], x)
  | .error rest =>
    have := tag_of_split_error h
    (rest.tag :: rest.unwind.1, rest.unwind.2)
termination_by v.tag

/-- Before the value comes out, as many alternatives are split off as the tag says, and the tags
    that are left count down to 0. -/
theorem unwind_inject (types : List String) (k : Nat) (x : α) (h : k < types.length) :
    (inject types k x h).unwind = ((List.range k).reverse, x) := by
  -- each split takes the first type off the list and one off the tag
  induction k generalizing types with
  | zero => rw [unwind]; rfl
  | succ k ih =>
    have hrest : k < types.tail.length := by
      rw [List.length_tail]
      omega
    -- what is left is the value at the same place among the other alternatives
    have hsplit : (inject types (k + 1) x h).split = .error (inject types.tail k x hrest) := rfl
    rw [unwind]
    split
    · rename_i y hy
      rw [hsplit] at hy
      cases hy
    · rename_i rest hr
      rw [hsplit] at hr
      cases hr
      rw [ih types.tail hrest, List.range_succ, List.reverse_append]
      rfl

/-! ## Asking -/

/-- The value is read at the tag only. -/
theorem get_eq_ite (v : Variant α) (j : Nat) :
    v.get j = if j = v.tag then some v.storage.payload else none := by
  split
  · subst j
    exact v.get_tag
  · rename_i hj
    exact get_of_ne hj

/-- The value is overwritten at the tag only. At another number the variant refuses, and says which
    alternative it holds. -/
theorem set_eq_ite (v : Variant α) (j : Nat) (y : α) :
    v.set j y = if j = v.tag then .ok (v.storage.payload, v.refill y)
      else .error (.wrongAlternative j v.tag) := by
  split
  · subst j
    exact v.set_tag y
  · rename_i hj
    exact set_of_ne hj y

/-- At its tag a storage holds the value of the variant, and nothing at another one. -/
theorem storage_get?_eq_some_iff (v : Variant α) (k : Nat) (x : α) :
    v.storage.get? k = some x ↔ v.tag = k ∧ v.storage.payload = x := by
  rw [Chain.get?_eq, v.depth_eq]
  split <;> simp_all [eq_comm]

/-- Comparing at the tag of the first of two variants compares their values, if the other one holds
    the same alternative. -/
theorem eqAt_tag (same : α → α → Bool) (v w : Variant α) :
    v.storage.eqAt same v.tag w.storage = true ↔
      w.tag = v.tag ∧ same v.storage.payload w.storage.payload = true := by
  -- the other storage holds something at this place exactly if its tag says so
  simp only [Chain.eqAt_iff, v.storage_get?, storage_get?_eq_some_iff, Option.some.injEq]
  constructor
  · rintro ⟨_, _, rfl, ⟨htag, rfl⟩, hsame⟩
    exact ⟨htag, hsame⟩
  · rintro ⟨htag, hsame⟩
    exact ⟨_, _, rfl, ⟨htag, rfl⟩, hsame⟩

/-- To destroy the value of a variant is no fault. -/
theorem destroyAt_tag (v : Variant α) :
    v.storage.destroyAt v.types v.tag = .ok (some (v.typeName, v.storage.payload)) := by
  rw [Chain.destroyAt, if_pos v.tag_lt, Chain.destroyWithin_eq, v.storage_get?, typeName,
    List.getElem?_eq_getElem v.tag_lt]
  rfl

/-- Whatever is asked of the variant `v` comes to alternative `k`, whose type is `t` and whose value
    is `x`, and to no other. -/
structure Selects (v : Variant α) (k : Nat) (t : String) (x : α) : Prop where
  tag : v.tag = k
  /-- The value was made the first alternative, and `k` alternatives were put before it. -/
  built : v = (v.types.take k).foldr ofTail (ofHead t (v.types.drop (k + 1)) x)
  /-- An alternative is split off `k` times, which leaves the tags from `k - 1` down to 0. Then the
      value comes out. -/
  unwind : v.unwind = ((List.range k).reverse, x)
  /-- What was split once is put together again. -/
  rejoin : ∀ first others, v.types = first :: others → rejoin first others v.split = v
  get : ∀ j, v.get j = if j = k then some x else none
  tryGet : ∀ j, v.tryGet j = if j = k then .ok x else .error (.wrongAlternative j k)
  /-- A reference to the value overwrites it. -/
  edit : ∀ j y, v.edit j y = if j = k then some (x, v.refill y) else none
  set : ∀ j y, v.set j y =
    if j = k then .ok (x, v.refill y) else .error (.wrongAlternative j k)
  /-- What is not the active alternative gives the variant back. -/
  take : ∀ j, v.take j = if j = k then .ok x else .error v
  cloneAt : ∀ {β : Type} (copy : α → β),
    v.storage.cloneAt copy v.tag = some (Chain.inject k (copy x))
  eqAt : ∀ (same : α → α → Bool) (w : Variant α), w.tag = k →
    v.storage.eqAt same v.tag w.storage = same x w.storage.payload
  describeAt : ∀ {β : Type} (describe : α → β),
    v.storage.describeAt describe v.tag = some (describe x)
  unifyAt : ∀ {β : Type} (convert : Nat → α → β),
    v.storage.unifyAt convert v.tag = some (convert k x)
  /-- The value is destroyed as its own type, and the tag is in range. -/
  destroyAt : v.storage.destroyAt v.types v.tag = .ok (some (t, x))
  typeAt : typeAt v.types v.tag = .ok t
  /-- Variants are the same if their tags and their values are. -/
  sameAs : ∀ (same : α → α → Bool) (w : Variant α),
    v.sameAs same w = true ↔ k = w.tag ∧ same x w.storage.payload = true
  /-- The parts of the variant can be put together. -/
  ofParts : ofParts v.types v.tag v.storage = .ok (some v)
  /-- So can the parts that splitting leaves. -/
  splitByParts : v.splitByParts = .ok (some v.split)

/-- Whatever is asked of a variant comes to the alternative that its tag says. -/
theorem selects_tag (v : Variant α) : v.Selects v.tag v.typeName v.storage.payload where
  tag := rfl
  -- the name of the type is read with a default, so it is led back to the entry of the list first
  built := by
    have hname : v.typeName = v.types.get ⟨v.tag, v.tag_lt⟩ := by
      rw [typeName, List.getElem?_eq_getElem v.tag_lt]
      rfl
    rw [hname]
    exact v.inject_tag_payload.symm.trans (inject_eq_foldr v.types v.tag _ v.tag_lt)
  unwind := by
    have hunwind := unwind_inject v.types v.tag v.storage.payload v.tag_lt
    rwa [inject_tag_payload] at hunwind
  rejoin first others h := v.rejoin_split h
  get := v.get_eq_ite
  -- the two readings differ only in what they say of another alternative
  tryGet j := by
    rw [Variant.tryGet, get_eq_ite]
    split <;> simp_all
  edit j y := by
    rw [Variant.edit, set_eq_ite]
    split <;> rfl
  set := v.set_eq_ite
  take j := by
    rw [Variant.take, get_eq_ite]
    split <;> simp_all
  cloneAt copy := by rw [Chain.cloneAt_eq, v.storage_get?, Option.map_some]
  eqAt same w hw := by
    rw [Bool.eq_iff_iff, eqAt_tag]
    exact and_iff_right hw
  describeAt describe := by rw [Chain.describeAt_eq, v.storage_get?, Option.map_some]
  unifyAt convert := by rw [Chain.unifyAt_eq, v.storage_get?, Option.map_some]
  destroyAt := v.destroyAt_tag
  typeAt := by rw [Variant.typeAt, typeName, List.getElem?_eq_getElem v.tag_lt]; rfl
  -- that the tags are equal is asked twice, by the variants and by their storages
  sameAs same w := by
    rw [Variant.sameAs, Bool.and_eq_true, eqAt_tag, beq_iff_eq]
    exact ⟨fun h => ⟨h.1, h.2.2⟩, fun h => ⟨h.1, h.1.symm, h.2⟩⟩
  ofParts := v.ofParts_eq
  splitByParts := v.splitByParts_eq

/-- Take any alternatives, of which several may have one type, one of them, and a value of it. All
    that the variant of this value is asked comes to this alternative: building it from the inside
    out, splitting it, reading, exchanging and taking the value, cloning, comparing, describing,
    converting and destroying it and naming its type. What is asked of another alternative is
    refused. No tag is out of range on the way. And however a variant came about, it is such a
    one. -/
theorem inject_selects (types : List String) (k : Nat) (h : k < types.length) (x : α) :
    (inject types k x h).Selects k types[k] x ∧
      ∀ v : Variant α, v.Selects v.tag v.typeName v.storage.payload := by
  refine ⟨?_, selects_tag⟩
  -- all is known of a variant at its own tag: left to show are its type and its value
  have hname : (inject types k x h).typeName = types[k] := by
    rw [typeName]
    simp only [inject]
    rw [List.getElem?_eq_getElem h]
    rfl
  have hpayload : (inject types k x h).storage.payload = x := Chain.payload_inject k x
  have hselects := selects_tag (inject types k x h)
  rwa [hname, hpayload] at hselects

/-- Of two alternatives of one type the second is found under its own number only. -/
theorem inject_selects_repeated :
    2 < ["u8", "char", "u8"].length ∧
      (inject ["u8", "char", "u8"] 2 'x' (by decide)).unwind = ([1, 0], 'x') ∧
      (inject ["u8", "char", "u8"] 2 'x' (by decide)).tryGet 0 =
        .error (.wrongAlternative 0 2) ∧
      (inject ["u8", "char", "u8"] 2 'x' (by decide)).take 2 = .ok 'x' := by
  have hk : 2 < ["u8", "char", "u8"].length := by decide
  obtain ⟨hselects, -⟩ := inject_selects ["u8", "char", "u8"] 2 hk 'x'
  exact ⟨hk, hselects.unwind, hselects.tryGet 0, hselects.take 2⟩

end Variant

end ParserKit
