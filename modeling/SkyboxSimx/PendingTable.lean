import Mathlib.Data.Multiset.Basic

/-!
# The pending table

`HashTable<T>` of `types.h`: a fixed vector of (occupied, value) slots and a
separate counter `size_`. `empty()` and `full()` read only the counter, so they
answer right exactly while the counter equals the number of occupied slots.
That holds along every sequence of calls that respects the asserts: `allocate`
after a `full()` check, `release` and `at` on an occupied slot. A released slot
keeps its stale value; only its flag is cleared.
-/

namespace PendingTable

/-- `filterMap` after a `set`, counted as multisets. -/
theorem filterMap_set {α β : Type} (f : α → Option β) : ∀ (l : List α) (i : Nat) (x : α),
    i < l.length →
    (((l.set i x).filterMap f : List β) : Multiset β) + (l[i]?.bind f).toList =
      (l.filterMap f : Multiset β) + (f x).toList
  | a :: l, 0, x, _ => by
    cases fa : f a <;> cases fx : f x <;>
      simp [fa, fx, List.filterMap_cons, ← Multiset.cons_coe, ← Multiset.singleton_add,
        add_comm, add_left_comm, add_assoc]
  | a :: l, i + 1, x, h => by
    have ih := filterMap_set f l i x (by simpa using h)
    cases fa : f a <;> simp_all [List.filterMap_cons, ← Multiset.cons_coe, Multiset.cons_add]

structure HashTable (T : Type) where
  entries : List (Bool × T)
  size : Nat

/-- The value a slot holds, if it is occupied. -/
def HashTable.slotValue {T : Type} (e : Bool × T) : Option T := if e.1 then some e.2 else none

/-- `at(index)`; `none` where `entries_.at` throws or `assert(entry.first)` fails. -/
def HashTable.at {T : Type} (t : HashTable T) (index : Nat) : Option T :=
  t.entries[index]?.bind HashTable.slotValue

namespace HashTable

variable {T : Type}

/-- `HashTable(capacity)`: every slot free. -/
def new [Inhabited T] (capacity : Nat) : HashTable T :=
  ⟨List.replicate capacity (false, default), 0⟩

def empty (t : HashTable T) : Bool := 0 == t.size

def full (t : HashTable T) : Bool := t.size == t.entries.length

/-- A store through the reference that `at(index)` returns. -/
def write (t : HashTable T) (index : Nat) (value : T) : HashTable T :=
  ⟨t.entries.set index (true, value), t.size⟩

/-- `allocate(value)`: the first free slot; `none` is the `assert(false)` branch. -/
def allocate (t : HashTable T) (value : T) : Option (Nat × HashTable T) :=
  (t.entries.findIdx? fun e => !e.1).map fun i =>
    (i, ⟨t.entries.set i (true, value), t.size + 1⟩)

/-- `release(index)`; `none` where the asserts of `at` would fail. -/
def release (t : HashTable T) (index : Nat) : Option (HashTable T) :=
  (t.at index).map fun v => ⟨t.entries.set index (false, v), t.size - 1⟩

def clear (t : HashTable T) : HashTable T :=
  ⟨t.entries.map fun e => (false, e.2), 0⟩

/-- The values of the occupied slots. -/
def held (t : HashTable T) : Multiset T := ↑(t.entries.filterMap slotValue)

@[simp] theorem slotValue_true (v : T) : slotValue (true, v) = some v := rfl

@[simp] theorem slotValue_false (v : T) : slotValue (false, v) = none := rfl

@[simp] theorem new_at [Inhabited T] (capacity i : Nat) : (new capacity : HashTable T).at i = none := by
  simp only [new, HashTable.at, List.getElem?_replicate]
  split <;> rfl

@[simp] theorem new_held [Inhabited T] (capacity : Nat) : (new capacity : HashTable T).held = 0 := by
  simp [new, held, List.filterMap_replicate]

@[simp] theorem new_length [Inhabited T] (capacity : Nat) :
    (new capacity : HashTable T).entries.length = capacity := by
  simp [new]

@[simp] theorem clear_at (t : HashTable T) (i : Nat) : t.clear.at i = none := by
  simp only [clear, HashTable.at, List.getElem?_map]
  cases t.entries[i]? <;> rfl

@[simp] theorem clear_length (t : HashTable T) : t.clear.entries.length = t.entries.length := by
  simp [clear]

@[simp] theorem write_length (t : HashTable T) (i : Nat) (v : T) :
    (t.write i v).entries.length = t.entries.length := by
  simp [write]

theorem lt_length_of_at {t : HashTable T} {i : Nat} {v : T} (h : t.at i = some v) :
    i < t.entries.length := by
  by_contra hi
  simp [HashTable.at, List.getElem?_eq_none (Nat.le_of_not_lt hi)] at h

theorem at_set (t : HashTable T) (i j : Nat) (e : Bool × T) (hi : i < t.entries.length) :
    (⟨t.entries.set i e, t.size⟩ : HashTable T).at j = if j = i then slotValue e else t.at j := by
  by_cases h : j = i
  · subst h; simp [HashTable.at, hi]
  · simp [HashTable.at, h, List.getElem?_set_ne (Ne.symm h)]

/-- The multiset of held values after overwriting one slot. -/
theorem held_set (t : HashTable T) (i : Nat) (e : Bool × T) (hi : i < t.entries.length) (s : Nat) :
    (⟨t.entries.set i e, s⟩ : HashTable T).held + (t.at i).toList = t.held + (slotValue e).toList :=
  filterMap_set slotValue t.entries i e hi

theorem card_held (t : HashTable T) : Multiset.card t.held = t.entries.countP (·.1) := by
  simp only [held, Multiset.coe_card, List.length_filterMap_eq_countP]
  congr
  funext ⟨b, v⟩
  cases b <;> rfl

theorem at_isSome_iff_of_lt {t : HashTable T} {i : Nat} (hi : i < t.entries.length) :
    (t.at i).isSome ↔ t.entries[i].1 = true := by
  simp only [HashTable.at, List.getElem?_eq_getElem hi, Option.some_bind, slotValue]
  split <;> simp_all

theorem at_isSome_iff {t : HashTable T} {i : Nat} :
    (t.at i).isSome ↔ ∃ h : i < t.entries.length, t.entries[i].1 = true := by
  by_cases hi : i < t.entries.length
  · simp [at_isSome_iff_of_lt hi, hi]
  · simp [HashTable.at, List.getElem?_eq_none (Nat.le_of_not_lt hi), hi]

/-- What a successful `allocate` did: it took the least free slot and stored the value. -/
theorem allocate_eq_some {t t' : HashTable T} {v : T} {i : Nat}
    (h : t.allocate v = some (i, t')) :
    i < t.entries.length ∧ t.at i = none ∧ (∀ j < i, (t.at j).isSome) ∧
      t' = ⟨t.entries.set i (true, v), t.size + 1⟩ := by
  simp only [allocate, Option.map_eq_some', Prod.mk.injEq] at h
  obtain ⟨k, hk, rfl, rfl⟩ := h
  obtain ⟨hlt, hfree, hleast⟩ := List.findIdx?_eq_some_iff_getElem.mp hk
  refine ⟨hlt, ?_, fun j hj => ?_, rfl⟩
  · simpa [← Option.not_isSome_iff_eq_none, at_isSome_iff_of_lt hlt] using hfree
  · simpa [at_isSome_iff_of_lt (Nat.lt_trans hj hlt)] using hleast j hj

theorem allocate_eq_none_iff {t : HashTable T} {v : T} :
    t.allocate v = none ↔ ∀ e ∈ t.entries, e.1 = true := by
  simp only [allocate, Option.map_eq_none', List.findIdx?_eq_none_iff, Bool.not_eq_false']

theorem release_eq_some {t t' : HashTable T} {i : Nat} (h : t.release i = some t') :
    ∃ v, t.at i = some v ∧ t' = ⟨t.entries.set i (false, v), t.size - 1⟩ := by
  simp only [release, Option.map_eq_some'] at h
  obtain ⟨v, hv, rfl⟩ := h
  exact ⟨v, hv, rfl⟩

theorem release_isSome {t : HashTable T} {i : Nat} : (t.release i).isSome = (t.at i).isSome := by
  simp [release]

/-- The view after `allocate`: only the granted slot changed. -/
theorem allocate_at {t t' : HashTable T} {v : T} {i : Nat} (h : t.allocate v = some (i, t'))
    (j : Nat) : t'.at j = if j = i then some v else t.at j := by
  obtain ⟨hi, -, -, rfl⟩ := allocate_eq_some h
  exact at_set t i j _ hi

theorem release_at {t t' : HashTable T} {i : Nat} (h : t.release i = some t') (j : Nat) :
    t'.at j = if j = i then none else t.at j := by
  obtain ⟨v, hv, rfl⟩ := release_eq_some h
  exact at_set t i j _ (lt_length_of_at hv)

theorem write_at {t : HashTable T} {i : Nat} (hv : (t.at i).isSome) (w : T) (j : Nat) :
    (t.write i w).at j = if j = i then some w else t.at j := by
  obtain ⟨hi, -⟩ := at_isSome_iff.mp hv
  exact at_set t i j _ hi

theorem allocate_held {t t' : HashTable T} {v : T} {i : Nat} (h : t.allocate v = some (i, t')) :
    t'.held = v ::ₘ t.held := by
  obtain ⟨hi, hfree, -, rfl⟩ := allocate_eq_some h
  simpa [hfree, ← Multiset.singleton_add, add_comm] using held_set t i (true, v) hi (t.size + 1)

theorem release_held {t t' : HashTable T} {i : Nat} {v : T} (h : t.release i = some t')
    (hv : t.at i = some v) : t.held = v ::ₘ t'.held := by
  obtain ⟨w, hw, rfl⟩ := release_eq_some h
  obtain rfl : w = v := Option.some.inj (hw.symm.trans hv)
  simpa [hv, ← Multiset.singleton_add, add_comm] using (held_set t i (false, w) (lt_length_of_at hv) _).symm

theorem write_held {t : HashTable T} {i : Nat} {v : T} (hv : t.at i = some v) (w : T) :
    (t.write i w).held + {v} = t.held + {w} := by
  simpa [hv] using held_set t i (true, w) (lt_length_of_at hv) t.size

theorem mem_held_of_at {t : HashTable T} {i : Nat} {v : T} (hv : t.at i = some v) : v ∈ t.held := by
  have h := held_set t i (false, v) (lt_length_of_at hv) t.size
  rw [hv] at h
  have hmem : v ∈ t.held + (slotValue (false, v)).toList := by
    rw [← h]; simp
  simpa using hmem

/-- Storing through `at(i)` and then releasing slot `i` removes what the slot held. -/
theorem write_release_held {t t' : HashTable T} {i : Nat} {v : T} (hv : t.at i = some v) {w : T}
    (h : (t.write i w).release i = some t') : t.held = v ::ₘ t'.held := by
  have hw : (t.write i w).at i = some w := by simpa using write_at (Option.isSome_iff_exists.mpr ⟨v, hv⟩) w i
  have hsum := write_held hv w
  rw [release_held h hw, add_comm t.held, Multiset.singleton_add, Multiset.cons_add,
    Multiset.cons_inj_right, add_comm, Multiset.singleton_add] at hsum
  exact hsum.symm

@[simp] theorem clear_held (t : HashTable T) : t.clear.held = 0 := by
  simp [clear, held, List.filterMap_map, Function.comp_def]

theorem card_held_eq_zero_iff (t : HashTable T) :
    Multiset.card t.held = 0 ↔ ∀ i, t.at i = none := by
  rw [card_held, List.countP_eq_zero, List.forall_mem_iff_getElem]
  simp only [← Option.not_isSome_iff_eq_none, at_isSome_iff, not_exists]

theorem card_held_eq_length_iff (t : HashTable T) :
    Multiset.card t.held = t.entries.length ↔ ∀ i < t.entries.length, (t.at i).isSome := by
  rw [card_held, List.countP_eq_length, List.forall_mem_iff_getElem]
  exact forall₂_congr fun i hi => (at_isSome_iff_of_lt hi).symm

/-- The representation invariant: `size_` counts the occupied slots. -/
def Counted (t : HashTable T) : Prop := t.size = Multiset.card t.held

theorem empty_iff {t : HashTable T} (c : t.Counted) : t.empty = true ↔ ∀ i, t.at i = none := by
  rw [← card_held_eq_zero_iff, ← c]
  exact beq_iff_eq.trans eq_comm

theorem full_iff {t : HashTable T} (c : t.Counted) :
    t.full = true ↔ ∀ i < t.entries.length, (t.at i).isSome := by
  rw [← card_held_eq_length_iff, ← c]
  exact beq_iff_eq

theorem allocate_isSome {t : HashTable T} (c : t.Counted) (hf : t.full = false) (v : T) :
    (t.allocate v).isSome := by
  cases h : t.allocate v with
  | some _ => rfl
  | none =>
    have hall : Multiset.card t.held = t.entries.length :=
      (card_held t).trans (List.countP_eq_length.mpr (allocate_eq_none_iff.mp h))
    simp only [full, beq_eq_false_iff_ne, ne_eq] at hf
    exact absurd (c.trans hall) hf

theorem Counted.allocate {t t' : HashTable T} {v : T} {i : Nat} (c : t.Counted)
    (h : t.allocate v = some (i, t')) : t'.Counted := by
  have hheld := allocate_held h
  obtain ⟨-, -, -, rfl⟩ := allocate_eq_some h
  simpa [Counted, hheld] using c

theorem Counted.release {t t' : HashTable T} {i : Nat} (c : t.Counted)
    (h : t.release i = some t') : t'.Counted := by
  obtain ⟨v, hv, rfl⟩ := release_eq_some h
  have hheld := release_held h hv
  simp only [Counted, hheld, Multiset.card_cons] at c ⊢
  omega

theorem Counted.write {t : HashTable T} {i : Nat} {v : T} (c : t.Counted) (hv : t.at i = some v)
    (w : T) : (t.write i w).Counted := by
  have hcard := congrArg Multiset.card (write_held hv w)
  simp only [Multiset.card_add, Multiset.card_singleton, add_left_inj] at hcard
  simpa [Counted, write, hcard] using c

theorem Counted.clear (t : HashTable T) : t.clear.Counted := by
  show 0 = Multiset.card t.clear.held
  simp

end HashTable

/-- A call on the table, as the LSU makes them. -/
inductive Op (T : Type)
  | allocate (value : T)
  | release (index : Nat)
  /-- `at(index)`, storing `f` of the value back through the returned reference. -/
  | atRef (index : Nat) (f : T → T)
  | clear

namespace HashTable

variable {T : Type}

def apply (t : HashTable T) : Op T → Option (HashTable T)
  | .allocate v => (t.allocate v).map Prod.snd
  | .release i => t.release i
  | .atRef i f => (t.at i).map fun v => t.write i (f v)
  | .clear => some t.clear

/-- The callers' side of the asserts: `allocate` after `!full()`, the others on an occupied slot. -/
def Allowed (t : HashTable T) : Op T → Prop
  | .allocate _ => t.full = false
  | .release i => (t.at i).isSome
  | .atRef i _ => (t.at i).isSome
  | .clear => True

/-- The tables reachable from `HashTable(capacity)` by allowed calls. -/
inductive Reachable [Inhabited T] (capacity : Nat) : HashTable T → Prop
  | new : Reachable capacity (new capacity)
  | apply {t t' : HashTable T} {o : Op T} :
      Reachable capacity t → t.Allowed o → t.apply o = some t' → Reachable capacity t'

theorem Counted.apply {t t' : HashTable T} {o : Op T} (c : t.Counted)
    (h : t.apply o = some t') : t'.Counted := by
  cases o with
  | allocate v =>
    obtain ⟨⟨i, t''⟩, ha, rfl⟩ := Option.map_eq_some'.mp h
    exact c.allocate ha
  | release i => exact c.release h
  | atRef i f =>
    obtain ⟨v, hv, rfl⟩ := Option.map_eq_some'.mp h
    exact c.write hv (f v)
  | clear => cases h; exact Counted.clear t

theorem apply_length {t t' : HashTable T} {o : Op T} (h : t.apply o = some t') :
    t'.entries.length = t.entries.length := by
  cases o with
  | allocate v =>
    obtain ⟨⟨i, t''⟩, ha, rfl⟩ := Option.map_eq_some'.mp h
    obtain ⟨-, -, -, rfl⟩ := allocate_eq_some ha
    simp
  | release i =>
    obtain ⟨v, -, rfl⟩ := release_eq_some h
    simp
  | atRef i f =>
    obtain ⟨v, -, rfl⟩ := Option.map_eq_some'.mp h
    simp
  | clear => cases h; simp

theorem Reachable.counted [Inhabited T] {n : Nat} {t : HashTable T} (reach : t.Reachable n) :
    t.Counted ∧ t.entries.length = n := by
  induction reach with
  | new => exact ⟨show 0 = Multiset.card (HashTable.new n : HashTable T).held by simp, new_length n⟩
  | apply _ _ h ih => exact ⟨ih.1.apply h, (apply_length h).trans ih.2⟩

/-- What a table of capacity `n` guarantees its callers: `size_` counts the occupied slots, so
`empty()` and `full()` are exact; `allocate` never reaches `assert(false)`, takes the least free
slot and stores the value there only; `release(i)` frees slot `i` only; `clear` frees all.
Occupied slots, the tags of the LSU's outstanding loads, are below the capacity. -/
structure Sound (n : Nat) (t : HashTable T) : Prop where
  size_eq : t.size = t.entries.countP (·.1)
  length_eq : t.entries.length = n
  empty_iff : t.empty = true ↔ ∀ i, t.at i = none
  full_iff : t.full = true ↔ ∀ i < n, (t.at i).isSome
  allocate_least : ∀ v, t.full = false → ∃ i t', t.allocate v = some (i, t') ∧ i < n ∧
    t.at i = none ∧ (∀ j < i, (t.at j).isSome) ∧ ∀ j, t'.at j = if j = i then some v else t.at j
  release_only : ∀ i, (t.at i).isSome → i < n ∧
    ∃ t', t.release i = some t' ∧ ∀ j, t'.at j = if j = i then none else t.at j
  clear_frees : ∀ j, t.clear.at j = none

/-- Along every allowed sequence of calls from `HashTable(n)` the table is sound. -/
theorem Reachable.sound [Inhabited T] {n : Nat} {t : HashTable T} (reach : t.Reachable n) :
    t.Sound n := by
  obtain ⟨c, hn⟩ := reach.counted
  subst hn
  refine ⟨c.trans (card_held t), rfl, empty_iff c, full_iff c, fun v hf => ?_, fun i hi => ?_,
    clear_at t⟩
  · obtain ⟨⟨i, t'⟩, ha⟩ := Option.isSome_iff_exists.mp (allocate_isSome c hf v)
    obtain ⟨hlt, hfree, hleast, -⟩ := allocate_eq_some ha
    exact ⟨i, t', ha, hlt, hfree, hleast, allocate_at ha⟩
  · obtain ⟨t', hr⟩ := Option.isSome_iff_exists.mp (release_isSome ▸ hi)
    exact ⟨(at_isSome_iff.mp hi).1, t', hr, release_at hr⟩

end HashTable

end PendingTable
