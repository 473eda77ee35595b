import Mathlib.Logic.Function.Basic

/- FJFixMap: a table of entries sorted by key inside a caller's buffer. An address
   returned by insert or find is the index of an entry; insert and unset move entries. -/
namespace FixMap
variable {V : Type}

structure Entry (V : Type) where
  key : Nat
  value : V

structure FJFixMap (V : Type) where
  entries : Nat → Entry V
  count : Nat

/-- Binary search; -1 is none. The fuel count is enough, see findIndex_eq_some. -/
def findIndexFrom (m : FJFixMap V) (key : Nat) : Nat → Nat → Nat → Option Nat
  | 0, _, _ => none
  | fuel + 1, left, right =>
    if left < right then
      let mid := (left + right) / 2
      if (m.entries mid).key = key then some mid
      else if (m.entries mid).key < key then findIndexFrom m key fuel (mid + 1) right
      else findIndexFrom m key fuel left mid
    else none

def findIndex (m : FJFixMap V) (key : Nat) : Option Nat := findIndexFrom m key m.count 0 m.count

def insertPosFrom (m : FJFixMap V) (key : Nat) : Nat → Nat → Nat
  | 0, pos => pos
  | fuel + 1, pos =>
    if pos < m.count ∧ (m.entries pos).key < key then insertPosFrom m key fuel (pos + 1) else pos

def insertPos (m : FJFixMap V) (key : Nat) : Nat := insertPosFrom m key m.count 0

/-- for (i = n; i > pos; --i) entries_[i] = entries_[i - 1] -/
def shiftUp (pos : Nat) : Nat → (Nat → Entry V) → Nat → Entry V
  | 0, entries => entries
  | i + 1, entries =>
    if i + 1 > pos then shiftUp pos i (Function.update entries (i + 1) (entries i)) else entries

/-- for (; i + 1 < count; ++i) entries_[i] = entries_[i + 1] -/
def shiftDown (count : Nat) : Nat → Nat → (Nat → Entry V) → Nat → Entry V
  | 0, _, entries => entries
  | fuel + 1, i, entries =>
    if i + 1 < count then
      shiftDown count fuel (i + 1) (Function.update entries i (entries (i + 1)))
    else entries

/-- The assertion on the capacity is the failure. A new entry keeps the bytes its slot had. -/
def insert (capacity : Nat) (m : FJFixMap V) (key : Nat) : Option (FJFixMap V × Nat) :=
  match findIndex m key with
  | some i => some (m, i)
  | none =>
    if m.count < capacity then
      let pos := insertPos m key
      let shifted := shiftUp pos m.count m.entries
      some (⟨Function.update shifted pos ⟨key, (shifted pos).value⟩, m.count + 1⟩, pos)
    else none

def unset (m : FJFixMap V) (key : Nat) : FJFixMap V × Bool :=
  match findIndex m key with
  | none => (m, false)
  | some i => (⟨shiftDown m.count m.count i m.entries, m.count - 1⟩, true)

def write (m : FJFixMap V) (i : Nat) (value : V) : FJFixMap V :=
  { m with entries := Function.update m.entries i ⟨(m.entries i).key, value⟩ }

def Sorted (m : FJFixMap V) : Prop :=
  ∀ i j, i < j → j < m.count → (m.entries i).key < (m.entries j).key

structure Cut (m : FJFixMap V) (key r : Nat) : Prop where
  bound : r ≤ m.count
  below : ∀ i, i < r → (m.entries i).key < key
  above : ∀ i, r ≤ i → i < m.count → key ≤ (m.entries i).key

def Present (m : FJFixMap V) (key : Nat) : Prop :=
  ∃ i, i < m.count ∧ (m.entries i).key = key

theorem sorted_injective {m : FJFixMap V} (sorted : Sorted m) {i j : Nat} (hi : i < m.count)
    (hj : j < m.count) (same : (m.entries i).key = (m.entries j).key) : i = j := by
  rcases Nat.lt_trichotomy i j with less | eq | more
  · have := sorted i j less hj
    omega
  · exact eq
  · have := sorted j i more hi
    omega

theorem findIndexFrom_sound {m : FJFixMap V} {key fuel left right i : Nat}
    (bound : right ≤ m.count) (found : findIndexFrom m key fuel left right = some i) :
    i < m.count ∧ (m.entries i).key = key := by
  induction fuel generalizing left right with
  | zero => simp [findIndexFrom] at found
  | succ fuel ih =>
    simp only [findIndexFrom] at found
    split at found
    · split at found
      · rename_i hit
        simp only [Option.some.injEq] at found
        subst found
        exact ⟨by omega, hit⟩
      · split at found
        · exact ih bound found
        · exact ih (by omega) found
    · simp at found

/-- The interval keeps the entry and halves; it is found before the fuel runs out. -/
theorem findIndexFrom_complete {m : FJFixMap V} (sorted : Sorted m) {fuel left right i : Nat}
    (lower : left ≤ i) (upper : i < right) (bound : right ≤ m.count) (budget : right ≤ left + fuel) :
    findIndexFrom m (m.entries i).key fuel left right = some i := by
  induction fuel generalizing left right with
  | zero => omega
  | succ fuel ih =>
    simp only [findIndexFrom]
    rw [if_pos (by omega)]
    split
    · rename_i hit
      rw [sorted_injective sorted (by omega) (by omega) hit]
    · rename_i miss
      split
      · rename_i less
        have after : (left + right) / 2 < i := by
          rcases Nat.lt_trichotomy ((left + right) / 2) i with before | eq | later
          · exact before
          · exact absurd (congrArg (fun k => (m.entries k).key) eq) miss
          · have := sorted i _ later (by omega)
            omega
        exact ih (by omega) upper bound (by omega)
      · rename_i more
        have before : i < (left + right) / 2 := by
          rcases Nat.lt_trichotomy ((left + right) / 2) i with less | eq | later
          · have := sorted _ i less (by omega)
            omega
          · exact absurd (congrArg (fun k => (m.entries k).key) eq) miss
          · exact later
        exact ih lower before (by omega) (by omega)

theorem findIndex_eq_some {m : FJFixMap V} (sorted : Sorted m) {key i : Nat} :
    findIndex m key = some i ↔ i < m.count ∧ (m.entries i).key = key := by
  constructor
  · exact findIndexFrom_sound (Nat.le_refl _)
  · rintro ⟨bound, rfl⟩
    exact findIndexFrom_complete sorted (Nat.zero_le i) bound (Nat.le_refl _) (by omega)

theorem findIndex_eq_none {m : FJFixMap V} (sorted : Sorted m) {key : Nat} :
    findIndex m key = none ↔ ¬ Present m key := by
  rw [Option.eq_none_iff_forall_ne_some]
  constructor
  · rintro absent ⟨i, here⟩
    exact absent i ((findIndex_eq_some sorted).mpr here)
  · intro absent i found
    exact absent ⟨i, (findIndex_eq_some sorted).mp found⟩

theorem cut_unique {m : FJFixMap V} {key r r' : Nat} (first : Cut m key r) (second : Cut m key r') :
    r = r' := by
  have := first.bound
  have := second.bound
  rcases Nat.lt_trichotomy r r' with less | eq | more
  · have := second.below r less
    have := first.above r (Nat.le_refl _) (by omega)
    omega
  · exact eq
  · have := first.below r' more
    have := second.above r' (Nat.le_refl _) (by omega)
    omega

theorem cut_of_key {m : FJFixMap V} (sorted : Sorted m) {i : Nat} (bound : i < m.count) :
    Cut m (m.entries i).key i where
  bound := by omega
  below j less := sorted j i less bound
  above j le within := by
    rcases Nat.eq_or_lt_of_le le with rfl | less
    · exact Nat.le_refl _
    · exact Nat.le_of_lt (sorted i j less within)

theorem key_at_cut {m : FJFixMap V} (sorted : Sorted m) {key r : Nat} (cut : Cut m key r)
    (present : Present m key) : r < m.count ∧ (m.entries r).key = key := by
  obtain ⟨i, bound, rfl⟩ := present
  have same := cut_unique cut (cut_of_key sorted bound)
  subst same
  exact ⟨bound, rfl⟩

theorem insertPosFrom_cut {m : FJFixMap V} (sorted : Sorted m) {key fuel pos : Nat}
    (bound : pos ≤ m.count) (below : ∀ i, i < pos → (m.entries i).key < key)
    (budget : m.count ≤ pos + fuel) : Cut m key (insertPosFrom m key fuel pos) := by
  induction fuel generalizing pos with
  | zero =>
    rw [insertPosFrom]
    exact ⟨bound, below, fun i le within => absurd within (by omega)⟩
  | succ fuel ih =>
    simp only [insertPosFrom]
    split
    · rename_i advance
      apply ih (by omega) _ (by omega)
      intro i less
      rcases Nat.eq_or_lt_of_le (Nat.le_of_lt_succ less) with rfl | earlier
      · exact advance.2
      · exact below i earlier
    · rename_i stop
      refine ⟨bound, below, ?_⟩
      intro i le within
      have first : key ≤ (m.entries pos).key := by
        refine Nat.le_of_not_lt fun less => stop ⟨by omega, less⟩
      rcases Nat.eq_or_lt_of_le le with rfl | later
      · exact first
      · have := sorted pos i later within
        omega

theorem insertPos_cut {m : FJFixMap V} (sorted : Sorted m) (key : Nat) :
    Cut m key (insertPos m key) :=
  insertPosFrom_cut sorted (Nat.zero_le _) (fun i less => absurd less (Nat.not_lt_zero i)) (by omega)

theorem shiftUp_apply (pos n : Nat) (entries : Nat → Entry V) (j : Nat) :
    shiftUp pos n entries j = if pos < j ∧ j ≤ n then entries (j - 1) else entries j := by
  induction n generalizing entries with
  | zero =>
    rw [shiftUp, if_neg (by omega)]
  | succ n ih =>
    rw [shiftUp]
    split
    · rw [ih]
      by_cases last : j = n + 1
      · subst last
        rw [if_neg (by omega), if_pos (by omega)]
        simp
      · split
        · rw [if_pos (by omega), Function.update_of_ne (by omega)]
        · rw [if_neg (by omega), Function.update_of_ne last]
    · rw [if_neg (by omega)]

theorem shiftDown_apply (count fuel i : Nat) (entries : Nat → Entry V) (budget : count ≤ i + fuel)
    (j : Nat) : shiftDown count fuel i entries j =
      if i ≤ j ∧ j + 1 < count then entries (j + 1) else entries j := by
  induction fuel generalizing i entries with
  | zero => rw [shiftDown, if_neg (by omega)]
  | succ fuel ih =>
    rw [shiftDown]
    split
    · rw [ih (i + 1) _ (by omega)]
      by_cases first : j = i
      · subst first
        rw [if_neg (by omega), if_pos (by omega)]
        simp
      · split
        · rw [if_pos (by omega), Function.update_of_ne (by omega)]
        · rw [if_neg (by omega), Function.update_of_ne first]
    · rw [if_neg (by omega)]

theorem insert_of_present {m : FJFixMap V} (capacity : Nat) (sorted : Sorted m) {key : Nat}
    (present : Present m key) : ∃ i, findIndex m key = some i ∧
      insert capacity m key = some (m, i) := by
  obtain ⟨i, here⟩ := present
  have found := (findIndex_eq_some sorted).mpr here
  exact ⟨i, found, by simp [insert, found]⟩

/-- Insertion of a new key: the entries from its cut on move up by one slot. -/
theorem insert_of_absent {m m' : FJFixMap V} (sorted : Sorted m) {capacity key pos : Nat}
    (absent : ¬ Present m key) (inserted : insert capacity m key = some (m', pos)) :
    m.count < capacity ∧ Cut m key pos ∧ m'.count = m.count + 1 ∧
      (∀ j, j < pos → m'.entries j = m.entries j) ∧
      m'.entries pos = ⟨key, (m.entries pos).value⟩ ∧
      ∀ j, pos ≤ j → j < m.count → m'.entries (j + 1) = m.entries j := by
  simp only [insert, (findIndex_eq_none sorted).mpr absent] at inserted
  split at inserted
  · rename_i room
    simp only [Option.some.injEq, Prod.mk.injEq] at inserted
    obtain ⟨rfl, rfl⟩ := inserted
    refine ⟨room, insertPos_cut sorted key, rfl, ?_, ?_, ?_⟩
    · intro j less
      dsimp only
      rw [Function.update_of_ne (by omega), shiftUp_apply, if_neg (by omega)]
    · dsimp only
      rw [Function.update_self, shiftUp_apply, if_neg (by omega)]
    · intro j le within
      dsimp only
      rw [Function.update_of_ne (by omega), shiftUp_apply, if_pos (by omega)]
      rfl
  · simp at inserted

theorem insert_sorted {m m' : FJFixMap V} (sorted : Sorted m) {capacity key pos : Nat}
    (inserted : insert capacity m key = some (m', pos)) : Sorted m' := by
  by_cases present : Present m key
  · obtain ⟨i, _, same⟩ := insert_of_present capacity sorted present
    simp only [inserted, Option.some.injEq, Prod.mk.injEq] at same
    exact same.1 ▸ sorted
  · obtain ⟨_, cut, count, before, at_pos, after⟩ := insert_of_absent sorted present inserted
    have apart : ∀ j, j < m.count → (m.entries j).key ≠ key := fun j bound eq => present ⟨j, bound, eq⟩
    intro i j less bound
    rcases Nat.lt_trichotomy j pos with low | rfl | high
    · rw [before i (by omega), before j low]
      exact sorted i j less (by have := cut.bound; omega)
    · rw [before i less, at_pos]
      exact cut.below i less
    · have moved := after (j - 1) (by omega) (by omega)
      rw [Nat.sub_add_cancel (by omega)] at moved
      rw [moved]
      rcases Nat.lt_trichotomy i pos with low | rfl | later
      · rw [before i low]
        exact sorted i (j - 1) (by omega) (by omega)
      · rw [at_pos]
        have := cut.above (j - 1) (by omega) (by omega)
        have := apart (j - 1) (by omega)
        simp only
        omega
      · have moved' := after (i - 1) (by omega) (by omega)
        rw [Nat.sub_add_cancel (by omega)] at moved'
        rw [moved']
        exact sorted (i - 1) (j - 1) (by omega) (by omega)

theorem insert_at {m m' : FJFixMap V} (sorted : Sorted m) {capacity key pos : Nat}
    (inserted : insert capacity m key = some (m', pos)) :
    pos < m'.count ∧ (m'.entries pos).key = key := by
  by_cases present : Present m key
  · obtain ⟨i, found, same⟩ := insert_of_present capacity sorted present
    simp only [inserted, Option.some.injEq, Prod.mk.injEq] at same
    obtain ⟨rfl, rfl⟩ := same
    exact (findIndex_eq_some sorted).mp found
  · obtain ⟨_, cut, count, _, at_pos, _⟩ := insert_of_absent sorted present inserted
    exact ⟨by have := cut.bound; omega, by rw [at_pos]⟩

theorem insert_cut {m m' : FJFixMap V} (sorted : Sorted m) {capacity key pos other r : Nat}
    (inserted : insert capacity m key = some (m', pos)) (cut : Cut m other r)
    (upper : other ≤ key) : Cut m' other r := by
  by_cases present : Present m key
  · obtain ⟨i, _, same⟩ := insert_of_present capacity sorted present
    simp only [inserted, Option.some.injEq, Prod.mk.injEq] at same
    exact same.1 ▸ cut
  · obtain ⟨_, place, count, before, at_pos, after⟩ := insert_of_absent sorted present inserted
    have low : r ≤ pos := by
      apply Nat.le_of_not_lt
      intro less
      have := place.above pos (Nat.le_refl _) (by have := cut.bound; omega)
      have := cut.below pos less
      omega
    refine ⟨by have := cut.bound; omega, ?_, ?_⟩
    · intro i less
      rw [before i (by omega)]
      exact cut.below i less
    · intro i le within
      rcases Nat.lt_trichotomy i pos with less | rfl | more
      · rw [before i less]
        exact cut.above i le (by have := place.bound; omega)
      · rw [at_pos]
        exact upper
      · have moved := after (i - 1) (by omega) (by omega)
        rw [Nat.sub_add_cancel (by omega)] at moved
        rw [moved]
        exact cut.above (i - 1) (by omega) (by omega)

theorem insert_present {m m' : FJFixMap V} (sorted : Sorted m) {capacity key pos other : Nat}
    (inserted : insert capacity m key = some (m', pos)) :
    Present m' other ↔ Present m other ∨ other = key := by
  by_cases present : Present m key
  · obtain ⟨i, _, same⟩ := insert_of_present capacity sorted present
    simp only [inserted, Option.some.injEq, Prod.mk.injEq] at same
    obtain ⟨rfl, rfl⟩ := same
    exact ⟨Or.inl, fun either => either.elim id fun eq => eq ▸ present⟩
  · obtain ⟨_, place, count, before, at_pos, after⟩ := insert_of_absent sorted present inserted
    constructor
    · rintro ⟨i, bound, rfl⟩
      rcases Nat.lt_trichotomy i pos with less | rfl | more
      · exact Or.inl ⟨i, by have := place.bound; omega, by rw [before i less]⟩
      · exact Or.inr (by rw [at_pos])
      · have moved := after (i - 1) (by omega) (by omega)
        rw [Nat.sub_add_cancel (by omega)] at moved
        exact Or.inl ⟨i - 1, by omega, by rw [moved]⟩
    · rintro (⟨i, bound, rfl⟩ | rfl)
      · by_cases less : i < pos
        · exact ⟨i, by omega, by rw [before i less]⟩
        · exact ⟨i + 1, by omega, by rw [after i (by omega) bound]⟩
      · exact ⟨pos, by have := place.bound; omega, by rw [at_pos]⟩

/-- Removal of a key: the entries behind it move down by one slot. -/
theorem unset_of_found {m : FJFixMap V} {key i : Nat} (found : findIndex m key = some i) :
    (unset m key).1.count = m.count - 1 ∧
      (∀ j, j < i → (unset m key).1.entries j = m.entries j) ∧
      ∀ j, i ≤ j → j + 1 < m.count → (unset m key).1.entries j = m.entries (j + 1) := by
  simp only [unset, found]
  refine ⟨trivial, ?_, ?_⟩
  · intro j less
    rw [shiftDown_apply _ _ _ _ (by omega), if_neg (by omega)]
  · intro j le within
    rw [shiftDown_apply _ _ _ _ (by omega), if_pos ⟨le, within⟩]

theorem unset_of_none {m : FJFixMap V} {key : Nat} (found : findIndex m key = none) :
    unset m key = (m, false) := by
  simp only [unset, found]

theorem unset_sorted {m : FJFixMap V} (sorted : Sorted m) (key : Nat) : Sorted (unset m key).1 := by
  cases found : findIndex m key with
  | none =>
    rw [unset_of_none found]
    exact sorted
  | some r =>
    obtain ⟨count, before, after⟩ := unset_of_found found
    intro i j less bound
    by_cases low : j < r
    · rw [before i (by omega), before j low]
      exact sorted i j less (by omega)
    · rw [after j (by omega) (by omega)]
      by_cases lower : i < r
      · rw [before i lower]
        exact sorted i (j + 1) (by omega) (by omega)
      · rw [after i (by omega) (by omega)]
        exact sorted (i + 1) (j + 1) (by omega) (by omega)

theorem unset_present {m : FJFixMap V} (sorted : Sorted m) {key other : Nat} :
    Present (unset m key).1 other ↔ Present m other ∧ other ≠ key := by
  cases found : findIndex m key with
  | none =>
    have absent := (findIndex_eq_none sorted).mp found
    rw [unset_of_none found]
    exact ⟨fun present => ⟨present, fun eq => absent (eq ▸ present)⟩, And.left⟩
  | some r =>
    obtain ⟨within, rfl⟩ := (findIndex_eq_some sorted).mp found
    obtain ⟨count, before, after⟩ := unset_of_found found
    constructor
    · rintro ⟨i, bound, rfl⟩
      by_cases low : i < r
      · rw [before i low]
        exact ⟨⟨i, by omega, rfl⟩,
          fun eq => by have := sorted_injective sorted (by omega) within eq; omega⟩
      · rw [after i (by omega) (by omega)]
        exact ⟨⟨i + 1, by omega, rfl⟩,
          fun eq => by have := sorted_injective sorted (by omega) within eq; omega⟩
    · rintro ⟨⟨i, bound, rfl⟩, apart⟩
      rcases Nat.lt_trichotomy i r with less | rfl | more
      · exact ⟨i, by omega, by rw [before i less]⟩
      · exact absurd rfl apart
      · refine ⟨i - 1, by omega, ?_⟩
        rw [after (i - 1) (by omega) (by omega), Nat.sub_add_cancel (by omega)]

theorem unset_cut {m : FJFixMap V} (sorted : Sorted m) {key other r : Nat} (cut : Cut m other r)
    (upper : other ≤ key) : Cut (unset m key).1 other r := by
  cases found : findIndex m key with
  | none =>
    rw [unset_of_none found]
    exact cut
  | some i =>
    obtain ⟨within, rfl⟩ := (findIndex_eq_some sorted).mp found
    obtain ⟨count, before, after⟩ := unset_of_found found
    have low : r ≤ i := by
      apply Nat.le_of_not_lt
      intro less
      have := cut.below i less
      omega
    refine ⟨by omega, ?_, ?_⟩
    · intro j less
      rw [before j (by omega)]
      exact cut.below j less
    · intro j le bound
      by_cases early : j < i
      · rw [before j early]
        exact cut.above j le (by omega)
      · rw [after j (by omega) (by omega)]
        exact cut.above (j + 1) (by omega) (by omega)

theorem write_keys (m : FJFixMap V) (i : Nat) (value : V) (j : Nat) :
    ((write m i value).entries j).key = (m.entries j).key := by
  simp only [write, Function.update_apply]
  split
  · rename_i here
    rw [here]
  · rfl

theorem write_sorted {m : FJFixMap V} (sorted : Sorted m) (i : Nat) (value : V) :
    Sorted (write m i value) := by
  intro j k less bound
  rw [write_keys, write_keys]
  exact sorted j k less bound

theorem write_cut {m : FJFixMap V} {i : Nat} {value : V} {key r : Nat} :
    Cut (write m i value) key r ↔ Cut m key r := by
  constructor
  · rintro ⟨bound, below, above⟩
    exact ⟨bound, fun j less => by simpa [write_keys] using below j less,
      fun j le within => by simpa [write_keys] using above j le within⟩
  · rintro ⟨bound, below, above⟩
    exact ⟨bound, fun j less => by simpa [write_keys] using below j less,
      fun j le within => by simpa [write_keys] using above j le within⟩

def lookup (m : FJFixMap V) (key : Nat) : Option V :=
  (findIndex m key).map fun i => (m.entries i).value

theorem lookup_eq_some {m : FJFixMap V} (sorted : Sorted m) {key : Nat} {value : V} :
    lookup m key = some value ↔ ∃ i, i < m.count ∧ m.entries i = ⟨key, value⟩ := by
  simp only [lookup, Option.map_eq_some_iff, findIndex_eq_some sorted]
  constructor
  · rintro ⟨i, ⟨bound, rfl⟩, rfl⟩
    exact ⟨i, bound, rfl⟩
  · rintro ⟨i, bound, same⟩
    exact ⟨i, ⟨bound, by rw [same]⟩, by rw [same]⟩

theorem lookup_eq_none {m : FJFixMap V} (sorted : Sorted m) {key : Nat} :
    lookup m key = none ↔ ¬ Present m key := by
  rw [lookup, Option.map_eq_none_iff, findIndex_eq_none sorted]

theorem lookup_isSome {m : FJFixMap V} (sorted : Sorted m) {key : Nat} :
    (lookup m key).isSome = true ↔ Present m key := by
  rw [Option.isSome_iff_ne_none, ne_eq, lookup_eq_none sorted, Classical.not_not]

theorem lookup_congr {m m' : FJFixMap V} (sorted : Sorted m) (sorted' : Sorted m') {key : Nat}
    (same : ∀ value, (∃ i, i < m'.count ∧ m'.entries i = ⟨key, value⟩) ↔
      ∃ i, i < m.count ∧ m.entries i = ⟨key, value⟩) : lookup m' key = lookup m key := by
  apply Option.ext
  intro value
  rw [lookup_eq_some sorted, lookup_eq_some sorted']
  exact same value

theorem lookup_insert {m m' : FJFixMap V} (sorted : Sorted m) {capacity key pos other : Nat}
    (inserted : insert capacity m key = some (m', pos)) (apart : other ≠ key) :
    lookup m' other = lookup m other := by
  by_cases present : Present m key
  · obtain ⟨i, _, same⟩ := insert_of_present capacity sorted present
    simp only [inserted, Option.some.injEq, Prod.mk.injEq] at same
    rw [same.1]
  · obtain ⟨_, place, count, before, at_pos, after⟩ := insert_of_absent sorted present inserted
    refine lookup_congr sorted (insert_sorted sorted inserted) fun value => ⟨?_, ?_⟩
    · rintro ⟨i, bound, same⟩
      rcases Nat.lt_trichotomy i pos with less | rfl | more
      · exact ⟨i, by have := place.bound; omega, by rw [← before i less, same]⟩
      · rw [at_pos] at same
        exact absurd (congrArg Entry.key same).symm apart
      · have moved := after (i - 1) (by omega) (by omega)
        rw [Nat.sub_add_cancel (by omega)] at moved
        exact ⟨i - 1, by omega, by rw [← moved, same]⟩
    · rintro ⟨i, bound, same⟩
      by_cases less : i < pos
      · exact ⟨i, by omega, by rw [before i less, same]⟩
      · exact ⟨i + 1, by omega, by rw [after i (by omega) bound, same]⟩

theorem lookup_unset {m : FJFixMap V} (sorted : Sorted m) {key other : Nat} (apart : other ≠ key) :
    lookup (unset m key).1 other = lookup m other := by
  cases found : findIndex m key with
  | none => rw [unset_of_none found]
  | some r =>
    obtain ⟨within, rfl⟩ := (findIndex_eq_some sorted).mp found
    obtain ⟨count, before, after⟩ := unset_of_found found
    refine lookup_congr sorted (unset_sorted sorted _) fun value => ⟨?_, ?_⟩
    · rintro ⟨i, bound, same⟩
      by_cases low : i < r
      · exact ⟨i, by omega, by rw [← before i low, same]⟩
      · exact ⟨i + 1, by omega, by rw [← after i (by omega) (by omega), same]⟩
    · rintro ⟨i, bound, same⟩
      rcases Nat.lt_trichotomy i r with less | rfl | more
      · exact ⟨i, by omega, by rw [before i less, same]⟩
      · exact absurd (congrArg Entry.key same).symm apart
      · refine ⟨i - 1, by omega, ?_⟩
        rw [after (i - 1) (by omega) (by omega), Nat.sub_add_cancel (by omega), same]

theorem lookup_unset_self {m : FJFixMap V} (sorted : Sorted m) (key : Nat) :
    lookup (unset m key).1 key = none :=
  (lookup_eq_none (unset_sorted sorted key)).mpr fun present =>
    ((unset_present sorted).mp present).2 rfl

theorem findIndex_write (m : FJFixMap V) (i : Nat) (value : V) (key : Nat) :
    findIndex (write m i value) key = findIndex m key := by
  have from_same : ∀ fuel left right,
      findIndexFrom (write m i value) key fuel left right = findIndexFrom m key fuel left right := by
    intro fuel
    induction fuel with
    | zero => exact fun _ _ => rfl
    | succ fuel ih =>
      intro left right
      simp only [findIndexFrom, write_keys, ih]
  exact from_same _ _ _

theorem lookup_write (m : FJFixMap V) (i : Nat) (value : V) (key : Nat) :
    lookup (write m i value) key =
      if findIndex m key = some i then some value else lookup m key := by
  simp only [lookup, findIndex_write]
  cases found : findIndex m key with
  | none => simp
  | some j =>
    by_cases here : j = i
    · subst here
      simp [write]
    · simp [write, here]

end FixMap
