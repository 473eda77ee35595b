import Mathlib.Algebra.Group.Nat.Defs
import FJUtility.Containers.FixMap

/- FJFixMap over whole sequences of its operations against a partial map. The index that
   the search returns is an int here, as in the source, and decides what find answers. -/
namespace MapRefinement
open FixMap
variable {V : Type}

def castInt (n : Nat) : Int := (n : Int).bmod (2 ^ 32)

def intMax : Nat := 2 ^ 31 - 1

def findIndexInt (m : FJFixMap V) (key : Nat) : Int :=
  match findIndex m key with
  | some mid => castInt mid
  | none => -1

/-- A pointer to a value is the index of its entry, nullptr is none. -/
def find (m : FJFixMap V) (key : Nat) : Option Nat :=
  let idx := findIndexInt m key
  if idx ≥ 0 then some idx.toNat else none

/-- The assertion on the capacity is the failure. A new entry keeps the bytes its slot had. -/
def insert (capacity : Nat) (m : FJFixMap V) (key : Nat) : Option (FJFixMap V × Nat) :=
  match find m key with
  | some p => some (m, p)
  | none =>
    if m.count < capacity then
      let pos := insertPos m key
      let shifted := shiftUp pos m.count m.entries
      some (⟨Function.update shifted pos ⟨key, (shifted pos).value⟩, m.count + 1⟩, pos)
    else none

def unset (m : FJFixMap V) (key : Nat) : FJFixMap V × Bool :=
  let idx := findIndexInt m key
  if idx < 0 then (m, false)
  else (⟨shiftDown m.count m.count idx.toNat m.entries, m.count - 1⟩, true)

def clear (m : FJFixMap V) : FJFixMap V := { m with count := 0 }

def found (m : FJFixMap V) (key : Nat) : Option V := (find m key).map fun p => (m.entries p).value

/-- insert is followed by the caller's write through the pointer it returned. -/
inductive Operation (V : Type) where
  | insert (key : Nat) (value : V)
  | find (key : Nat)
  | unset (key : Nat)
  | clear

def perform (capacity : Nat) (m : FJFixMap V) : Operation V → Option (FJFixMap V)
  | .insert key value => (insert capacity m key).map fun (m', p) => write m' p value
  | .find _ => some m
  | .unset key => some (unset m key).1
  | .clear => some (clear m)

/-- The map an operation leaves: each key has the value last written for it. -/
def meaning (contents : Nat → Option V) : Operation V → Nat → Option V
  | .insert key value => Function.update contents key (some value)
  | .find _ => contents
  | .unset key => Function.update contents key none
  | .clear => fun _ => none

def meaningAll : (Nat → Option V) → List (Operation V) → Nat → Option V
  | contents, [] => contents
  | contents, op :: rest => meaningAll (meaning contents op) rest

def Permitted (capacity : Nat) (m : FJFixMap V) : Operation V → Prop
  | .insert key _ => found m key = none → m.count < capacity
  | _ => True

inductive Reached (capacity : Nat) (stale : Nat → Entry V) :
    List (Operation V) → FJFixMap V → Prop where
  | start : Reached capacity stale [] ⟨stale, 0⟩
  | next {ops : List (Operation V)} {m m' : FJFixMap V} {op : Operation V}
      (before : Reached capacity stale ops m) (permitted : Permitted capacity m op)
      (performed : perform capacity m op = some m') : Reached capacity stale (ops ++ [op]) m'

structure Refines (capacity : Nat) (contents : Nat → Option V) (m : FJFixMap V) : Prop where
  sorted : Sorted m
  bounded : m.count ≤ capacity
  finds : ∀ key, found m key = contents key

structure Answers (capacity : Nat) (contents : Nat → Option V) (m : FJFixMap V) : Prop where
  find_absent : ∀ key, find m key = none ↔ contents key = none
  insert_present : ∀ key p, find m key = some p → insert capacity m key = some (m, p)
  insert_absent : ∀ key, contents key = none → m.count < capacity →
    ∃ m' p, insert capacity m key = some (m', p) ∧ find m' key = some p
  insert_others : ∀ key other m' p value, insert capacity m key = some (m', p) → other ≠ key →
    found m' other = contents other ∧ found (write m' p value) other = contents other
  unset_found : ∀ key, (unset m key).2 = true ↔ contents key ≠ none
  unset_others : ∀ key other, other ≠ key → found (unset m key).1 other = contents other
  proceeds : ∀ op, Permitted capacity m op → (perform capacity m op).isSome = true

theorem castInt_small {n : Nat} (small : n ≤ intMax) : castInt n = n := by
  unfold castInt
  unfold intMax at small
  apply Int.bmod_eq_of_le
  · omega
  · omega

/-- A table of at most INT_MAX entries has no index that the conversion changes. -/
theorem find_eq_findIndex {m : FJFixMap V} (small : m.count ≤ intMax) (key : Nat) :
    find m key = findIndex m key ∧ (findIndexInt m key < 0 ↔ findIndex m key = none) := by
  cases searched : findIndex m key with
  | none => simp [find, findIndexInt, searched]
  | some mid =>
    have within := (findIndexFrom_sound (Nat.le_refl _) searched).1
    have same : findIndexInt m key = mid := by
      simp only [findIndexInt, searched]
      exact castInt_small (by omega)
    constructor
    · simp [find, same]
    · simp [same]

theorem found_eq_lookup {m : FJFixMap V} (small : m.count ≤ intMax) (key : Nat) :
    found m key = lookup m key := by
  unfold found lookup
  rw [(find_eq_findIndex small key).1]

theorem insert_eq {m : FJFixMap V} (small : m.count ≤ intMax) (capacity key : Nat) :
    insert capacity m key = FixMap.insert capacity m key := by
  unfold insert FixMap.insert
  rewrite [(find_eq_findIndex small key).1]
  rfl

theorem unset_eq {m : FJFixMap V} (small : m.count ≤ intMax) (key : Nat) :
    unset m key = FixMap.unset m key := by
  obtain ⟨same, negative⟩ := find_eq_findIndex small key
  cases searched : findIndex m key with
  | none => simp [unset, FixMap.unset, negative, searched]
  | some i =>
    have nonnegative : ¬ findIndexInt m key < 0 := by simp [negative, searched]
    have index : (findIndexInt m key).toNat = i := by
      rw [searched, find, if_pos (by omega), Option.some.injEq] at same
      exact same
    simp only [unset, FixMap.unset, searched, if_neg nonnegative, index]

theorem meaningAll_append (contents : Nat → Option V) (ops : List (Operation V)) (op : Operation V) :
    meaningAll contents (ops ++ [op]) = meaning (meaningAll contents ops) op := by
  induction ops generalizing contents with
  | nil => rfl
  | cons first rest ih => exact ih (meaning contents first)

theorem unset_count_le (m : FJFixMap V) (key : Nat) : (unset m key).1.count ≤ m.count := by
  by_cases negative : findIndexInt m key < 0
  · simp [unset, negative]
  · simp [unset, negative]

theorem found_write (m : FJFixMap V) (p : Nat) (value : V) (key : Nat) :
    found (write m p value) key = if find m key = some p then some value else found m key := by
  have same : find (write m p value) key = find m key := by
    unfold find findIndexInt
    rw [findIndex_write]
  rw [found, same]
  unfold found
  cases find m key with
  | none => simp
  | some q =>
    by_cases here : q = p
    · simp [here, write]
    · simp [here, write]

section WithinInt
variable {capacity : Nat} {contents : Nat → Option V} {m m' : FJFixMap V} {key p : Nat}

theorem insert_bounded (bounded : m.count ≤ capacity)
    (inserted : insert capacity m key = some (m', p)) : m'.count ≤ capacity := by
  unfold insert at inserted
  split at inserted
  · simp only [Option.some.injEq, Prod.mk.injEq] at inserted
    exact inserted.1 ▸ bounded
  · split at inserted
    · rename_i room
      simp only [Option.some.injEq, Prod.mk.injEq] at inserted
      rw [← inserted.1]
      exact room
    · simp at inserted

theorem insert_succeeds (room : found m key = none → m.count < capacity) :
    ∃ m' p, insert capacity m key = some (m', p) := by
  unfold insert
  cases searched : find m key with
  | some p => exact ⟨m, p, rfl⟩
  | none =>
    rw [if_pos (room (by simp [found, searched]))]
    exact ⟨_, _, rfl⟩

theorem perform_proceeds {op : Operation V} (permitted : Permitted capacity m op) :
    (perform capacity m op).isSome = true := by
  cases op with
  | insert key value =>
    obtain ⟨grown, p, inserted⟩ := insert_succeeds permitted
    simp [perform, inserted]
  | find key => rfl
  | unset key => rfl
  | clear => rfl

theorem find_absent (refines : Refines capacity contents m) (key : Nat) :
    find m key = none ↔ contents key = none := by
  rw [← refines.finds key, found, Option.map_eq_none_iff]

variable (small : capacity ≤ intMax) (refines : Refines capacity contents m)
include small refines

theorem count_small : m.count ≤ intMax := Nat.le_trans refines.bounded small

theorem inserted_small (inserted : insert capacity m key = some (m', p)) : m'.count ≤ intMax :=
  Nat.le_trans (insert_bounded refines.bounded inserted) small

theorem inserted_sorted (inserted : insert capacity m key = some (m', p)) : Sorted m' := by
  rw [insert_eq (count_small small refines)] at inserted
  exact insert_sorted refines.sorted inserted

theorem find_inserted (inserted : insert capacity m key = some (m', p)) :
    find m' key = some p := by
  have sorted := inserted_sorted small refines inserted
  rw [(find_eq_findIndex (inserted_small small refines inserted) key).1, findIndex_eq_some sorted]
  rw [insert_eq (count_small small refines)] at inserted
  exact insert_at refines.sorted inserted

theorem found_insert_other (inserted : insert capacity m key = some (m', p)) {other : Nat}
    (apart : other ≠ key) : found m' other = contents other := by
  rw [found_eq_lookup (inserted_small small refines inserted), ← refines.finds other,
    found_eq_lookup (count_small small refines)]
  rw [insert_eq (count_small small refines)] at inserted
  exact lookup_insert refines.sorted inserted apart

theorem found_unset_other {other : Nat} (apart : other ≠ key) :
    found (unset m key).1 other = contents other := by
  have bound := count_small small refines
  have fewer := Nat.le_trans (unset_count_le m key) bound
  rw [found_eq_lookup fewer, unset_eq bound, lookup_unset refines.sorted apart,
    ← found_eq_lookup bound, refines.finds]

theorem found_insert_write (inserted : insert capacity m key = some (m', p)) (value : V)
    (other : Nat) :
    found (write m' p value) other = Function.update contents key (some value) other := by
  have here := find_inserted small refines inserted
  rw [found_write]
  by_cases same : other = key
  · rw [same, if_pos here, Function.update_self]
  · rw [Function.update_of_ne same, ← found_insert_other small refines inserted same]
    split
    · rename_i there
      have sorted := inserted_sorted small refines inserted
      have bound := inserted_small small refines inserted
      rw [(find_eq_findIndex bound _).1, findIndex_eq_some sorted] at here there
      exact absurd (there.2.symm.trans here.2) same
    · rfl

theorem found_unset (other : Nat) :
    found (unset m key).1 other = Function.update contents key none other := by
  by_cases same : other = key
  · have bound := count_small small refines
    rw [same, Function.update_self,
      found_eq_lookup (Nat.le_trans (unset_count_le m key) bound), unset_eq bound]
    exact lookup_unset_self refines.sorted key
  · rw [Function.update_of_ne same]
    exact found_unset_other small refines same

/-- One operation on the table is the operation on the map. -/
theorem perform_refines {op : Operation V} (performed : perform capacity m op = some m') :
    Refines capacity (meaning contents op) m' := by
  cases op with
  | insert key value =>
    simp only [perform, Option.map_eq_some_iff] at performed
    obtain ⟨⟨grown, p⟩, inserted, rfl⟩ := performed
    constructor
    · exact write_sorted (inserted_sorted small refines inserted) p value
    · have bounded := insert_bounded refines.bounded inserted
      exact bounded
    · intro other
      exact found_insert_write small refines inserted value other
  | find key =>
    simp only [perform, Option.some.injEq] at performed
    exact performed ▸ refines
  | unset key =>
    simp only [perform, Option.some.injEq] at performed
    subst performed
    constructor
    · rw [unset_eq (count_small small refines)]
      exact unset_sorted refines.sorted key
    · exact Nat.le_trans (unset_count_le m key) refines.bounded
    · intro other
      exact found_unset small refines other
  | clear =>
    simp only [perform, Option.some.injEq] at performed
    subst performed
    constructor
    · intro i j _ bound
      exact absurd bound (Nat.not_lt_zero j)
    · exact Nat.zero_le capacity
    · intro key
      simp [found, find, findIndexInt, findIndex, findIndexFrom, clear, meaning]

theorem unset_found (key : Nat) : (unset m key).2 = true ↔ contents key ≠ none := by
  have bound := count_small small refines
  rw [unset_eq bound, Ne, ← find_absent refines key, (find_eq_findIndex bound key).1]
  unfold FixMap.unset
  cases findIndex m key with
  | none => simp
  | some i => simp

theorem refines_answers : Answers capacity contents m where
  find_absent := find_absent refines
  insert_present key p searched := by
    unfold insert
    rw [searched]
  insert_absent key absent room := by
    have succeeds : ∃ m' p, insert capacity m key = some (m', p) := insert_succeeds fun _ => room
    obtain ⟨m', p, inserted⟩ := succeeds
    exact ⟨m', p, inserted, find_inserted small refines inserted⟩
  insert_others key other m' p value inserted apart := by
    constructor
    · exact found_insert_other small refines inserted apart
    · rw [found_insert_write small refines inserted, Function.update_of_ne apart]
  unset_found := unset_found small refines
  unset_others key other apart := found_unset_other small refines apart
  proceeds op permitted := perform_proceeds permitted

end WithinInt

/-- After every permitted sequence the table is the map of the values last written, and the
    next operation answers as the map does. -/
theorem operations_refine_map {capacity : Nat} (small : capacity ≤ intMax) {stale : Nat → Entry V}
    {ops : List (Operation V)} {m : FJFixMap V} (reached : Reached capacity stale ops m) :
    Refines capacity (meaningAll (fun _ => none) ops) m ∧
      Answers capacity (meaningAll (fun _ => none) ops) m := by
  have refines : Refines capacity (meaningAll (fun _ => none) ops) m := by
    induction reached with
    | start =>
      constructor
      · intro i j _ bound
        exact absurd bound (Nat.not_lt_zero j)
      · exact Nat.zero_le capacity
      · intro key
        rfl
    | next _ _ performed ih =>
      rw [meaningAll_append]
      exact perform_refines small ih performed
  exact ⟨refines, refines_answers small refines⟩

def threeOperations : List (Operation Nat) := [.insert 5 10, .insert 3 7, .unset 5]

theorem operations_refine_map_three : ∃ m, Reached 2 (fun _ => ⟨0, 99⟩) threeOperations m ∧
    Refines 2 (meaningAll (fun _ => none) threeOperations) m ∧
      Answers 2 (meaningAll (fun _ => none) threeOperations) m := by
  have first : Reached 2 (fun _ => ⟨0, 99⟩) [.insert 5 10] _ :=
    .next .start (fun _ => by decide) rfl
  have second : Reached 2 (fun _ => ⟨0, 99⟩) [.insert 5 10, .insert 3 7] _ :=
    .next first (fun _ => by decide) rfl
  have third : Reached 2 (fun _ => ⟨0, 99⟩) threeOperations _ := .next second trivial rfl
  exact ⟨_, third, operations_refine_map (by decide) third⟩

end MapRefinement
