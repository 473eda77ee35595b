import FJUtility.Containers.MapRefinement
import FJUtility.SharedMem.Region

/- How many processes protbl_ holds. Its buffer is declared by the size of the values, its
   entries also hold the key, and an insertion behind the last entry that fits is an abort. -/
namespace SharedProcessTable
open FixMap
variable {V : Type}

def processMax : Nat := 24

structure Sizes where
  value : Nat
  entry : Nat
  positive : 0 < value
  holdsKey : value + 4 ≤ entry

/-- capacity_ of a map over n * sizeof(T) bytes, the product in size_t. -/
def capacityOf (sizes : Sizes) (n : Nat) : Nat := n * sizes.value % 2 ^ 64 / sizes.entry

/-- Every insertion returns an address inside the buffer, for the caller to initialise. -/
def Accepts (capacity : Nat) (init : V) : FJFixMap V → List Nat → Prop
  | _, [] => True
  | m, key :: rest => ∃ m' p, MapRefinement.insert capacity m key = some (m', p) ∧ p < capacity ∧
      Accepts capacity init (write m' p init) rest

structure Holds (m : FJFixMap V) (keys : List Nat) : Prop where
  sorted : Sorted m
  count : m.count = keys.length
  members : ∀ key, Present m key ↔ key ∈ keys

theorem capacity_below (sizes : Sizes) {n : Nat} (some_ : 1 ≤ n) : capacityOf sizes n < n := by
  have entry : 0 < sizes.entry := Nat.lt_of_lt_of_le (Nat.succ_pos _) (Nat.le_trans
    (Nat.le_add_left 4 sizes.value) sizes.holdsKey)
  have larger : sizes.value < sizes.entry := Nat.lt_of_lt_of_le (by omega) sizes.holdsKey
  apply (Nat.div_lt_iff_lt_mul entry).mpr
  calc n * sizes.value % 2 ^ 64
      ≤ n * sizes.value := Nat.mod_le _ _
    _ < n * sizes.entry := Nat.mul_lt_mul_of_pos_left larger some_

theorem holds_empty (stale : Nat → Entry V) : Holds ⟨stale, 0⟩ [] where
  sorted _ _ _ bound := absurd bound (Nat.not_lt_zero _)
  count := rfl
  members key := iff_of_false (fun ⟨_, bound, _⟩ => absurd bound (Nat.not_lt_zero _)) (by simp)

theorem write_present (m : FJFixMap V) (i : Nat) (value : V) (key : Nat) :
    Present (write m i value) key ↔ Present m key := by
  unfold Present
  simp only [write_keys]
  rfl

section
variable {m : FJFixMap V} {keys : List Nat} {key capacity : Nat}

theorem fresh_unfound (holds : Holds m keys) (fresh : key ∉ keys) : findIndex m key = none := by
  rw [findIndex_eq_none holds.sorted, holds.members]
  exact fresh

theorem fresh_insert (holds : Holds m keys) (fresh : key ∉ keys) :
    MapRefinement.insert capacity m key = FixMap.insert capacity m key := by
  simp only [MapRefinement.insert, FixMap.insert, MapRefinement.find, MapRefinement.findIndexInt,
    fresh_unfound holds fresh]
  rfl

theorem fresh_refused (holds : Holds m keys) (fresh : key ∉ keys) (full : capacity ≤ keys.length) :
    MapRefinement.insert capacity m key = none := by
  have bound := holds.count
  rw [fresh_insert holds fresh]
  simp only [FixMap.insert, fresh_unfound holds fresh]
  exact if_neg (by omega)

theorem fresh_inserted (holds : Holds m keys) (fresh : key ∉ keys) (room : keys.length < capacity)
    (init : V) : ∃ m' p, MapRefinement.insert capacity m key = some (m', p) ∧ p < capacity ∧
      Holds (write m' p init) (key :: keys) := by
  have absent : ¬ Present m key := fun present => fresh ((holds.members key).mp present)
  have bound := holds.count
  rw [fresh_insert holds fresh]
  cases inserted : FixMap.insert capacity m key with
  | none =>
    simp only [FixMap.insert, fresh_unfound holds fresh] at inserted
    rw [if_pos (by omega)] at inserted
    exact absurd inserted (by simp)
  | some grown =>
    obtain ⟨m', p⟩ := grown
    obtain ⟨_, cut, count, _⟩ := insert_of_absent holds.sorted absent inserted
    have place := cut.bound
    refine ⟨m', p, rfl, by omega, write_sorted (insert_sorted holds.sorted inserted) p init, ?_, ?_⟩
    · rw [List.length_cons, ← bound]
      exact count
    · intro other
      rw [write_present, insert_present holds.sorted inserted, holds.members, List.mem_cons]
      exact or_comm

end

/-- New keys are accepted exactly as long as they fit, in whatever order they come. -/
theorem accepts_iff {capacity : Nat} (init : V) {m : FJFixMap V} {keys new : List Nat}
    (holds : Holds m keys) (bounded : keys.length ≤ capacity) (distinct : new.Nodup)
    (fresh : ∀ key ∈ new, key ∉ keys) :
    Accepts capacity init m new ↔ keys.length + new.length ≤ capacity := by
  induction new generalizing m keys with
  | nil => exact iff_of_true trivial bounded
  | cons key rest ih =>
    obtain ⟨once, later⟩ := List.nodup_cons.mp distinct
    have absent := fresh key (List.mem_cons_self ..)
    rcases Nat.lt_or_ge keys.length capacity with room | full
    · obtain ⟨m', p, inserted, within, grown⟩ := fresh_inserted holds absent room init
      have rest_fresh : ∀ other ∈ rest, other ∉ key :: keys := by
        intro other member here
        rcases List.mem_cons.mp here with rfl | old
        · exact once member
        · exact fresh other (List.mem_cons_of_mem _ member) old
      have accepted := ih grown (by rw [List.length_cons]; omega) later rest_fresh
      simp only [List.length_cons] at accepted ⊢
      constructor
      · rintro ⟨m'', p', inserted', _, accepts⟩
        obtain ⟨rfl, rfl⟩ := Prod.mk.inj (Option.some.inj (inserted.symm.trans inserted'))
        have := accepted.mp accepts
        omega
      · intro fits
        exact ⟨m', p, inserted, within, accepted.mpr (by omega)⟩
    · simp only [Accepts, fresh_refused holds absent full, List.length_cons]
      exact iff_of_false (by simp) (by omega)

/-- A constructor registers its pid if it is not there, the last destructor of a process takes it
    out. -/
inductive Change where
  | register (pid : Nat)
  | leave (pid : Nat)
  deriving DecidableEq, Repr

def registered (pids : List Nat) : Change → List Nat
  | .register pid => if pid ∈ pids then pids else pid :: pids
  | .leave pid => pids.filter fun other => decide (other ≠ pid)

def Serves (capacity : Nat) (init : V) : FJFixMap V → List Change → Prop
  | _, [] => True
  | m, .register pid :: rest =>
    match MapRefinement.find m pid with
    | some p => p < capacity ∧ Serves capacity init m rest
    | none => ∃ m' p, MapRefinement.insert capacity m pid = some (m', p) ∧ p < capacity ∧
        Serves capacity init (write m' p init) rest
  | m, .leave pid :: rest => Serves capacity init (MapRefinement.unset m pid).1 rest

def WithinCapacity (capacity : Nat) (pids : List Nat) (changes : List Change) : Prop :=
  ∀ k, ((changes.take k).foldl registered pids).length ≤ capacity

theorem withinCapacity_cons {capacity : Nat} {pids : List Nat} {c : Change} {rest : List Change} :
    WithinCapacity capacity pids (c :: rest) ↔
      pids.length ≤ capacity ∧ WithinCapacity capacity (registered pids c) rest := by
  constructor
  · exact fun within => ⟨within 0, fun k => within (k + 1)⟩
  · rintro ⟨now, later⟩ k
    cases k with
    | zero => exact now
    | succ k => exact later k

theorem withinCapacity_now {capacity : Nat} {pids : List Nat} {changes : List Change}
    (within : WithinCapacity capacity pids changes) : pids.length ≤ capacity :=
  within 0

section
variable {m : FJFixMap V} {pids : List Nat} {pid capacity : Nat}

theorem find_registered (holds : Holds m pids) (small : m.count ≤ MapRefinement.intMax)
    (member : pid ∈ pids) : ∃ p, MapRefinement.find m pid = some p ∧ p < m.count := by
  obtain ⟨i, here⟩ := (holds.members pid).mpr member
  rw [(MapRefinement.find_eq_findIndex small pid).1]
  exact ⟨i, (findIndex_eq_some holds.sorted).mpr here, here.1⟩

theorem find_fresh (holds : Holds m pids) (small : m.count ≤ MapRefinement.intMax)
    (fresh : pid ∉ pids) : MapRefinement.find m pid = none := by
  rw [(MapRefinement.find_eq_findIndex small pid).1, findIndex_eq_none holds.sorted, holds.members]
  exact fresh

theorem leave_holds (holds : Holds m pids) (small : m.count ≤ MapRefinement.intMax)
    (distinct : pids.Nodup) :
    Holds (MapRefinement.unset m pid).1 (pids.filter fun other => decide (other ≠ pid)) := by
  rw [MapRefinement.unset_eq small]
  refine ⟨unset_sorted holds.sorted pid, ?_, fun other => ?_⟩
  · cases found : findIndex m pid with
    | none =>
      have absent : pid ∉ pids := by
        rw [← holds.members]
        exact (findIndex_eq_none holds.sorted).mp found
      have whole : pids.filter (fun other => decide (other ≠ pid)) = pids := by
        apply List.filter_eq_self.mpr
        intro other member
        exact decide_eq_true fun same => absent (same ▸ member)
      rw [unset_of_none found, whole]
      exact holds.count
    | some i =>
      have member : pid ∈ pids := by
        rw [← holds.members]
        exact ⟨i, (findIndex_eq_some holds.sorted).mp found⟩
      have erased : (pids.filter fun other => decide (other ≠ pid)) = pids.erase pid := by
        rw [distinct.erase_eq_filter]
        apply List.filter_congr
        intro other _
        by_cases same : other = pid <;> simp [same]
      rw [(unset_of_found found).1, erased, List.length_erase_of_mem member, holds.count]
  · rw [unset_present holds.sorted, holds.members]
    simp

end

theorem serves_iff {capacity : Nat} (init : V) (small : capacity ≤ MapRefinement.intMax)
    {m : FJFixMap V} {pids : List Nat} {changes : List Change} (holds : Holds m pids)
    (distinct : pids.Nodup) (bounded : pids.length ≤ capacity) :
    Serves capacity init m changes ↔ WithinCapacity capacity pids changes := by
  induction changes generalizing m pids with
  | nil => exact iff_of_true trivial fun k => by simpa using bounded
  | cons c rest ih =>
    have count := holds.count
    have few : m.count ≤ MapRefinement.intMax := by omega
    rw [withinCapacity_cons, and_iff_right bounded]
    cases c with
    | register pid =>
      by_cases member : pid ∈ pids
      · obtain ⟨p, found, within⟩ := find_registered holds few member
        simp only [Serves, found, registered, if_pos member]
        rw [ih holds distinct bounded]
        exact and_iff_right (by omega)
      · simp only [Serves, find_fresh holds few member, registered, if_neg member]
        rcases Nat.lt_or_ge pids.length capacity with room | full
        · obtain ⟨m', p, inserted, within, grown⟩ := fresh_inserted holds member room init
          have served := ih grown (List.nodup_cons.mpr ⟨member, distinct⟩)
            (by rw [List.length_cons]; omega)
          constructor
          · rintro ⟨m'', p', inserted', _, serves⟩
            obtain ⟨rfl, rfl⟩ := Prod.mk.inj (Option.some.inj (inserted.symm.trans inserted'))
            exact served.mp serves
          · exact fun within' => ⟨m', p, inserted, within, served.mpr within'⟩
        · refine iff_of_false ?_ fun within => ?_
          · rintro ⟨m', p, inserted, _⟩
            rw [fresh_refused holds member full] at inserted
            exact absurd inserted (by simp)
          · have := withinCapacity_now within
            rw [List.length_cons] at this
            omega
    | leave pid =>
      have fewer := List.length_filter_le (fun other => decide (other ≠ pid)) pids
      exact ih (leave_holds holds few distinct) (distinct.filter _) (by simp only [registered]; omega)

/-- For every element type and every n >= 1 a map over n * sizeof(T) bytes accepts distinct keys
    exactly as long as they fit its capacity, which is below n; and the constructors of any history
    of the process table are served exactly if the registered pids always do. -/
theorem protbl_capacity (sizes : Sizes) (init : V) (stale : Nat → Entry V) :
    (∀ n, 1 ≤ n → capacityOf sizes n < n ∧ ∀ keys : List Nat, keys.Nodup →
      (Accepts (capacityOf sizes n) init ⟨stale, 0⟩ keys ↔ keys.length ≤ capacityOf sizes n)) ∧
    ∀ changes, Serves (capacityOf sizes processMax) init ⟨stale, 0⟩ changes ↔
      WithinCapacity (capacityOf sizes processMax) [] changes := by
  refine ⟨fun n some_ => ⟨capacity_below sizes some_, fun keys distinct => ?_⟩, fun changes => ?_⟩
  · rw [accepts_iff init (holds_empty stale) (Nat.zero_le _) distinct (by simp), List.length_nil,
      Nat.zero_add]
  · have below := capacity_below sizes (n := processMax) (by decide)
    have small : capacityOf sizes processMax ≤ MapRefinement.intMax := by
      simp only [processMax, MapRefinement.intMax] at below ⊢
      omega
    exact serves_iff init small (holds_empty stale) .nil (Nat.zero_le _)

/-- proAtom and its entry on a 64-bit glibc: a mutex of 40 bytes, a condition variable of 48, two
    words and two flags. -/
def proAtomSizes : Sizes := ⟨112, 120, by decide, by decide⟩

example : capacityOf proAtomSizes processMax = 22 := by decide

theorem declared_processes_abort : ¬ Accepts (capacityOf proAtomSizes processMax)
    SharedRegion.proAtomInit ⟨fun _ => ⟨0, SharedRegion.proAtomInit⟩, 0⟩
    (List.range' 1000 processMax) := by
  rw [accepts_iff _ (holds_empty _) (Nat.zero_le _) List.nodup_range' (by simp)]
  decide

end SharedProcessTable
