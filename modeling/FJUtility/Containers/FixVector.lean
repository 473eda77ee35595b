import Mathlib.Data.List.Perm.Basic

/- FJFixVector as the list of its first count elements. The bound by the capacity is part
   of the type, so no operation has to clamp the count again. -/
namespace FixVector
variable {α : Type} {capacity : Nat}

structure FJFixVector (α : Type) (capacity : Nat) where
  items : List α
  bounded : items.length ≤ capacity

def empty : FJFixVector α capacity := ⟨[], Nat.zero_le _⟩

def pushBack (v : FJFixVector α capacity) (item : α) : FJFixVector α capacity × Bool :=
  if room : v.items.length < capacity then
    (⟨v.items ++ [item], by rw [List.length_append]; exact room⟩, true)
  else (v, false)

def splice (v : FJFixVector α capacity) (start count : Nat) : FJFixVector α capacity :=
  ⟨v.items.take start ++ v.items.drop (start + count), by
    have := v.bounded
    simp only [List.length_append, List.length_take, List.length_drop]
    omega⟩

def rewrite (v : FJFixVector α capacity) (f : α → α) : FJFixVector α capacity :=
  ⟨v.items.map f, by rw [List.length_map]; exact v.bounded⟩

/-- What std::sort may leave: any permutation in which no element precedes a smaller one. -/
def SortOf (key : α → Nat) (result original : List α) : Prop :=
  result.Perm original ∧ result.Pairwise fun a b => key a ≤ key b

instance [DecidableEq α] (key : α → Nat) (result original : List α) :
    Decidable (SortOf key result original) :=
  inferInstanceAs (Decidable (_ ∧ _))

theorem sortOf_exists (key : α → Nat) (items : List α) : ∃ result, SortOf key result items := by
  refine ⟨items.mergeSort fun a b => key a ≤ key b, List.mergeSort_perm _ _, ?_⟩
  have sorted : (items.mergeSort fun a b => decide (key a ≤ key b)).Pairwise
      fun a b => decide (key a ≤ key b) = true :=
    List.pairwise_mergeSort (by simpa using fun a b c => Nat.le_trans)
      (by simpa using fun a b => Nat.le_total _ _) items
  simpa using sorted

def sort [DecidableEq α] (key : α → Nat) (result : List α) (v : FJFixVector α capacity) :
    Option (FJFixVector α capacity) :=
  if sorted : SortOf key result v.items then
    some ⟨result, sorted.1.length_eq ▸ v.bounded⟩
  else none

/-- while (size() > 0 && key(at(0)) == 0) splice(0, 1) -/
def spliceFront (key : α → Nat) : Nat → FJFixVector α capacity → Option (FJFixVector α capacity)
  | 0, _ => none
  | fuel + 1, v =>
    match v.items with
    | [] => some v
    | head :: _ => if key head = 0 then spliceFront key fuel (splice v 0 1) else some v

def cleanUp [DecidableEq α] (key : α → Nat) (result : List α) (v : FJFixVector α capacity) :
    Option (FJFixVector α capacity) :=
  (sort key result v).bind fun sorted => spliceFront key (sorted.items.length + 1) sorted

theorem pushBack_items (v : FJFixVector α capacity) (item : α) :
    (pushBack v item).1.items = if (pushBack v item).2 then v.items ++ [item] else v.items := by
  unfold pushBack
  split <;> rfl

theorem sort_items [DecidableEq α] {key : α → Nat} {result : List α} {v w : FJFixVector α capacity}
    (sorted : sort key result v = some w) : SortOf key w.items v.items := by
  unfold sort at sorted
  split at sorted
  · rename_i permuted
    exact Option.some.inj sorted ▸ permuted
  · simp at sorted

theorem sort_total [DecidableEq α] (key : α → Nat) (v : FJFixVector α capacity) :
    ∃ result w, sort key result v = some w := by
  obtain ⟨result, permuted⟩ := sortOf_exists key v.items
  exact ⟨result, _, dif_pos permuted⟩

/-- The loop ends, and what it removes is the leading run of blank elements. -/
theorem spliceFront_items (key : α → Nat) {fuel : Nat} (v : FJFixVector α capacity)
    (budget : v.items.length < fuel) :
    ∃ w, spliceFront key fuel v = some w ∧ w.items = v.items.dropWhile fun x => key x = 0 := by
  induction fuel generalizing v with
  | zero => omega
  | succ fuel ih =>
    obtain ⟨items, bounded⟩ := v
    cases items with
    | nil => exact ⟨_, rfl, rfl⟩
    | cons head rest =>
      simp only [spliceFront]
      by_cases blank : key head = 0
      · rw [if_pos blank]
        simp only [List.length_cons] at budget
        obtain ⟨w, run, items⟩ := ih (splice ⟨head :: rest, bounded⟩ 0 1) (by simp [splice]; omega)
        refine ⟨w, run, ?_⟩
        rw [items]
        simp [splice, blank]
      · rw [if_neg blank]
        exact ⟨_, rfl, by simp [blank]⟩

theorem dropWhile_of_sorted (key : α → Nat) {items : List α}
    (sorted : items.Pairwise fun a b => key a ≤ key b) :
    items.dropWhile (fun x => key x = 0) = items.filter fun x => key x ≠ 0 := by
  induction items with
  | nil => rfl
  | cons head rest ih =>
    obtain ⟨least, tail⟩ := List.pairwise_cons.mp sorted
    by_cases blank : key head = 0
    · simpa [blank] using ih tail
    · have kept : rest.filter (fun x => key x ≠ 0) = rest := by
        apply List.filter_eq_self.mpr
        intro x member
        have := least x member
        simp only [decide_eq_true_eq]
        omega
      simp only [ne_eq, decide_not] at kept
      simp [blank, kept]

/-- Whatever permutation the sort yields, the clean-up ends and drops exactly the blanks. -/
theorem cleanUp_total [DecidableEq α] (key : α → Nat) {result : List α}
    (v : FJFixVector α capacity) (sorted : SortOf key result v.items) :
    ∃ w, cleanUp key result v = some w ∧ w.items.Perm (v.items.filter fun x => key x ≠ 0) ∧
      w.items.Pairwise fun a b => key a ≤ key b := by
  obtain ⟨w, run, items⟩ := spliceFront_items key
    (⟨result, sorted.1.length_eq ▸ v.bounded⟩ : FJFixVector α capacity) (Nat.lt_succ_self _)
  refine ⟨w, ?_, ?_, ?_⟩
  · simp only [cleanUp, sort, dif_pos sorted, Option.bind_some]
    exact run
  · rw [items, dropWhile_of_sorted key sorted.2]
    exact sorted.1.filter _
  · rw [items]
    exact sorted.2.sublist (List.dropWhile_sublist _)

theorem cleanUp_items [DecidableEq α] {key : α → Nat} {result : List α}
    {v w : FJFixVector α capacity} (cleaned : cleanUp key result v = some w) :
    w.items.Perm (v.items.filter fun x => key x ≠ 0) ∧
      w.items.Pairwise fun a b => key a ≤ key b := by
  have sorted : SortOf key result v.items := by
    apply Classical.byContradiction
    intro unsorted
    simp [cleanUp, sort, unsorted] at cleaned
  obtain ⟨u, run, items⟩ := cleanUp_total key v sorted
  rw [cleaned, Option.some.injEq] at run
  exact run ▸ items

end FixVector
