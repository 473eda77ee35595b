import Mathlib.Algebra.GroupWithZero.Nat
import Mathlib.Data.List.Basic

/- Lists of agents that move one at a time. A move replaces the agent at one
   position, so every projection of the list splits around that position. -/
namespace AgentList
variable {α β : Type}

theorem split_at {l : List α} {i : Nat} {x : α} (found : l[i]? = some x) :
    ∃ pre post, l = pre ++ x :: post ∧ ∀ y, l.set i y = pre ++ y :: post := by
  obtain ⟨bound, rfl⟩ := List.getElem?_eq_some_iff.mp found
  refine ⟨l.take i, l.drop (i + 1), ?_, ?_⟩
  · simp
  · intro y
    simp [List.set_eq_take_append_cons_drop, bound]

theorem set_at {l : List α} {i : Nat} {x y z : α} (found : l[i]? = some x)
    (is : (l.set i y)[i]? = some z) : z = y := by
  obtain ⟨bound, _⟩ := List.getElem?_eq_some_iff.mp found
  rw [List.getElem?_set_self bound, Option.some.injEq] at is
  exact is.symm

theorem mem_set_iff {l : List α} {i : Nat} {x y z : α} (found : l[i]? = some x) :
    z ∈ l.set i y ↔ z = y ∨ z ∈ l.eraseIdx i := by
  obtain ⟨bound, rfl⟩ := List.getElem?_eq_some_iff.mp found
  rw [List.eraseIdx_eq_take_drop_succ, List.set_eq_take_append_cons_drop, if_pos bound,
    List.mem_append, List.mem_cons, List.mem_append]
  exact or_left_comm

theorem mem_iff_at {l : List α} {i : Nat} {x z : α} (found : l[i]? = some x) :
    z ∈ l ↔ z = x ∨ z ∈ l.eraseIdx i := by
  obtain ⟨bound, rfl⟩ := List.getElem?_eq_some_iff.mp found
  rw [← mem_set_iff found, List.set_getElem_self]

theorem mem_set_at {l : List α} {i : Nat} {x : α} (found : l[i]? = some x) (y : α) :
    y ∈ l.set i y :=
  (mem_set_iff found).mpr (Or.inl rfl)

theorem mem_set_other {l : List α} {i : Nat} {x z : α} (found : l[i]? = some x) (y : α)
    (member : z ∈ l) (other : z ≠ x) : z ∈ l.set i y :=
  (mem_set_iff found).mpr (Or.inr (((mem_iff_at found).mp member).resolve_left other))

theorem countP_set_at (p : α → Bool) {l : List α} {i : Nat} {x : α} (found : l[i]? = some x)
    (y : α) : (l.set i y).countP p + (if p x then 1 else 0) =
      l.countP p + if p y then 1 else 0 := by
  obtain ⟨pre, post, split, replaced⟩ := split_at found
  rw [replaced, split, List.countP_append, List.countP_append, List.countP_cons, List.countP_cons]
  omega

theorem sum_map_set_at (f : α → Nat) {l : List α} {i : Nat} {x : α} (found : l[i]? = some x)
    (y : α) : ((l.set i y).map f).sum + f x = (l.map f).sum + f y := by
  obtain ⟨pre, post, split, replaced⟩ := split_at found
  rw [replaced, split]
  simp only [List.map_append, List.map_cons, List.sum_append, List.sum_cons]
  omega

theorem filterMap_set_same (f : α → Option β) {l : List α} {i : Nat} {x y : α}
    (found : l[i]? = some x) (same : f y = f x) :
    (l.set i y).filterMap f = l.filterMap f := by
  obtain ⟨pre, post, split, replaced⟩ := split_at found
  rw [replaced, split]
  simp [List.filterMap_cons, same]

theorem filterMap_erase_unseen (f : α → Option β) {l : List α} {i : Nat} {x : α}
    (found : l[i]? = some x) (unseen : f x = none) :
    (l.eraseIdx i).filterMap f = l.filterMap f := by
  induction l generalizing i with
  | nil => rfl
  | cons head rest ih =>
    cases i with
    | zero =>
      obtain rfl := Option.some.inj found
      rw [List.eraseIdx_zero, List.tail_cons, List.filterMap_cons_none unseen]
    | succ i =>
      rw [List.eraseIdx_cons_succ, List.filterMap_cons, List.filterMap_cons, ih found]

theorem filterMap_counts (f : α → Option β) {l : List α} {i : Nat} {x : α}
    (found : l[i]? = some x) (seen : f x ≠ none) : 0 < (l.filterMap f).length := by
  obtain ⟨b, seen⟩ := Option.ne_none_iff_exists'.mp seen
  exact List.length_pos_of_mem (List.mem_filterMap.mpr ⟨x, List.mem_of_getElem? found, seen⟩)

/-- If a projection sees one agent at most, the agents it sees are the same one. -/
theorem filterMap_alone (f : α → Option β) {l : List α} (short : (l.filterMap f).length ≤ 1)
    {i j : Nat} {x y : α} (first : l[i]? = some x) (second : l[j]? = some y)
    (seenFirst : f x ≠ none) (seenSecond : f y ≠ none) : i = j := by
  induction l generalizing i j with
  | nil => simp at first
  | cons head rest ih =>
    cases i with
    | zero =>
      cases j with
      | zero => rfl
      | succ j =>
        simp only [List.getElem?_cons_zero, Option.some.injEq] at first
        subst first
        obtain ⟨b, seen⟩ := Option.ne_none_iff_exists'.mp seenFirst
        have := filterMap_counts f (by simpa using second) seenSecond
        simp only [List.filterMap_cons, seen, List.length_cons] at short
        omega
    | succ i =>
      cases j with
      | zero =>
        simp only [List.getElem?_cons_zero, Option.some.injEq] at second
        subst second
        obtain ⟨b, seen⟩ := Option.ne_none_iff_exists'.mp seenSecond
        have := filterMap_counts f (by simpa using first) seenFirst
        simp only [List.filterMap_cons, seen, List.length_cons] at short
        omega
      | succ j =>
        have shorter : (rest.filterMap f).length ≤ 1 :=
          Nat.le_trans ((List.sublist_cons_self head rest).filterMap f).length_le short
        exact congrArg Nat.succ (ih shorter (by simpa using first) (by simpa using second))

theorem flatMap_set_same (f : α → List β) {l : List α} {i : Nat} {x y : α}
    (found : l[i]? = some x) (same : f y = f x) : (l.set i y).flatMap f = l.flatMap f := by
  obtain ⟨pre, post, split, replaced⟩ := split_at found
  rw [replaced, split]
  simp [same]

theorem flatMap_set_sublist (f : α → List β) {l : List α} {i : Nat} {x y : α}
    (found : l[i]? = some x) (fewer : (f y).Sublist (f x)) :
    ((l.set i y).flatMap f).Sublist (l.flatMap f) := by
  obtain ⟨pre, post, split, replaced⟩ := split_at found
  rw [replaced, split]
  simp only [List.flatMap_append, List.flatMap_cons]
  exact (List.Sublist.refl _).append (fewer.append (List.Sublist.refl _))

theorem flatMap_alone (f : α → List β) {l : List α} {i : Nat} {x : α} (found : l[i]? = some x)
    (alone : ∀ (j : Nat) y, l[j]? = some y → f y ≠ [] → j = i) :
    l.flatMap f = f x ∧ ∀ y, (l.set i y).flatMap f = f y := by
  induction l generalizing i with
  | nil => simp at found
  | cons head rest ih =>
    cases i with
    | zero =>
      simp only [List.getElem?_cons_zero, Option.some.injEq] at found
      subst found
      have empty : rest.flatMap f = [] := by
        apply List.flatMap_eq_nil_iff.mpr
        intro y member
        obtain ⟨j, there⟩ := List.mem_iff_getElem?.mp member
        apply Classical.byContradiction
        intro holds
        exact absurd (alone (j + 1) y there holds) (Nat.succ_ne_zero j)
      simp [empty]
    | succ i =>
      have empty : f head = [] := by
        apply Classical.byContradiction
        intro holds
        exact absurd (alone 0 head rfl holds) (Nat.succ_ne_zero i).symm
      have later := ih (i := i) (by simpa using found) fun j y there holds =>
        Nat.succ.inj (alone (j + 1) y there holds)
      simpa [empty] using later

theorem exists_at_cons {P : Nat → α → Prop} {head : α} {rest : List α} :
    (∃ k x, (head :: rest)[k]? = some x ∧ P k x) ↔
      P 0 head ∨ ∃ k x, rest[k]? = some x ∧ P (k + 1) x := by
  constructor
  · rintro ⟨k, x, there, holds⟩
    cases k with
    | zero =>
      obtain rfl := Option.some.inj there
      exact Or.inl holds
    | succ k => exact Or.inr ⟨k, x, there, holds⟩
  · rintro (holds | ⟨k, x, there, holds⟩)
    · exact ⟨0, head, rfl, holds⟩
    · exact ⟨k + 1, x, there, holds⟩

end AgentList
