import Mathlib.Data.List.Perm.Subperm
import Mathlib.Data.List.Nodup
import Mathlib.Data.Nat.ModEq

/- The positions of a ring of a given size in circular order. A pass over the ring takes one
   turn for each position, from any start. -/
namespace CircularOrder

def position (size start turn : Nat) : Nat := (start + turn) % size

def positions (size start turn count : Nat) : List Nat :=
  (List.range' turn count).map (position size start)

theorem position_lt {size : Nat} (start turn : Nat) (some_ : 0 < size) :
    position size start turn < size :=
  Nat.mod_lt _ some_

theorem position_first {size start : Nat} (within : start < size) :
    position size start 0 = start :=
  Nat.mod_eq_of_lt within

theorem position_next (size start turn : Nat) :
    (position size start turn + 1) % size = position size start (turn + 1) := by
  simp only [position, Nat.mod_add_mod, Nat.add_assoc]

theorem positions_cons (size start turn count : Nat) :
    positions size start turn (count + 1) =
      position size start turn :: positions size start (turn + 1) count := by
  simp [positions, List.range'_succ]

theorem positions_concat (size start turn count : Nat) :
    positions size start turn (count + 1) =
      positions size start turn count ++ [position size start (turn + count)] := by
  simp [positions, List.range'_concat]

theorem position_apart {size start i j : Nat} (later : i < j) (near : j - i < size) :
    position size start i ≠ position size start j := by
  intro same
  have cancelled : i ≡ j [MOD size] := Nat.ModEq.add_left_cancel' start same
  have whole : size ∣ j - i := (Nat.modEq_iff_dvd' (Nat.le_of_lt later)).mp cancelled
  have round := Nat.le_of_dvd (Nat.sub_pos_of_lt later) whole
  exact Nat.not_lt_of_le round near

theorem position_around (size start turn : Nat) :
    position size start (turn + size) = position size start turn := by
  rw [position, ← Nat.add_assoc, Nat.add_mod_right, position]

theorem position_injective {size start i j : Nat} (first : i < size) (second : j < size)
    (same : position size start i = position size start j) : i = j := by
  have cancelled : i ≡ j [MOD size] := Nat.ModEq.add_left_cancel' start same
  exact Nat.ModEq.eq_of_lt_of_lt cancelled first second

theorem positions_nodup {size start count : Nat} (once : count ≤ size) :
    (positions size start 0 count).Nodup := by
  apply List.Nodup.map_on _ List.nodup_range'
  intro i first j second same
  have before := List.mem_range'_1.mp first
  have behind := List.mem_range'_1.mp second
  apply position_injective _ _ same
  · omega
  · omega

theorem positions_complete {size : Nat} (start : Nat) (some_ : 0 < size) :
    (positions size start 0 size).Perm (List.range size) := by
  have within : positions size start 0 size ⊆ List.range size := by
    intro p member
    obtain ⟨turn, _, rfl⟩ := List.mem_map.mp member
    exact List.mem_range.mpr (position_lt start turn some_)
  have subperm := List.subperm_of_subset (positions_nodup (Nat.le_refl size)) within
  apply subperm.perm_of_length_le
  simp [positions]

theorem mem_positions {size start p : Nat} : p ∈ positions size start 0 size ↔ p < size := by
  rcases Nat.eq_zero_or_pos size with rfl | some_
  · simp [positions]
  · rw [(positions_complete start some_).mem_iff, List.mem_range]

/-- The turns that a ring has made since it last left a place. -/
def since (size start turn place : Nat) : Nat :=
  if place < position size start turn then position size start turn - place - 1
  else size - 1 - (place - position size start turn)

theorem since_lt {size place : Nat} (start turn : Nat) (within : place < size) :
    since size start turn place < size := by
  have here := position_lt start turn (Nat.zero_lt_of_lt within)
  unfold since
  split <;> omega

theorem since_next {size start turn place : Nat} (within : place < size) :
    since size start (turn + 1) place =
      if position size start turn = place then 0 else since size start turn place + 1 := by
  have here := position_lt start turn (Nat.zero_lt_of_lt within)
  have next := position_next size start turn
  unfold since
  rw [← next]
  rcases Nat.lt_or_ge (position size start turn + 1) size with inside | ends
  · rw [Nat.mod_eq_of_lt inside]
    split_ifs <;> omega
  · have last : position size start turn + 1 = size := Nat.le_antisymm here ends
    rw [last, Nat.mod_self]
    split_ifs <;> omega

section Tour
variable {α : Type}

/-- What the positions of a ring hold that has the entries of a list and one end behind them. -/
def tour (entries : List α) (start count : Nat) : List α :=
  (positions (entries.length + 1) start 0 count).filterMap fun p => entries[p]?

theorem tour_next (entries : List α) (start count : Nat) :
    tour entries start (count + 1) =
      tour entries start count ++ (entries[position (entries.length + 1) start count]?).toList := by
  rw [tour, positions_concat, Nat.zero_add, List.filterMap_append, List.filterMap_cons]
  cases entries[position (entries.length + 1) start count]? with
  | none => rfl
  | some entry => rfl

theorem range_entries (entries : List α) :
    (List.range (entries.length + 1)).filterMap (fun p => entries[p]?) = entries := by
  induction entries with
  | nil => simp
  | cons first rest ih =>
    rw [List.length_cons, List.range_succ_eq_map]
    simp only [List.filterMap_cons, List.getElem?_cons_zero, List.filterMap_map]
    exact congrArg (first :: ·) ih

/-- A round takes every entry once, and the end. -/
theorem tour_complete (entries : List α) (start : Nat) :
    (tour entries start (entries.length + 1)).Perm entries := by
  have round := (positions_complete start (Nat.succ_pos entries.length)).filterMap
    fun p => entries[p]?
  rwa [range_entries] at round

theorem position_after_entry {entries : List α} {start turn : Nat} {entry : α}
    (here : entries[position (entries.length + 1) start turn]? = some entry) :
    position (entries.length + 1) start (turn + 1) =
      position (entries.length + 1) start turn + 1 := by
  obtain ⟨within, _⟩ := List.getElem?_eq_some_iff.mp here
  rw [← position_next]
  exact Nat.mod_eq_of_lt (Nat.succ_lt_succ within)

theorem position_after_end {entries : List α} {start turn : Nat}
    (here : entries[position (entries.length + 1) start turn]? = none) :
    position (entries.length + 1) start (turn + 1) = 0 := by
  have behind := List.getElem?_eq_none_iff.mp here
  have within := position_lt start turn (Nat.succ_pos entries.length)
  rw [← position_next, Nat.le_antisymm (Nat.le_of_lt_succ within) behind]
  exact Nat.mod_self _

end Tour

end CircularOrder
