import FJUtility.Library.CircularOrder
import FJUtility.SharedMem.Sending

/- The payload allocator over the whole ring of slots: which slots it looks at and in which
   order, and which of them it hands out. -/
namespace SharedAllocator
open CircularOrder SharedRegion SharedSending

def qualifies (now : Int) (pa : PayloadAtom) : Bool := !pa.inUse || reusable now pa

def handOut (idx : Nat) (r : Region) : Region :=
  let pa := r.payload idx
  { setPayload r idx (if pa.inUse then payloadAtomInit pa else pa) with payloadAllocHint := idx + 1 }

def ring (r : Region) : List Nat :=
  positions payloadSlots (r.payloadAllocHint % payloadSlots) 0 payloadSlots

def returned (now : Int) (r : Region) : Int × Region :=
  match allocPayloadSlot now r with
  | some (idx, region) => (idx, region)
  | none => (-1, r)

/-- The loop of _allocPayloadSlot with the slots that it has looked at. -/
def watchedFrom (now : Int) (start : Nat) (r : Region) :
    Nat → Nat → List Nat → List Nat × (Int × Region)
  | 0, _, seen => (seen, -1, r)
  | fuel + 1, n, seen =>
    let idx := (start + n) % payloadSlots
    let pa := r.payload idx
    if !pa.inUse then (seen ++ [idx], idx, { r with payloadAllocHint := idx + 1 })
    else if reusable now pa then
      (seen ++ [idx], idx,
        { setPayload r idx (payloadAtomInit pa) with payloadAllocHint := idx + 1 })
    else watchedFrom now start r fuel (n + 1) (seen ++ [idx])

def watched (now : Int) (r : Region) : List Nat × (Int × Region) :=
  watchedFrom now (r.payloadAllocHint % payloadSlots) r payloadSlots 0 []

theorem pending_refused {now : Int} {pa : PayloadAtom} (awaits : pending pa = true) :
    qualifies now pa = false := by
  simp only [pending, Bool.and_eq_true, Bool.not_eq_true'] at awaits
  simp [qualifies, reusable, awaits.1, awaits.2]

theorem handOut_free {idx : Nat} {r : Region} (free : (r.payload idx).inUse = false) :
    handOut idx r = { r with payloadAllocHint := idx + 1 } := by
  simp [handOut, setPayload, free]

theorem handOut_used {idx : Nat} {r : Region} (used : (r.payload idx).inUse = true) :
    handOut idx r =
      { setPayload r idx (payloadAtomInit (r.payload idx)) with payloadAllocHint := idx + 1 } := by
  simp [handOut, used]

theorem handOut_slot (idx : Nat) (r : Region) : ((handOut idx r).payload idx).inUse = false := by
  cases used : (r.payload idx).inUse with
  | false => rw [handOut_free used, used]
  | true => simp [handOut_used used, setPayload, payloadAtomInit]

theorem handOut_other {idx i : Nat} (r : Region) (other : i ≠ idx) :
    (handOut idx r).payload i = r.payload i :=
  Function.update_of_ne other _ _

/-- The scan is a search of the rest of the pass for the first slot that qualifies. -/
theorem allocPayloadSlotFrom_search (now : Int) (start : Nat) (r : Region) (fuel n : Nat) :
    allocPayloadSlotFrom now start r fuel n =
      ((positions payloadSlots start n fuel).find? fun i => qualifies now (r.payload i)).map
        fun idx => (idx, handOut idx r) := by
  induction fuel generalizing n with
  | zero => rfl
  | succ fuel ih =>
    rw [positions_cons, List.find?_cons]
    simp only [allocPayloadSlotFrom, position]
    cases used : (r.payload ((start + n) % payloadSlots)).inUse with
    | false => simp [qualifies, used, handOut_free used]
    | true =>
      cases old : reusable now (r.payload ((start + n) % payloadSlots)) with
      | false => simp [qualifies, used, old, ih]
      | true => simp [qualifies, used, old, handOut_used used]

theorem allocPayloadSlot_search (now : Int) (r : Region) :
    allocPayloadSlot now r =
      ((ring r).find? fun i => qualifies now (r.payload i)).map fun idx => (idx, handOut idx r) :=
  allocPayloadSlotFrom_search now _ r payloadSlots 0

theorem allocPayloadSlot_none {now : Int} {r : Region} :
    allocPayloadSlot now r = none ↔ ∀ i < payloadSlots, qualifies now (r.payload i) = false := by
  rw [allocPayloadSlot_search, Option.map_eq_none_iff, List.find?_eq_none]
  simp only [ring, mem_positions, Bool.not_eq_true]

theorem allocPayloadSlot_some {now : Int} {r r' : Region} {idx : Nat}
    (found : allocPayloadSlot now r = some (idx, r')) :
    r' = handOut idx r ∧ qualifies now (r.payload idx) = true ∧ idx < payloadSlots ∧
      ∃ passed rest, ring r = passed ++ idx :: rest ∧
        ∀ i ∈ passed, qualifies now (r.payload i) = false := by
  rw [allocPayloadSlot_search] at found
  obtain ⟨first, search, same⟩ := Option.map_eq_some_iff.mp found
  obtain ⟨rfl, rfl⟩ := Prod.mk.inj same
  obtain ⟨good, passed, rest, split, bad⟩ := List.find?_eq_some_iff_append.mp search
  refine ⟨rfl, good, ?_, passed, rest, split, fun i member => by simpa using bad i member⟩
  have member : first ∈ ring r := by simp [split]
  exact mem_positions.mp member

theorem watchedFrom_spec (now : Int) (start : Nat) (r : Region) (fuel n : Nat) (seen : List Nat) :
    ∃ looked rest, positions payloadSlots start n fuel = looked ++ rest ∧
      (watchedFrom now start r fuel n seen).1 = seen ++ looked ∧
      match allocPayloadSlotFrom now start r fuel n with
      | some (idx, region) =>
        (watchedFrom now start r fuel n seen).2 = (↑idx, region) ∧
          ∃ passed, looked = passed ++ [idx] ∧ ∀ i ∈ passed, qualifies now (r.payload i) = false
      | none => (watchedFrom now start r fuel n seen).2 = (-1, r) ∧ rest = [] := by
  induction fuel generalizing n seen with
  | zero => exact ⟨[], [], rfl, by simp [watchedFrom], rfl, rfl⟩
  | succ fuel ih =>
    rw [positions_cons]
    simp only [allocPayloadSlotFrom, watchedFrom, position]
    generalize here : (start + n) % payloadSlots = idx
    split
    · exact ⟨[idx], _, rfl, rfl, rfl, [], rfl, by simp⟩
    · rename_i used
      split
      · exact ⟨[idx], _, rfl, rfl, rfl, [], rfl, by simp⟩
      · rename_i young
        have refused : qualifies now (r.payload idx) = false := by
          simp only [Bool.not_eq_true', Bool.not_eq_false] at used
          simpa [qualifies, used] using young
        obtain ⟨looked, rest, split, examined, outcome⟩ := ih (n + 1) (seen ++ [idx])
        refine ⟨idx :: looked, rest, by rw [split]; rfl, by simp [examined], ?_⟩
        revert outcome
        cases allocPayloadSlotFrom now start r fuel (n + 1) with
        | none => exact id
        | some given =>
          rintro ⟨result, passed, rfl, bad⟩
          exact ⟨result, idx :: passed, rfl, List.forall_mem_cons.mpr ⟨refused, bad⟩⟩

/-- A call that has looked at the slots seen, returned idx and left r': it goes round the ring
    from the hint, takes the first slot that qualifies, and never one that awaits a worker. -/
structure FirstFit (now : Int) (r : Region) (seen : List Nat) (idx : Int) (r' : Region) : Prop where
  order : seen <+: ring r
  once : seen.Nodup
  fails : idx = -1 ↔ ∀ i < payloadSlots, qualifies now (r.payload i) = false
  untouched : idx = -1 → r' = r
  first : idx ≠ -1 → ∃ (passed : List Nat) (slot : Nat), seen = passed ++ [slot] ∧ idx = slot ∧
    slot < payloadSlots ∧ qualifies now (r.payload slot) = true ∧
    (∀ i ∈ passed, qualifies now (r.payload i) = false) ∧ (r'.payload slot).inUse = false ∧
    (∀ i, i ≠ slot → r'.payload i = r.payload i) ∧
    r' = { r with payload := r'.payload, payloadAllocHint := slot + 1 }
  spares : ∀ i : Nat, pending (r.payload i) = true → idx ≠ i ∧ r'.payload i = r.payload i

theorem firstFit_none {now : Int} {r : Region} {seen : List Nat} (order : seen <+: ring r)
    (once : seen.Nodup) (failed : allocPayloadSlot now r = none) : FirstFit now r seen (-1) r where
  order := order
  once := once
  fails := iff_of_true rfl (allocPayloadSlot_none.mp failed)
  untouched _ := rfl
  first given := absurd rfl given
  spares i _ := ⟨by omega, rfl⟩

theorem firstFit_some {now : Int} {r r' : Region} {passed : List Nat} {slot : Nat}
    (order : passed ++ [slot] <+: ring r) (once : (passed ++ [slot]).Nodup)
    (bad : ∀ i ∈ passed, qualifies now (r.payload i) = false)
    (found : allocPayloadSlot now r = some (slot, r')) :
    FirstFit now r (passed ++ [slot]) slot r' := by
  obtain ⟨rfl, good, within, _⟩ := allocPayloadSlot_some found
  refine ⟨order, once, iff_of_false (by omega) fun none_ => ?_, fun failed => by omega,
    fun _ => ⟨passed, slot, rfl, rfl, within, good, bad, handOut_slot slot r,
      fun i => handOut_other r, rfl⟩, fun i awaits => ?_⟩
  · rw [none_ slot within] at good
    exact Bool.noConfusion good
  · have other : i ≠ slot := by
      rintro rfl
      rw [pending_refused awaits] at good
      exact Bool.noConfusion good
    exact ⟨by omega, handOut_other r other⟩

/-- The allocator is a first-fit search of the whole ring from the hint. -/
theorem allocPayloadSlot_firstFit (now : Int) (r : Region) :
    (watched now r).2 = returned now r ∧
      FirstFit now r (watched now r).1 (returned now r).1 (returned now r).2 := by
  obtain ⟨looked, rest, split, examined, outcome⟩ :=
    watchedFrom_spec now (r.payloadAllocHint % payloadSlots) r payloadSlots 0 []
  have order : looked <+: ring r := ⟨rest, split.symm⟩
  have once : looked.Nodup := order.sublist.nodup (positions_nodup (Nat.le_refl _))
  have seen : (watched now r).1 = looked := examined
  rw [seen]
  unfold returned
  cases found : allocPayloadSlot now r with
  | none =>
    rw [show allocPayloadSlotFrom _ _ _ _ _ = none from found] at outcome
    exact ⟨outcome.1, firstFit_none order once found⟩
  | some given =>
    rw [show allocPayloadSlotFrom _ _ _ _ _ = some given from found] at outcome
    obtain ⟨result, passed, rfl, bad⟩ := outcome
    exact ⟨result, firstFit_some order once bad found⟩

end SharedAllocator
