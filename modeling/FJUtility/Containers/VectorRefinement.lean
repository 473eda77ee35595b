import FJUtility.Containers.RawVector
import FJUtility.Containers.FixVector

/- Every operation of the vector on bytes is one on the list of its elements. Runs of
   operations from the constructor follow, and the link to the vector as a bounded list. -/
namespace VectorRefinement
open RawVector
variable {α : Type}

section Operations
variable {layout : Layout α} {v : RawVector.FJFixVector}

structure Performed (layout : Layout α) (v : FJFixVector) (op : Operation α) (w : FJFixVector)
    (reply : Reply α) : Prop where
  fits : Fits layout w
  capacity : w.capacity = v.capacity
  refines : listPerform v.capacity (contents layout v) op = (contents layout w, reply)

theorem grown_contents (items : List α) (fits : Fits layout v) (room : v.count < v.capacity)
    {w : FJFixVector} (count : w.count = v.count) (capacity : w.capacity = v.capacity)
    (length : items.length = v.count + 1)
    (each : ∀ i, ∀ bound : i < items.length, items[i] = element layout w.buffer i) :
    Fits layout { w with count := wrap (w.count + 1) } ∧
      items = contents layout { w with count := wrap (w.count + 1) } := by
  have grown : wrap (w.count + 1) = v.count + 1 := by
    rw [count]
    exact wrap_small (index_small fits room)
  rw [grown]
  refine ⟨⟨?_, ?_⟩, contents_of_elements length each⟩
  · rw [capacity]
    exact room
  · rw [capacity]
    exact fits.small

theorem pushBack_performed (fits : Fits layout v) (item : α) :
    ∃ w ok, pushBack layout item v = some (w, ok) ∧
      Performed layout v (.pushBack item) w (.pushed ok) := by
  by_cases full : v.count ≥ v.capacity
  · refine ⟨v, false, by rw [pushBack, if_pos full], fits, rfl, ?_⟩
    rw [listPerform, contents_length, if_neg (by omega)]
  · have room : v.count < v.capacity := Nat.lt_of_not_le full
    obtain ⟨w, copied, count, capacity, elements⟩ := memcpy_element layout item room
    obtain ⟨fitting, list⟩ := grown_contents (contents layout v ++ [item]) fits room count
      capacity (by simp [contents_length]) (by
        intro i bound
        rw [elements, List.getElem_append]
        simp only [List.length_append, contents_length, List.length_singleton] at bound
        split
        · rename_i earlier
          rw [contents_length] at earlier
          rw [if_neg (by omega), contents_getElem]
        · rename_i last
          rw [contents_length] at last
          rw [if_pos (by omega), List.getElem_singleton])
    refine ⟨{ w with count := wrap (w.count + 1) }, true, ?_, fitting, capacity, ?_⟩
    · rw [pushBack, if_neg full, offset_small fits fits.bounded, copied]
      rfl
    · rw [listPerform, contents_length, if_pos room, list]

theorem pushFront_performed (fits : Fits layout v) (item : α) :
    ∃ w ok, pushFront layout item v = some (w, ok) ∧
      Performed layout v (.pushFront item) w (.pushed ok) := by
  by_cases full : v.count ≥ v.capacity
  · refine ⟨v, false, by rw [pushFront, if_pos full], fits, rfl, ?_⟩
    rw [listPerform, contents_length, if_neg (by omega)]
  · have room : v.count < v.capacity := Nat.lt_of_not_le full
    obtain ⟨u, moved, count, capacity, shifted⟩ := memmove_elements layout (v := v)
      (d := 1) (e := 0) (k := v.count) (by omega) (by omega)
    rw [Nat.one_mul, Nat.zero_mul] at moved
    obtain ⟨w, copied, count', capacity', elements⟩ :=
      memcpy_element layout (d := 0) (v := u) item (by omega)
    rw [Nat.zero_mul] at copied
    obtain ⟨fitting, list⟩ := grown_contents (item :: contents layout v) fits room
      (count'.trans count) (capacity'.trans capacity) (by simp [contents_length]) (by
        intro i bound
        simp only [List.length_cons, contents_length] at bound
        rw [elements]
        cases i with
        | zero => rfl
        | succ i =>
          rw [if_neg (by omega), shifted, if_pos (by omega), List.getElem_cons_succ, contents_getElem]
          rfl)
    refine ⟨{ w with count := wrap (w.count + 1) }, true, ?_, fitting, capacity'.trans capacity, ?_⟩
    · rw [pushFront, if_neg full, offset_small fits fits.bounded, moved, Option.bind_some, copied]
      rfl
    · rw [listPerform, contents_length, if_pos room, list]

theorem clamped {start n total : Nat} (inside : start < total) (fitting : total ≤ sizeMax)
    (small : start + n ≤ sizeMax) :
    (if wrap (start + n) > total then minus total start else n) = min n (total - start) := by
  rw [wrap_small small]
  split
  · rw [minus_small (by omega) fitting]
    omega
  · omega

theorem splice_elements (fits : Fits layout v) {start n : Nat} (inside : start < v.count)
    (small : start + n ≤ sizeMax) {m : Nat} (clamp : m = min n (v.count - start)) :
    ∃ w : FJFixVector, splice layout start n v = some { w with count := v.count - m } ∧
      w.capacity = v.capacity ∧ ∀ i, i < v.count - m → element layout w.buffer i =
        if i < start then element layout v.buffer i else element layout v.buffer (i + m) := by
  have bounded := fits.bounded
  have total := index_small fits bounded
  have within : wrap (start + m) = start + m := wrap_small (by omega)
  unfold splice
  rw [if_neg (by omega)]
  dsimp only
  rw [clamped inside total small, ← clamp, within, minus_small (by omega) total]
  split
  · rename_i some_left
    obtain ⟨w, moved, count, capacity, elements⟩ := memmove_elements layout (v := v)
      (d := start) (e := start + m) (k := v.count - (start + m)) (by omega) (by omega)
    refine ⟨w, ?_, capacity, ?_⟩
    · rw [pointerAt, if_neg (by omega), pointerAt, if_neg (by omega),
        offset_small fits (by omega), offset_small fits (by omega), offset_small fits (by omega)]
      dsimp only
      rw [moved, Option.map_some, count, minus_small (by omega) total]
    · intro i bound
      rw [elements]
      by_cases before : i < start
      · rw [if_pos before, if_neg (by omega)]
      · rw [if_neg before, if_pos (by omega)]
        congr 1
        omega
  · rename_i none_left
    refine ⟨v, ?_, rfl, ?_⟩
    · rw [Option.map_some, minus_small (by omega) total]
    · intro i bound
      rw [if_pos (by omega)]

theorem splice_performed (fits : Fits layout v) {start n : Nat} (small : start + n ≤ sizeMax) :
    ∃ w, splice layout start n v = some w ∧ Performed layout v (.splice start n) w .done := by
  by_cases inside : start < v.count
  · obtain ⟨w, spliced, capacity, elements⟩ := splice_elements fits inside small rfl
    refine ⟨_, spliced, ⟨?_, ?_⟩, capacity, ?_⟩
    · have := fits.bounded
      rw [capacity]
      exact Nat.le_trans (Nat.sub_le _ _) fits.bounded
    · rw [capacity]
      exact fits.small
    · rw [listPerform, Prod.mk.injEq]
      refine ⟨contents_of_elements ?_ ?_, rfl⟩
      · simp only [List.length_append, List.length_take, List.length_drop, contents_length]
        omega
      · intro i bound
        simp only [List.length_append, List.length_take, List.length_drop, contents_length] at bound
        rw [elements i (by omega), List.getElem_append]
        simp only [List.length_take, contents_length, List.getElem_take, List.getElem_drop,
          contents_getElem]
        by_cases before : i < start
        · rw [if_pos before, dif_pos (by omega)]
        · rw [if_neg before, dif_neg (by omega)]
          congr 1
          omega
  · refine ⟨v, by rw [splice, if_pos (by omega)], fits, rfl, ?_⟩
    rw [listPerform, List.take_of_length_le (by rw [contents_length]; omega),
      List.drop_eq_nil_of_le (by rw [contents_length]; omega), List.append_nil]

theorem readFrom_succeeds (fits : Fits layout v) {n i : Nat} (within : i + n ≤ v.capacity) :
    ∃ items, readFrom layout v n i = some items := by
  induction n generalizing i with
  | zero => exact ⟨[], rfl⟩
  | succ n ih =>
    obtain ⟨rest, tail⟩ := ih (i := i + 1) (by omega)
    refine ⟨element layout v.buffer i :: rest, ?_⟩
    rw [readFrom, offset_small fits (by omega), read_element (by omega), Option.bind_some, tail,
      Option.map_some]

theorem storeFrom_elements (fits : Fits layout v) (items : List α) {i : Nat}
    (within : i + items.length ≤ v.capacity) :
    ∃ w, storeFrom layout items i v = some w ∧ w.count = v.count ∧ w.capacity = v.capacity ∧
      (∀ k, k < i → element layout w.buffer k = element layout v.buffer k) ∧
        ∀ k, ∀ bound : k < items.length, items[k] = element layout w.buffer (i + k) := by
  induction items generalizing i v with
  | nil => exact ⟨v, rfl, rfl, rfl, fun _ _ => rfl, fun k bound => absurd bound (Nat.not_lt_zero k)⟩
  | cons x rest ih =>
    rw [List.length_cons] at within
    obtain ⟨u, copied, count, capacity, elements⟩ :=
      memcpy_element layout (d := i) (v := v) x (by omega)
    have fitting : Fits layout u := by
      constructor
      · rw [count, capacity]
        exact fits.bounded
      · rw [capacity]
        exact fits.small
    obtain ⟨w, stored, count', capacity', before, after⟩ :=
      ih (v := u) (i := i + 1) fitting (by omega)
    refine ⟨w, ?_, count'.trans count, capacity'.trans capacity, ?_, ?_⟩
    · rw [storeFrom, offset_small fits (by omega), copied, Option.bind_some, stored]
    · intro k less
      rw [before k (by omega), elements, if_neg (by omega)]
    · intro k bound
      cases k with
      | zero => rw [Nat.add_zero, before i (by omega), elements, if_pos rfl, List.getElem_cons_zero]
      | succ k =>
        rw [List.getElem_cons_succ, after k (by simpa using bound)]
        congr 1
        omega

theorem sort_performed (fits : Fits layout v) {comp : α → α → Bool} {result : List α}
    (sorted : SortOf comp result (contents layout v)) :
    ∃ w, sort layout result v = some w ∧ Performed layout v (.sort comp result) w .done := by
  have length : result.length = v.count := sorted.perm.length_eq.trans contents_length
  have bounded := fits.bounded
  obtain ⟨items, loaded⟩ := readFrom_succeeds fits (n := v.count) (i := 0) (by omega)
  obtain ⟨w, stored, count, capacity, _, elements⟩ :=
    storeFrom_elements fits result (i := 0) (by omega)
  refine ⟨w, ?_, ⟨?_, ?_⟩, capacity, ?_⟩
  · rw [sort, loaded, Option.bind_some, stored]
  · rw [count, capacity]
    exact bounded
  · rw [capacity]
    exact fits.small
  · rw [listPerform, Prod.mk.injEq]
    refine ⟨contents_of_elements (length.trans count.symm) ?_, rfl⟩
    intro i bound
    rw [elements i bound, Nat.zero_add]

theorem deref_performed (fits : Fits layout v) (index : Nat) :
    deref layout v (pointerAt layout v index) = some (contents layout v)[index]? := by
  have bounded := fits.bounded
  unfold pointerAt
  split
  · rw [deref, List.getElem?_eq_none (by rw [contents_length]; omega)]
  · rw [deref, offset_small fits (by omega), read_element (by omega), Option.map_some,
      List.getElem?_eq_getElem (by rw [contents_length]; omega), contents_getElem]

/-- One operation on the bytes is the operation on the list, and it does not fault. -/
theorem perform_refines (fits : Fits layout v) {op : Operation α}
    (permitted : Permitted (contents layout v) op) :
    ∃ w reply, perform layout v op = some (w, reply) ∧ Performed layout v op w reply := by
  cases op with
  | pushBack item =>
    obtain ⟨w, ok, pushed, performed⟩ := pushBack_performed fits item
    exact ⟨w, .pushed ok, by rw [perform, pushed]; rfl, performed⟩
  | pushFront item =>
    obtain ⟨w, ok, pushed, performed⟩ := pushFront_performed fits item
    exact ⟨w, .pushed ok, by rw [perform, pushed]; rfl, performed⟩
  | splice start n =>
    obtain ⟨w, spliced, performed⟩ := splice_performed fits permitted
    exact ⟨w, .done, by rw [perform, spliced]; rfl, performed⟩
  | sort comp result =>
    obtain ⟨w, sorted, performed⟩ := sort_performed fits permitted
    exact ⟨w, .done, by rw [perform, sorted]; rfl, performed⟩
  | elementAt index =>
    refine ⟨v, .element (contents layout v)[index]?, ?_, fits, rfl, rfl⟩
    rw [perform, deref_performed fits]
    rfl
  | subscript index =>
    refine ⟨v, .element (contents layout v)[index]?, ?_, fits, rfl, rfl⟩
    rw [perform, subscript, deref_performed fits]
    rfl

def bounded (fits : Fits layout v) : FixVector.FJFixVector α v.capacity :=
  ⟨contents layout v, by rw [contents_length]; exact fits.bounded⟩

theorem bounded_pushBack (fits : Fits layout v) (item : α) :
    listPerform v.capacity (contents layout v) (.pushBack item) =
      ((FixVector.pushBack (bounded fits) item).1.items,
        .pushed (FixVector.pushBack (bounded fits) item).2) := by
  by_cases room : (contents layout v).length < v.capacity
  · simp [listPerform, FixVector.pushBack, bounded, room]
  · simp [listPerform, FixVector.pushBack, bounded, room]

theorem bounded_splice (fits : Fits layout v) (start count : Nat) :
    listPerform v.capacity (contents layout v) (.splice start count) =
      ((FixVector.splice (bounded fits) start count).items, .done) := rfl

theorem create_fits (buffer : Nat → UInt8) {bufferSize : Nat} (small : bufferSize ≤ sizeMax)
    (count : Nat) : Fits layout (create layout buffer bufferSize count) := by
  constructor
  · simp only [create]
    split
    · exact Nat.le_refl _
    · omega
  · exact Nat.le_trans (Nat.div_mul_le_self _ _) small

end Operations

theorem sortOf_exists {comp : α → α → Bool}
    (order : IsStrictWeakOrder α fun a b => comp a b = true) (items : List α) :
    ∃ result, SortOf comp result items := by
  have trans : ∀ a b c, (!comp b a) = true → (!comp c b) = true → (!comp c a) = true := by
    intro a b c ba cb
    simp only [Bool.not_eq_true'] at ba cb ⊢
    apply Bool.eq_false_iff.mpr
    intro ca
    have ab : comp a b ≠ true := fun ab => by simp [order.trans c a b ca ab] at cb
    have bc : comp b c ≠ true := fun bc => by simp [order.trans b c a bc ca] at ba
    exact (order.incomp_trans a b c ⟨ab, by simp [ba]⟩ ⟨bc, by simp [cb]⟩).2 ca
  have total : ∀ a b, ((!comp b a) || (!comp a b)) = true := by
    intro a b
    cases ab : comp a b with
    | false => simp
    | true =>
      cases ba : comp b a with
      | false => rfl
      | true => exact absurd (order.trans a b a ab ba) (order.irrefl a)
  refine ⟨items.mergeSort fun a b => !comp b a, order, List.mergeSort_perm _ _, ?_⟩
  have sorted := List.pairwise_mergeSort trans total items
  exact sorted.imp fun before => by simpa using before

structure Refines (layout : Layout α) (capacity : Nat) (v : FJFixVector) (items : List α) : Prop where
  capacity_same : v.capacity = capacity
  bounded : items.length ≤ capacity
  list : contents layout v = items
  null_exactly : ∀ index, (pointerAt layout v index = none ↔ items.length ≤ index) ∧
    (subscript layout v index = none ↔ items.length ≤ index)
  full_unchanged : items.length = capacity → ∀ item,
    pushBack layout item v = some (v, false) ∧ pushFront layout item v = some (v, false)

theorem fits_refines {layout : Layout α} {v : FJFixVector} (fits : Fits layout v) :
    Refines layout v.capacity v (contents layout v) := by
  have null : ∀ index, pointerAt layout v index = none ↔ (contents layout v).length ≤ index := by
    intro index
    rw [contents_length]
    unfold pointerAt
    split
    · rename_i outside
      exact iff_of_true rfl outside
    · rename_i inside
      exact iff_of_false (Option.some_ne_none _) inside
  refine ⟨rfl, by rw [contents_length]; exact fits.bounded, rfl, ?_, ?_⟩
  · intro index
    exact ⟨null index, null index⟩
  · intro full item
    rw [contents_length] at full
    constructor
    · rw [pushBack, if_pos (by omega)]
    · rw [pushFront, if_pos (by omega)]

theorem performAll_refines {layout : Layout α} {v : FJFixVector} (fits : Fits layout v)
    {ops : List (Operation α)} (permitted : PermittedAll v.capacity (contents layout v) ops) :
    ∃ w replies, performAll layout v ops = some (w, replies) ∧
      Refines layout v.capacity w (listPerformAll v.capacity (contents layout v) ops).1 ∧
        replies = (listPerformAll v.capacity (contents layout v) ops).2 := by
  induction ops generalizing v with
  | nil => exact ⟨v, [], rfl, fits_refines fits, rfl⟩
  | cons op rest ih =>
    obtain ⟨w, reply, performed, step⟩ := perform_refines fits permitted.1
    have later := permitted.2
    rw [step.refines, ← step.capacity] at later
    obtain ⟨final, replies, run, refines, same⟩ := ih step.fits later
    refine ⟨final, reply :: replies, ?_, ?_, ?_⟩
    · rw [performAll, performed, Option.bind_some]
      dsimp only
      rw [run, Option.map_some]
    · rw [listPerformAll, step.refines, ← step.capacity]
      exact refines
    · rw [listPerformAll, step.refines, ← step.capacity, same]

/-- The elements the constructor takes over: those of the buffer, clamped to the capacity. -/
def initialItems (layout : Layout α) (buffer : Nat → UInt8) (bufferSize count : Nat) : List α :=
  (List.range (min count (bufferSize / layout.sizeof))).map (element layout buffer)

/-- No permitted sequence of operations faults, and the vector is the bounded list throughout. -/
theorem vector_refines_list (layout : Layout α) (buffer : Nat → UInt8) {bufferSize : Nat}
    (small : bufferSize ≤ sizeMax) (count : Nat) {ops : List (Operation α)}
    (permitted : PermittedAll (bufferSize / layout.sizeof)
      (initialItems layout buffer bufferSize count) ops) :
    ∃ v replies, performAll layout (create layout buffer bufferSize count) ops = some (v, replies) ∧
      Refines layout (bufferSize / layout.sizeof) v (listPerformAll (bufferSize / layout.sizeof)
        (initialItems layout buffer bufferSize count) ops).1 ∧
      replies = (listPerformAll (bufferSize / layout.sizeof)
        (initialItems layout buffer bufferSize count) ops).2 := by
  have initial : contents layout (create layout buffer bufferSize count) =
      initialItems layout buffer bufferSize count := by
    have clamp : (create layout buffer bufferSize count).count =
        min count (bufferSize / layout.sizeof) := by
      simp only [create]
      split
      · omega
      · omega
    rw [contents, initialItems, clamp]
    rfl
  rw [← initial] at permitted ⊢
  exact performAll_refines (create_fits buffer small count) permitted

def byteLayout : Layout UInt8 where
  sizeof := 1
  positive := Nat.one_pos
  encode x _ := x
  decode bytes := bytes 0
  decode_encode _ := rfl
  own_bytes _ _ same := same 0 Nat.one_pos

def ascending (a b : UInt8) : Bool := a.toNat < b.toNat

theorem ascending_order : IsStrictWeakOrder UInt8 fun a b => ascending a b = true where
  irrefl a := by simp [ascending]
  trans a b c ab bc := by
    simp only [ascending, decide_eq_true_eq] at *
    omega
  incomp_trans a b c ab bc := by
    simp only [ascending, decide_eq_true_eq] at *
    omega

def fourOperations : List (Operation UInt8) :=
  [.splice 0 1, .pushFront 7, .sort ascending [0, 7], .elementAt 1]

theorem vector_refines_list_four : ∃ v replies,
    performAll byteLayout (create byteLayout (fun _ => 0) 2 9) fourOperations = some (v, replies) ∧
      Refines byteLayout (2 / 1) v
        (listPerformAll (2 / 1) (initialItems byteLayout (fun _ => 0) 2 9) fourOperations).1 ∧
      replies =
        (listPerformAll (2 / 1) (initialItems byteLayout (fun _ => 0) 2 9) fourOperations).2 := by
  have sorted : SortOf ascending [0, 7] [7, 0] := ⟨ascending_order, by decide, by decide⟩
  exact vector_refines_list byteLayout (fun _ => 0) (by decide) 9
    ⟨(by decide : 0 + 1 ≤ sizeMax), trivial, sorted, trivial, trivial⟩

end VectorRefinement
