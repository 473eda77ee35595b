import FJUtility.Containers.RawVector
import FJUtility.Containers.MapRefinement

/- FJFixMap on the bytes of its buffer, an Entry being the bytes of a key, padding and those of a
   value. An access that is not inside the entries below capacity is a fault. -/
namespace RawMap
open RawVector MapRefinement
variable {V : Type}

structure EntryLayout (V : Type) where
  key : Layout UInt32
  value : Layout V
  offset : Nat
  sizeof : Nat
  apart : key.sizeof ≤ offset
  within : offset + value.sizeof ≤ sizeof

structure FJFixMap where
  buffer : Nat → UInt8
  capacity : Nat
  count : Nat

section Code
variable (layout : EntryLayout V)

/-- The failure is the assertion on the count. -/
def create (buffer : Nat → UInt8) (maxbufsize count : Nat) : Option FJFixMap :=
  let capacity := maxbufsize / layout.sizeof
  if count ≤ capacity then some ⟨buffer, capacity, count⟩ else none

def limit (m : FJFixMap) : Nat := m.capacity * layout.sizeof

def load {α : Type} (field : Layout α) (p : Nat) (m : FJFixMap) : Option α :=
  if p + field.sizeof ≤ limit layout m then some (field.decode fun j => m.buffer (p + j))
  else none

def store (p n : Nat) (bytes : Nat → UInt8) (m : FJFixMap) : Option FJFixMap :=
  if p + n ≤ limit layout m then
    some { m with buffer := fun a => if p ≤ a ∧ a < p + n then bytes (a - p) else m.buffer a }
  else none

def keyAt (i : Nat) (m : FJFixMap) : Option UInt32 :=
  load layout layout.key (i * layout.sizeof) m

/-- &entries_[i].value, as an offset from entries_. -/
def valueAt (i : Nat) : Nat := i * layout.sizeof + layout.offset

/-- entries_[dst] = entries_[src] -/
def assign (dst src : Nat) (m : FJFixMap) : Option FJFixMap :=
  if src * layout.sizeof + layout.sizeof ≤ limit layout m then
    store layout (dst * layout.sizeof) layout.sizeof
      (fun j => m.buffer (src * layout.sizeof + j)) m
  else none

def setKey (i : Nat) (key : UInt32) (m : FJFixMap) : Option FJFixMap :=
  store layout (i * layout.sizeof) layout.key.sizeof (layout.key.encode key) m

def findIndexFrom (key : UInt32) (m : FJFixMap) : Nat → Nat → Nat → Option (Option Nat)
  | 0, _, _ => some none
  | fuel + 1, left, right =>
    if left < right then
      let mid := wrap (left + right) / 2
      (keyAt layout mid m).bind fun k =>
        if k = key then some (some mid)
        else if k < key then findIndexFrom key m fuel (mid + 1) right
        else findIndexFrom key m fuel left mid
    else some none

def findIndex (key : UInt32) (m : FJFixMap) : Option Int :=
  (findIndexFrom layout key m m.count 0 m.count).map fun found =>
    match found with
    | some mid => castInt mid
    | none => -1

def find (key : UInt32) (m : FJFixMap) : Option (Option Nat) :=
  (findIndex layout key m).map fun idx =>
    if idx ≥ 0 then some (valueAt layout idx.toNat) else none

def insertPosFrom (key : UInt32) (m : FJFixMap) : Nat → Nat → Option Nat
  | 0, pos => some pos
  | fuel + 1, pos =>
    if pos < m.count then
      (keyAt layout pos m).bind fun k =>
        if k < key then insertPosFrom key m fuel (pos + 1) else some pos
    else some pos

def shiftUp (pos : Nat) : Nat → FJFixMap → Option FJFixMap
  | 0, m => some m
  | i + 1, m => if i + 1 > pos then (assign layout (i + 1) i m).bind (shiftUp pos i) else some m

def shiftDown : Nat → Nat → FJFixMap → Option FJFixMap
  | 0, _, m => some m
  | fuel + 1, i, m =>
    if i + 1 < m.count then (assign layout i (i + 1) m).bind (shiftDown fuel (i + 1)) else some m

/-- The outer none is a fault, the inner one the assertion on the capacity. -/
def insert (key : UInt32) (m : FJFixMap) : Option (Option (FJFixMap × Nat)) :=
  (find layout key m).bind fun p =>
    match p with
    | some p => some (some (m, p))
    | none =>
      if m.count < m.capacity then
        (insertPosFrom layout key m m.count 0).bind fun pos =>
          (shiftUp layout pos m.count m).bind fun shifted =>
            (setKey layout pos key shifted).map fun placed =>
              some ({ placed with count := wrap (placed.count + 1) }, valueAt layout pos)
      else some none

def unset (key : UInt32) (m : FJFixMap) : Option (FJFixMap × Bool) :=
  (findIndex layout key m).bind fun idx =>
    if idx < 0 then some (m, false)
    else (shiftDown layout m.count idx.toNat m).map fun shifted =>
      ({ shifted with count := shifted.count - 1 }, true)

def clear (m : FJFixMap) : FJFixMap := { m with count := 0 }

/-- insert is followed by the caller's write, find by its read through the pointer. -/
inductive Operation (V : Type) where
  | insert (key : UInt32) (value : V)
  | find (key : UInt32)
  | unset (key : UInt32)
  | clear

inductive Reply (V : Type) where
  | inserted
  | found (value : Option V)
  | unset (ok : Bool)
  | cleared
  deriving DecidableEq

def perform (m : FJFixMap) : Operation V → Option (Option (FJFixMap × Reply V))
  | .insert key value => (insert layout key m).bind fun result =>
    match result with
    | none => some none
    | some (grown, p) =>
      (store layout p layout.value.sizeof (layout.value.encode value) grown).map fun w =>
        some (w, .inserted)
  | .find key => (find layout key m).bind fun p =>
    match p with
    | none => some (some (m, .found none))
    | some p => (load layout layout.value p m).map fun value => some (m, .found (some value))
  | .unset key => (unset layout key m).map fun result => some (result.1, .unset result.2)
  | .clear => some (some (clear m, .cleared))

def performAll (m : FJFixMap) : List (Operation V) → Option (Option (FJFixMap × List (Reply V)))
  | [] => some (some (m, []))
  | op :: rest => (perform layout m op).bind fun result =>
    match result with
    | none => some none
    | some (w, reply) => (performAll w rest).map fun results =>
      results.map fun last => (last.1, reply :: last.2)

def entryAt (buffer : Nat → UInt8) (i : Nat) : FixMap.Entry V :=
  ⟨(layout.key.decode fun j => buffer (i * layout.sizeof + j)).toNat,
    layout.value.decode fun j => buffer (valueAt layout i + j)⟩

def view (m : FJFixMap) : FixMap.FJFixMap V := ⟨entryAt layout m.buffer, m.count⟩

end Code

def onTable : Operation V → MapRefinement.Operation V
  | .insert key value => .insert key.toNat value
  | .find key => .find key.toNat
  | .unset key => .unset key.toNat
  | .clear => .clear

def replyOf (table : FixMap.FJFixMap V) : Operation V → Reply V
  | .insert _ _ => .inserted
  | .find key => .found (MapRefinement.found table key.toNat)
  | .unset key => .unset (MapRefinement.unset table key.toNat).2
  | .clear => .cleared

def tableAll (capacity : Nat) (table : FixMap.FJFixMap V) :
    List (Operation V) → Option (FixMap.FJFixMap V × List (Reply V))
  | [] => some (table, [])
  | op :: rest => (MapRefinement.perform capacity table (onTable op)).bind fun next =>
      (tableAll capacity next rest).map fun last => (last.1, replyOf table op :: last.2)

/-- A buffer of maxbufsize bytes, with a count that the constructor lets pass. -/
structure Fits (layout : EntryLayout V) (m : FJFixMap) : Prop where
  bounded : m.count ≤ m.capacity
  small : m.capacity * layout.sizeof ≤ sizeMax

structure Wrote (layout : EntryLayout V) (m w : FJFixMap) : Prop where
  capacity : w.capacity = m.capacity
  count : w.count = m.count
  behind : ∀ a, limit layout m ≤ a → w.buffer a = m.buffer a

section Memory
variable {layout : EntryLayout V} {m w : FJFixMap}

theorem sizeof_two (layout : EntryLayout V) : 2 ≤ layout.sizeof := by
  have := layout.key.positive
  have := layout.value.positive
  have := layout.apart
  have := layout.within
  omega

theorem create_fits {buffer : Nat → UInt8} {maxbufsize count : Nat} (size : maxbufsize ≤ sizeMax)
    (created : create layout buffer maxbufsize count = some m) : Fits layout m := by
  unfold create at created
  dsimp only at created
  split at created
  · rename_i passes
    simp only [Option.some.injEq] at created
    subst created
    exact ⟨passes, Nat.le_trans (Nat.div_mul_le_self _ _) size⟩
  · simp at created

theorem wrote_refl (m : FJFixMap) : Wrote layout m m := ⟨rfl, rfl, fun _ _ => rfl⟩

theorem behind_trans {u : FJFixMap} (capacity : w.capacity = m.capacity)
    (one : ∀ a, limit layout m ≤ a → w.buffer a = m.buffer a)
    (two : ∀ a, limit layout w ≤ a → u.buffer a = w.buffer a) {a : Nat}
    (outside : limit layout m ≤ a) : u.buffer a = m.buffer a := by
  have further : limit layout w ≤ a := by rwa [limit, capacity]
  rw [two a further, one a outside]

theorem wrote_trans {u : FJFixMap} (one : Wrote layout m w) (two : Wrote layout w u) :
    Wrote layout m u where
  capacity := two.capacity.trans one.capacity
  count := two.count.trans one.count
  behind _ outside := behind_trans one.capacity one.behind two.behind outside

theorem entry_room {i o n : Nat} (within : i < m.capacity) (room : o + n ≤ layout.sizeof) :
    i * layout.sizeof + o + n ≤ limit layout m := by
  have next := Nat.mul_le_mul_right layout.sizeof within
  rw [Nat.succ_mul] at next
  unfold limit
  omega

theorem block_bytes {size d o n i j : Nat} (room : o + n ≤ size) (inside : j < size) :
    d * size + o ≤ i * size + j ∧ i * size + j < d * size + o + n ↔ i = d ∧ o ≤ j ∧ j < o + n := by
  constructor
  · intro range
    have same : i = d := by
      rcases Nat.lt_trichotomy i d with before | eq | after
      · have := (block_lt (d := d) inside).mpr before
        omega
      · exact eq
      · have := Nat.mul_le_mul_right size after
        rw [Nat.succ_mul] at this
        omega
    subst same
    exact ⟨rfl, by omega, by omega⟩
  · rintro ⟨rfl, lower, upper⟩
    omega

theorem store_bytes {d o n : Nat} (bytes : Nat → UInt8) (within : d < m.capacity)
    (room : o + n ≤ layout.sizeof) :
    ∃ w, store layout (d * layout.sizeof + o) n bytes m = some w ∧ Wrote layout m w ∧
      ∀ i j, j < layout.sizeof → w.buffer (i * layout.sizeof + j) =
        if i = d ∧ o ≤ j ∧ j < o + n then bytes (j - o) else m.buffer (i * layout.sizeof + j) := by
  have fits := entry_room within room
  refine ⟨_, if_pos fits, ⟨rfl, rfl, ?_⟩, ?_⟩
  · intro a outside
    exact if_neg (by omega)
  · intro i j inside
    dsimp only
    simp only [block_bytes room inside]
    split
    · rename_i here
      obtain ⟨rfl, lower, upper⟩ := here
      congr 1
      omega
    · rfl

theorem entryAt_congr {buffer buffer' : Nat → UInt8} {i k : Nat}
    (same : ∀ j, j < layout.sizeof →
      buffer (i * layout.sizeof + j) = buffer' (k * layout.sizeof + j)) :
    entryAt layout buffer i = entryAt layout buffer' k := by
  have apart := layout.apart
  have within := layout.within
  have positive := layout.value.positive
  have keys : layout.key.decode (fun j => buffer (i * layout.sizeof + j)) =
      layout.key.decode fun j => buffer' (k * layout.sizeof + j) := by
    apply layout.key.own_bytes
    intro j inside
    exact same j (by omega)
  have values : layout.value.decode (fun j => buffer (valueAt layout i + j)) =
      layout.value.decode fun j => buffer' (valueAt layout k + j) := by
    apply layout.value.own_bytes
    intro j inside
    have byte := same (layout.offset + j) (by omega)
    rwa [← Nat.add_assoc, ← Nat.add_assoc] at byte
  rw [entryAt, entryAt, keys, values]

theorem entries_update {d : Nat} {entry : FixMap.Entry V}
    (others : ∀ i, i ≠ d → ∀ j, j < layout.sizeof →
      w.buffer (i * layout.sizeof + j) = m.buffer (i * layout.sizeof + j))
    (own : entryAt layout w.buffer d = entry) :
    entryAt layout w.buffer = Function.update (entryAt layout m.buffer) d entry := by
  funext i
  by_cases here : i = d
  · rw [here, own, Function.update_self]
  · rw [Function.update_of_ne here]
    exact entryAt_congr fun j inside => others i here j inside

variable (layout) in
theorem assign_entry {d e : Nat} (target : d < m.capacity) (source : e < m.capacity) :
    ∃ w, assign layout d e m = some w ∧ Wrote layout m w ∧ entryAt layout w.buffer =
      Function.update (entryAt layout m.buffer) d (entryAt layout m.buffer e) := by
  have whole : 0 + layout.sizeof ≤ layout.sizeof := by omega
  have readable : e * layout.sizeof + layout.sizeof ≤ limit layout m :=
    entry_room (o := 0) source whole
  obtain ⟨w, stored, wrote, bytes⟩ := store_bytes
    (fun j => m.buffer (e * layout.sizeof + j)) target whole
  refine ⟨w, ?_, wrote, entries_update ?_ ?_⟩
  · rw [assign, if_pos readable]
    exact stored
  · intro i other j inside
    rw [bytes i j inside, if_neg fun here => other here.1]
  · apply entryAt_congr
    intro j inside
    rw [bytes d j inside, if_pos ⟨rfl, Nat.zero_le _, by omega⟩]
    rfl

variable (layout) in
theorem setKey_entry {d : Nat} (key : UInt32) (within : d < m.capacity) :
    ∃ w, setKey layout d key m = some w ∧ Wrote layout m w ∧ entryAt layout w.buffer =
      Function.update (entryAt layout m.buffer) d
        ⟨key.toNat, (entryAt layout m.buffer d).value⟩ := by
  have apart := layout.apart
  have fits := layout.within
  have room : 0 + layout.key.sizeof ≤ layout.sizeof := by omega
  obtain ⟨w, stored, wrote, bytes⟩ := store_bytes (layout.key.encode key) within room
  refine ⟨w, stored, wrote, entries_update ?_ ?_⟩
  · intro i other j inside
    rw [bytes i j inside, if_neg fun here => other here.1]
  · have keys : layout.key.decode (fun j => w.buffer (d * layout.sizeof + j)) = key := by
      refine Eq.trans (layout.key.own_bytes _ _ ?_) (layout.key.decode_encode key)
      intro j inside
      rw [bytes d j (by omega), if_pos ⟨rfl, Nat.zero_le _, by omega⟩]
      rfl
    have values : layout.value.decode (fun j => w.buffer (valueAt layout d + j)) =
        layout.value.decode fun j => m.buffer (valueAt layout d + j) := by
      apply layout.value.own_bytes
      intro j inside
      rw [valueAt, Nat.add_assoc, bytes d _ (by omega), if_neg (by omega)]
    rw [entryAt, keys, values, entryAt]

variable (layout) in
theorem setValue_entry {d : Nat} (value : V) (within : d < m.capacity) :
    ∃ w, store layout (valueAt layout d) layout.value.sizeof (layout.value.encode value) m = some w ∧
      Wrote layout m w ∧ entryAt layout w.buffer =
        Function.update (entryAt layout m.buffer) d
          ⟨(entryAt layout m.buffer d).key, value⟩ := by
  have apart := layout.apart
  obtain ⟨w, stored, wrote, bytes⟩ := store_bytes (layout.value.encode value) within layout.within
  refine ⟨w, stored, wrote, entries_update ?_ ?_⟩
  · intro i other j inside
    rw [bytes i j inside, if_neg fun here => other here.1]
  · have keys : layout.key.decode (fun j => w.buffer (d * layout.sizeof + j)) =
        layout.key.decode fun j => m.buffer (d * layout.sizeof + j) := by
      apply layout.key.own_bytes
      intro j inside
      have fits := layout.within
      rw [bytes d j (by omega), if_neg (by omega)]
    have values : layout.value.decode (fun j => w.buffer (valueAt layout d + j)) = value := by
      refine Eq.trans (layout.value.own_bytes _ _ ?_) (layout.value.decode_encode value)
      intro j inside
      have fits := layout.within
      rw [valueAt, Nat.add_assoc, bytes d _ (by omega), if_pos ⟨rfl, by omega, by omega⟩]
      congr 1
      omega
    rw [entryAt, keys, values, entryAt]

variable (layout) in
theorem keyAt_entry {i : Nat} (within : i < m.capacity) :
    ∃ k, keyAt layout i m = some k ∧ k.toNat = (entryAt layout m.buffer i).key := by
  have apart := layout.apart
  have fits := layout.within
  have room : i * layout.sizeof + layout.key.sizeof ≤ limit layout m :=
    entry_room (o := 0) within (by omega)
  exact ⟨_, by rw [keyAt, load, if_pos room], rfl⟩

theorem load_value {i : Nat} (within : i < m.capacity) :
    load layout layout.value (valueAt layout i) m = some (entryAt layout m.buffer i).value := by
  have room := entry_room within layout.within
  rw [load, valueAt, if_pos room]
  rfl

end Memory

section Loops
variable {layout : EntryLayout V} {m : FJFixMap}

theorem mid_small (fits : Fits layout m) {left right : Nat} (less : left < right)
    (bound : right ≤ m.count) : wrap (left + right) / 2 = (left + right) / 2 := by
  have twice := Nat.mul_le_mul_left m.capacity (sizeof_two layout)
  have bounded := fits.bounded
  have small := fits.small
  rw [wrap_small (by omega)]

/-- The search reads keys below right only, and finds what it finds in the table. -/
theorem findIndexFrom_view (fits : Fits layout m) (key : UInt32) {fuel left right : Nat}
    (bound : right ≤ m.count) : findIndexFrom layout key m fuel left right =
      some (FixMap.findIndexFrom (view layout m) key.toNat fuel left right) := by
  induction fuel generalizing left right with
  | zero => rfl
  | succ fuel ih =>
    rw [findIndexFrom, FixMap.findIndexFrom]
    split
    · rename_i less
      have inside : (left + right) / 2 < m.capacity := by
        have bounded := fits.bounded
        omega
      obtain ⟨k, read, same⟩ := keyAt_entry layout inside
      dsimp only
      rw [mid_small fits less bound, read, Option.bind_some]
      change _ = some (if (entryAt layout m.buffer ((left + right) / 2)).key = key.toNat then _
        else if (entryAt layout m.buffer ((left + right) / 2)).key < key.toNat then _ else _)
      rw [← same]
      by_cases hit : k = key
      · rw [if_pos hit, if_pos (congrArg UInt32.toNat hit)]
      · rw [if_neg hit, if_neg fun eq => hit (UInt32.toNat_inj.mp eq)]
        by_cases after : k < key
        · rw [if_pos after, if_pos (UInt32.lt_iff_toNat_lt.mp after)]
          exact ih bound
        · rw [if_neg after, if_neg fun lt => after (UInt32.lt_iff_toNat_lt.mpr lt)]
          exact ih (by omega)
    · rfl

theorem findIndex_view (fits : Fits layout m) (key : UInt32) :
    findIndex layout key m = some (findIndexInt (view layout m) key.toNat) := by
  rw [findIndex, findIndexFrom_view fits key (Nat.le_refl _)]
  rfl

theorem find_view (fits : Fits layout m) (key : UInt32) : find layout key m =
    some ((MapRefinement.find (view layout m) key.toNat).map (valueAt layout)) := by
  rw [find, findIndex_view fits key, MapRefinement.find]
  dsimp only [Option.map_some]
  split
  · rfl
  · rfl

theorem insertPosFrom_view (fits : Fits layout m) (key : UInt32) (fuel pos : Nat) :
    insertPosFrom layout key m fuel pos =
      some (FixMap.insertPosFrom (view layout m) key.toNat fuel pos) := by
  induction fuel generalizing pos with
  | zero => rfl
  | succ fuel ih =>
    rw [insertPosFrom, FixMap.insertPosFrom]
    by_cases inside : pos < m.count
    · obtain ⟨k, read, same⟩ := keyAt_entry layout
        (Nat.lt_of_lt_of_le inside fits.bounded)
      rw [if_pos inside, read, Option.bind_some]
      change _ = some (if pos < m.count ∧ (entryAt layout m.buffer pos).key < key.toNat then _
        else _)
      rw [← same]
      by_cases before : k < key
      · rw [if_pos before, if_pos ⟨inside, UInt32.lt_iff_toNat_lt.mp before⟩]
        exact ih (pos + 1)
      · rw [if_neg before, if_neg fun both => before (UInt32.lt_iff_toNat_lt.mpr both.2)]
    · rw [if_neg inside, if_neg fun both => inside both.1]

variable (layout) in
theorem shiftUp_view (pos : Nat) {n : Nat} (within : n < m.capacity) :
    ∃ w, shiftUp layout pos n m = some w ∧ Wrote layout m w ∧
      entryAt layout w.buffer = FixMap.shiftUp pos n (entryAt layout m.buffer) := by
  induction n generalizing m with
  | zero => exact ⟨m, rfl, wrote_refl m, rfl⟩
  | succ n ih =>
    rw [shiftUp, FixMap.shiftUp]
    split
    · obtain ⟨u, assigned, wrote, entries⟩ := assign_entry layout within
        (Nat.lt_of_succ_lt within)
      have room : n < u.capacity := by
        rw [wrote.capacity]
        exact Nat.lt_of_succ_lt within
      obtain ⟨w, shifted, later, result⟩ := ih room
      refine ⟨w, ?_, wrote_trans wrote later, ?_⟩
      · rw [assigned]
        exact shifted
      · rw [result, entries]
    · exact ⟨m, rfl, wrote_refl m, rfl⟩

variable (layout) in
theorem shiftDown_view (bounded : m.count ≤ m.capacity) (fuel i : Nat) :
    ∃ w, shiftDown layout fuel i m = some w ∧ Wrote layout m w ∧
      entryAt layout w.buffer = FixMap.shiftDown m.count fuel i (entryAt layout m.buffer) := by
  induction fuel generalizing m i with
  | zero => exact ⟨m, rfl, wrote_refl m, rfl⟩
  | succ fuel ih =>
    rw [shiftDown, FixMap.shiftDown]
    split
    · rename_i more
      obtain ⟨u, assigned, wrote, entries⟩ := assign_entry layout (m := m) (d := i)
        (e := i + 1) (by omega) (by omega)
      have room : u.count ≤ u.capacity := by
        rw [wrote.capacity, wrote.count]
        exact bounded
      obtain ⟨w, shifted, later, result⟩ := ih room (i + 1)
      refine ⟨w, ?_, wrote_trans wrote later, ?_⟩
      · rw [assigned]
        exact shifted
      · rw [result, entries, wrote.count]
    · exact ⟨m, rfl, wrote_refl m, rfl⟩

end Loops

/-- After an operation the table is in the same buffer, and nothing behind it has changed. -/
structure Inside (layout : EntryLayout V) (m w : FJFixMap) : Prop where
  fits : Fits layout w
  capacity : w.capacity = m.capacity
  behind : ∀ a, limit layout m ≤ a → w.buffer a = m.buffer a

section Operations
variable {layout : EntryLayout V} {m : FJFixMap}

theorem inside_refl (fits : Fits layout m) : Inside layout m m := ⟨fits, rfl, fun _ _ => rfl⟩

theorem inside_trans {w u : FJFixMap} (one : Inside layout m w) (two : Inside layout w u) :
    Inside layout m u where
  fits := two.fits
  capacity := two.capacity.trans one.capacity
  behind _ outside := behind_trans one.capacity one.behind two.behind outside

theorem wrote_inside {w : FJFixMap} {count : Nat} (fits : Fits layout m) (wrote : Wrote layout m w)
    (bounded : count ≤ m.capacity) : Inside layout m { w with count } where
  fits := ⟨by simpa only [wrote.capacity] using bounded,
    by simpa only [wrote.capacity] using fits.small⟩
  capacity := wrote.capacity
  behind := wrote.behind

/-- Even an index that the conversion to int has changed is that of an entry. -/
theorem castInt_le {n : Nat} (nonnegative : castInt n ≥ 0) : (castInt n).toNat ≤ n := by
  have least : castInt n ≤ n := by
    unfold castInt Int.bmod
    dsimp only
    split
    · omega
    · omega
  omega

theorem findIndexInt_inside {table : FixMap.FJFixMap V} {key : Nat}
    (found : findIndexInt table key ≥ 0) : (findIndexInt table key).toNat < table.count := by
  unfold findIndexInt at found ⊢
  split
  · rename_i mid searched
    rw [searched] at found
    have within := (FixMap.findIndexFrom_sound (Nat.le_refl _) searched).1
    exact Nat.lt_of_le_of_lt (castInt_le found) within
  · rename_i searched
    rw [searched] at found
    exact absurd found (by decide)

theorem find_inside {table : FixMap.FJFixMap V} {key p : Nat}
    (found : MapRefinement.find table key = some p) : p < table.count := by
  unfold MapRefinement.find at found
  dsimp only at found
  split at found
  · rename_i nonnegative
    simp only [Option.some.injEq] at found
    exact found ▸ findIndexInt_inside nonnegative
  · simp at found

theorem insertPosFrom_le (table : FixMap.FJFixMap V) {key : Nat} (fuel : Nat) {pos : Nat}
    (within : pos ≤ table.count) : FixMap.insertPosFrom table key fuel pos ≤ table.count := by
  induction fuel generalizing pos with
  | zero => exact within
  | succ fuel ih =>
    rw [FixMap.insertPosFrom]
    split
    · rename_i more
      exact ih more.1
    · exact within

theorem capacity_small (fits : Fits layout m) : m.capacity ≤ sizeMax := by
  have twice := Nat.mul_le_mul_left m.capacity (sizeof_two layout)
  have small := fits.small
  omega

theorem insert_found (fits : Fits layout m) {key : UInt32} {p : Nat}
    (found : MapRefinement.find (view layout m) key.toNat = some p) :
    insert layout key m = some (some (m, valueAt layout p)) := by
  rw [insert, find_view fits key, found]
  rfl

theorem insert_aborts (fits : Fits layout m) {key : UInt32}
    (absent : MapRefinement.find (view layout m) key.toNat = none)
    (full : ¬ m.count < m.capacity) : insert layout key m = some none := by
  rw [insert, find_view fits key, absent]
  exact if_neg full

/-- The insertion of a new key shifts the entries behind its place and writes the key there. -/
theorem insert_shifts (fits : Fits layout m) {key : UInt32}
    (absent : MapRefinement.find (view layout m) key.toNat = none) (room : m.count < m.capacity) :
    ∃ w, insert layout key m =
        some (some (w, valueAt layout (FixMap.insertPos (view layout m) key.toNat))) ∧
      Inside layout m w ∧
        some (view layout w, FixMap.insertPos (view layout m) key.toNat) =
          MapRefinement.insert m.capacity (view layout m) key.toNat := by
  have place : FixMap.insertPos (view layout m) key.toNat ≤ m.count :=
    insertPosFrom_le (view layout m) m.count (Nat.zero_le _)
  obtain ⟨u, shifted, wrote, moved⟩ := shiftUp_view layout
    (FixMap.insertPos (view layout m) key.toNat) room
  have target : FixMap.insertPos (view layout m) key.toNat < u.capacity := by
    rw [wrote.capacity]
    exact Nat.lt_of_le_of_lt place room
  obtain ⟨w, set, later, entries⟩ := setKey_entry layout key target
  have both := wrote_trans wrote later
  have small := capacity_small fits
  have counted : wrap (w.count + 1) = m.count + 1 := by
    rw [both.count]
    exact wrap_small (by omega)
  refine ⟨{ w with count := m.count + 1 }, ?_, wrote_inside fits both room, ?_⟩
  · rw [insert, find_view fits key, absent]
    change (if m.count < m.capacity then _ else _) = _
    have found : insertPosFrom layout key m m.count 0 =
        some (FixMap.insertPos (view layout m) key.toNat) := insertPosFrom_view fits key _ _
    rw [if_pos room, found, Option.bind_some, shifted, Option.bind_some, set, Option.map_some,
      counted]
  · rw [MapRefinement.insert, absent]
    change _ = if m.count < m.capacity then _ else _
    rw [if_pos room, view]
    dsimp only
    rw [entries, moved]
    rfl

theorem unset_view (fits : Fits layout m) (key : UInt32) :
    ∃ w, unset layout key m =
        some (w, (MapRefinement.unset (view layout m) key.toNat).2) ∧ Inside layout m w ∧
      view layout w = (MapRefinement.unset (view layout m) key.toNat).1 := by
  rw [unset, findIndex_view fits key, Option.bind_some, MapRefinement.unset]
  split
  · exact ⟨m, rfl, inside_refl fits, rfl⟩
  · obtain ⟨w, shifted, wrote, entries⟩ := shiftDown_view layout fits.bounded m.count
      (findIndexInt (view layout m) key.toNat).toNat
    have fewer : m.count - 1 ≤ m.capacity := Nat.le_trans (Nat.sub_le _ _) fits.bounded
    refine ⟨{ w with count := m.count - 1 }, ?_, wrote_inside fits wrote fewer, ?_⟩
    · rw [shifted, Option.map_some, wrote.count]
    · rw [view]
      dsimp only
      rw [entries]
      rfl

structure Performed (layout : EntryLayout V) (m : FJFixMap) (op : Operation V)
    (result : Option (FJFixMap × Reply V)) : Prop where
  table : result.map (fun last => view layout last.1) =
    MapRefinement.perform m.capacity (view layout m) (onTable op)
  reply : ∀ last ∈ result, last.2 = replyOf (view layout m) op
  inside : ∀ last ∈ result, Inside layout m last.1

theorem performed_some {op : Operation V} {w : FJFixMap} {table : FixMap.FJFixMap V}
    (performed : MapRefinement.perform m.capacity (view layout m) (onTable op) = some table)
    (same : view layout w = table) (inside : Inside layout m w) :
    Performed layout m op (some (w, replyOf (view layout m) op)) := by
  constructor
  · rw [performed, ← same]
    rfl
  · intro last member
    rw [← Option.some.inj member]
  · intro last member
    rw [← Option.some.inj member]
    exact inside

theorem view_write {w u : FJFixMap} {p : Nat} {value : V} (wrote : Wrote layout w u)
    (entries : entryAt layout u.buffer = Function.update (entryAt layout w.buffer) p
      ⟨(entryAt layout w.buffer p).key, value⟩) :
    view layout u = FixMap.write (view layout w) p value := by
  rw [view, entries, wrote.count]
  rfl

theorem inserted_performed {key : UInt32} {value : V} {w : FJFixMap} {p : Nat}
    (inserted : insert layout key m = some (some (w, valueAt layout p))) (inside : Inside layout m w)
    (within : p < w.capacity)
    (model : MapRefinement.insert m.capacity (view layout m) key.toNat = some (view layout w, p)) :
    ∃ result, perform layout m (.insert key value) = some result ∧
      Performed layout m (.insert key value) result := by
  obtain ⟨u, stored, wrote, entries⟩ := setValue_entry layout value within
  refine ⟨some (u, .inserted), ?_, ?_⟩
  · rw [perform, inserted, Option.bind_some]
    dsimp only
    rw [stored]
    rfl
  · have performed : MapRefinement.perform m.capacity (view layout m)
        (onTable (.insert key value)) = some (FixMap.write (view layout w) p value) := by
      rw [onTable, MapRefinement.perform, model]
      rfl
    have bounded : u.count ≤ w.capacity := by
      rw [wrote.count]
      exact inside.fits.bounded
    exact performed_some performed (view_write wrote entries)
      (inside_trans inside (wrote_inside inside.fits wrote bounded))

theorem perform_view (fits : Fits layout m) (op : Operation V) :
    ∃ result, perform layout m op = some result ∧ Performed layout m op result := by
  cases op with
  | insert key value =>
    cases searched : MapRefinement.find (view layout m) key.toNat with
    | some p =>
      have within := Nat.lt_of_lt_of_le (find_inside searched) fits.bounded
      apply inserted_performed (insert_found fits searched) (inside_refl fits) within
      rw [MapRefinement.insert, searched]
    | none =>
      by_cases room : m.count < m.capacity
      · obtain ⟨w, inserted, inside, model⟩ := insert_shifts fits searched room
        have place : FixMap.insertPos (view layout m) key.toNat ≤ m.count :=
          insertPosFrom_le (view layout m) m.count (Nat.zero_le _)
        have within := Nat.lt_of_le_of_lt place room
        rw [← inside.capacity] at within
        exact inserted_performed inserted inside within model.symm
      · refine ⟨none, ?_, ?_, ?_, ?_⟩
        · rw [perform, insert_aborts fits searched room]
          rfl
        · have full : ¬ (view layout m).count < m.capacity := room
          rw [onTable, MapRefinement.perform, MapRefinement.insert, searched]
          dsimp only
          rw [if_neg full]
          rfl
        · intro last member
          exact absurd member (by simp)
        · intro last member
          exact absurd member (by simp)
  | find key =>
    cases searched : MapRefinement.find (view layout m) key.toNat with
    | some p =>
      have within := Nat.lt_of_lt_of_le (find_inside searched) fits.bounded
      have reply : replyOf (view layout m) (.find key) =
          .found (some (entryAt layout m.buffer p).value) := by
        rw [replyOf, MapRefinement.found, searched]
        rfl
      refine ⟨some (m, replyOf (view layout m) (.find key)), ?_, ?_⟩
      · rw [perform, find_view fits key, searched, reply, Option.map_some, Option.bind_some]
        dsimp only
        rw [load_value within]
        rfl
      · exact performed_some rfl rfl (inside_refl fits)
    | none =>
      refine ⟨some (m, replyOf (view layout m) (.find key)), ?_, ?_⟩
      · rw [perform, find_view fits key, replyOf, MapRefinement.found, searched]
        rfl
      · exact performed_some rfl rfl (inside_refl fits)
  | unset key =>
    obtain ⟨w, removed, inside, same⟩ := unset_view fits key
    refine ⟨some (w, replyOf (view layout m) (.unset key)), ?_, ?_⟩
    · rw [perform, removed]
      rfl
    · exact performed_some rfl same inside
  | clear =>
    refine ⟨some (clear m, .cleared), rfl, ?_⟩
    have inside : Inside layout m (clear m) :=
      wrote_inside fits (wrote_refl m) (Nat.zero_le _)
    exact performed_some rfl rfl inside

theorem performAll_inside (fits : Fits layout m) (ops : List (Operation V)) :
    ∃ result, performAll layout m ops = some result ∧
      result.map (fun last => (view layout last.1, last.2)) =
        tableAll m.capacity (view layout m) ops ∧ ∀ last ∈ result, Inside layout m last.1 := by
  induction ops generalizing m with
  | nil =>
    refine ⟨some (m, []), rfl, rfl, ?_⟩
    intro last member
    rw [← Option.some.inj member]
    exact inside_refl fits
  | cons op rest ih =>
    obtain ⟨first, performed, is⟩ := perform_view fits op
    have table := is.table
    cases first with
    | none =>
      refine ⟨none, ?_, ?_, fun last member => absurd member (by simp)⟩
      · rw [performAll, performed]
        rfl
      · rw [tableAll, ← table]
        rfl
    | some done =>
      have inside := is.inside done rfl
      have reply := is.reply done rfl
      obtain ⟨later, executed, same, stays⟩ := ih inside.fits
      refine ⟨later.map fun last => (last.1, done.2 :: last.2), ?_, ?_, ?_⟩
      · rw [performAll, performed, Option.bind_some]
        dsimp only
        rw [executed]
        rfl
      · rw [tableAll, ← table, Option.map_some, Option.bind_some, ← inside.capacity, ← same, reply]
        cases later <;> rfl
      · intro last member
        obtain ⟨end_, present, rfl⟩ := Option.map_eq_some_iff.mp member
        exact inside_trans inside (stays end_ present)

/-- Whatever the bytes are, sorted or not, no sequence of operations touches a byte that is not
    inside the entries below capacity, and it does what it does on the table. -/
theorem operations_inside {buffer : Nat → UInt8} {maxbufsize count : Nat}
    (size : maxbufsize ≤ sizeMax) (created : create layout buffer maxbufsize count = some m)
    (ops : List (Operation V)) :
    ∃ result, performAll layout m ops = some result ∧
      result.map (fun last => (view layout last.1, last.2)) =
        tableAll m.capacity (view layout m) ops ∧ ∀ last ∈ result, Inside layout m last.1 :=
  performAll_inside (create_fits size created) ops

end Operations

def wordLayout : Layout UInt32 where
  sizeof := 4
  positive := by decide
  encode x j := UInt8.ofNat (x.toNat / 256 ^ j % 256)
  decode bytes := UInt32.ofNat ((bytes 0).toNat + 256 * (bytes 1).toNat +
    65536 * (bytes 2).toNat + 16777216 * (bytes 3).toNat)
  decode_encode x := by
    have bound := x.toNat_lt
    apply UInt32.toNat_inj.mp
    simp only [UInt8.toNat_ofNat', UInt32.toNat_ofNat']
    omega
  own_bytes bytes bytes' same := by
    rw [same 0 (by decide), same 1 (by decide), same 2 (by decide), same 3 (by decide)]

def pairLayout : EntryLayout UInt32 :=
  ⟨wordLayout, wordLayout, 4, 8, Nat.le_refl 4, Nat.le_refl 8⟩

def smallTable : FJFixMap := ⟨fun _ => 7, 2, 0⟩

def fiveOperations : List (Operation UInt32) :=
  [.insert 5 10, .insert 3 70000, .find 5, .unset 3, .find 3]

theorem five_operations_inside :
    ∃ w, performAll pairLayout smallTable fiveOperations =
        some (some (w, [.inserted, .inserted, .found (some 10), .unset true, .found none])) ∧
      Inside pairLayout smallTable w := by
  have created : create pairLayout (fun _ => 7) 17 0 = some smallTable := rfl
  obtain ⟨result, performed, _, stays⟩ := operations_inside (by decide) created fiveOperations
  have replies : (performAll pairLayout smallTable fiveOperations).any (fun result =>
      result.any fun last => decide (last.2 =
        [.inserted, .inserted, .found (some 10), .unset true, .found none])) = true := by
    decide +kernel
  rw [performed, Option.any_some] at replies
  obtain ⟨last, present, same⟩ := (Option.any_eq_true ..).mp replies
  rw [present] at performed
  refine ⟨last.1, ?_, stays last present⟩
  rw [performed, ← of_decide_eq_true same]

end RawMap
