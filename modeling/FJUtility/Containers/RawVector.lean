import Mathlib.Algebra.Group.Nat.Defs
import Mathlib.Order.Defs.Unbundled
import Mathlib.Data.List.Perm.Basic

/- FJFixVector as its source has it: bytes of a caller's buffer, memcpy and memmove on them,
   and size_t arithmetic. An access outside the elements below capacity is a fault. -/
namespace RawVector
variable {α : Type}

structure Layout (α : Type) where
  sizeof : Nat
  positive : 0 < sizeof
  encode : α → Nat → UInt8
  decode : (Nat → UInt8) → α
  decode_encode : ∀ x, decode (encode x) = x
  own_bytes : ∀ bytes bytes', (∀ j, j < sizeof → bytes j = bytes' j) → decode bytes = decode bytes'

def sizeMax : Nat := 2 ^ 64 - 1

def wrap (n : Nat) : Nat := n % 2 ^ 64

def minus (a b : Nat) : Nat := wrap (a + 2 ^ 64 - b)

structure FJFixVector where
  buffer : Nat → UInt8
  capacity : Nat
  count : Nat

section Code
variable (layout : Layout α)

def create (buffer : Nat → UInt8) (bufferSize count : Nat) : FJFixVector :=
  let capacity := bufferSize / layout.sizeof
  ⟨buffer, capacity, if count > capacity then capacity else count⟩

def limit (v : FJFixVector) : Nat := v.capacity * layout.sizeof

def memcpy (dst : Nat) (item : α) (v : FJFixVector) : Option FJFixVector :=
  if dst + layout.sizeof ≤ limit layout v then
    some { v with buffer := fun a =>
      if dst ≤ a ∧ a < dst + layout.sizeof then layout.encode item (a - dst) else v.buffer a }
  else none

def memmove (dst src n : Nat) (v : FJFixVector) : Option FJFixVector :=
  if dst + n ≤ limit layout v ∧ src + n ≤ limit layout v then
    some { v with buffer := fun a =>
      if dst ≤ a ∧ a < dst + n then v.buffer (a - dst + src) else v.buffer a }
  else none

def read (v : FJFixVector) (p : Nat) : Option α :=
  if p + layout.sizeof ≤ limit layout v then some (layout.decode fun j => v.buffer (p + j))
  else none

def pushBack (item : α) (v : FJFixVector) : Option (FJFixVector × Bool) :=
  if v.count ≥ v.capacity then some (v, false)
  else (memcpy layout (wrap (v.count * layout.sizeof)) item v).map fun w =>
    ({ w with count := wrap (w.count + 1) }, true)

def pushFront (item : α) (v : FJFixVector) : Option (FJFixVector × Bool) :=
  if v.count ≥ v.capacity then some (v, false)
  else (memmove layout layout.sizeof 0 (wrap (v.count * layout.sizeof)) v).bind fun moved =>
    (memcpy layout 0 item moved).map fun w => ({ w with count := wrap (w.count + 1) }, true)

/-- A pointer is an offset from buffer_, nullptr is none. -/
def pointerAt (v : FJFixVector) (index : Nat) : Option Nat :=
  if index ≥ v.count then none else some (wrap (index * layout.sizeof))

/-- operator[] -/
def subscript (v : FJFixVector) (index : Nat) : Option Nat := pointerAt layout v index

def splice (start count : Nat) (v : FJFixVector) : Option FJFixVector :=
  if start ≥ v.count then some v
  else
    let count := if wrap (start + count) > v.count then minus v.count start else count
    let moveCount := minus v.count (wrap (start + count))
    let moved :=
      if moveCount > 0 then
        match pointerAt layout v start, pointerAt layout v (wrap (start + count)) with
        | some dst, some src => memmove layout dst src (wrap (moveCount * layout.sizeof)) v
        | _, _ => none
      else some v
    moved.map fun w => { w with count := minus w.count count }

def readFrom (v : FJFixVector) : Nat → Nat → Option (List α)
  | 0, _ => some []
  | n + 1, i => (read layout v (wrap (i * layout.sizeof))).bind fun x =>
      (readFrom v n (i + 1)).map fun rest => x :: rest

def storeFrom : List α → Nat → FJFixVector → Option FJFixVector
  | [], _, v => some v
  | x :: rest, i, v => (memcpy layout (wrap (i * layout.sizeof)) x v).bind (storeFrom rest (i + 1))

/-- std::sort on the elements below count; result is the order in which it leaves them. -/
def sort (result : List α) (v : FJFixVector) : Option FJFixVector :=
  (readFrom layout v v.count 0).bind fun _ => storeFrom layout result 0 v

def deref (v : FJFixVector) : Option Nat → Option (Option α)
  | none => some none
  | some p => (read layout v p).map some

inductive Operation (α : Type) where
  | pushBack (item : α)
  | pushFront (item : α)
  | splice (start count : Nat)
  | sort (comp : α → α → Bool) (result : List α)
  | elementAt (index : Nat)
  | subscript (index : Nat)

inductive Reply (α : Type) where
  | pushed (ok : Bool)
  | done
  | element (value : Option α)

def perform (v : FJFixVector) : Operation α → Option (FJFixVector × Reply α)
  | .pushBack item => (pushBack layout item v).map fun (w, ok) => (w, .pushed ok)
  | .pushFront item => (pushFront layout item v).map fun (w, ok) => (w, .pushed ok)
  | .splice start count => (splice layout start count v).map fun w => (w, .done)
  | .sort _ result => (sort layout result v).map fun w => (w, .done)
  | .elementAt index =>
    (deref layout v (pointerAt layout v index)).map fun value => (v, .element value)
  | .subscript index =>
    (deref layout v (subscript layout v index)).map fun value => (v, .element value)

def performAll (v : FJFixVector) : List (Operation α) → Option (FJFixVector × List (Reply α))
  | [] => some (v, [])
  | op :: rest => (perform layout v op).bind fun (w, reply) =>
      (performAll w rest).map fun (final, replies) => (final, reply :: replies)

def element (buffer : Nat → UInt8) (i : Nat) : α :=
  layout.decode fun j => buffer (i * layout.sizeof + j)

def contents (v : FJFixVector) : List α := (List.range v.count).map (element layout v.buffer)

end Code

def listPerform (capacity : Nat) (items : List α) : Operation α → List α × Reply α
  | .pushBack item =>
    if items.length < capacity then (items ++ [item], .pushed true) else (items, .pushed false)
  | .pushFront item =>
    if items.length < capacity then (item :: items, .pushed true) else (items, .pushed false)
  | .splice start count => (items.take start ++ items.drop (start + count), .done)
  | .sort _ result => (result, .done)
  | .elementAt index => (items, .element items[index]?)
  | .subscript index => (items, .element items[index]?)

def listPerformAll (capacity : Nat) (items : List α) :
    List (Operation α) → List α × List (Reply α)
  | [] => (items, [])
  | op :: rest =>
    let (after, reply) := listPerform capacity items op
    let (final, replies) := listPerformAll capacity after rest
    (final, reply :: replies)

structure SortOf (comp : α → α → Bool) (result items : List α) : Prop where
  order : IsStrictWeakOrder α fun a b => comp a b = true
  perm : result.Perm items
  sorted : result.Pairwise fun a b => ¬ comp b a = true

def Permitted (items : List α) : Operation α → Prop
  | .splice start count => start + count ≤ sizeMax
  | .sort comp result => SortOf comp result items
  | _ => True

def PermittedAll (capacity : Nat) (items : List α) : List (Operation α) → Prop
  | [] => True
  | op :: rest =>
    Permitted items op ∧ PermittedAll capacity (listPerform capacity items op).1 rest

structure Fits (layout : Layout α) (v : FJFixVector) : Prop where
  bounded : v.count ≤ v.capacity
  small : v.capacity * layout.sizeof ≤ sizeMax

theorem wrap_small {n : Nat} (small : n ≤ sizeMax) : wrap n = n := by
  unfold sizeMax at small
  exact Nat.mod_eq_of_lt (by omega)

theorem minus_small {a b : Nat} (less : b ≤ a) (small : a ≤ sizeMax) : minus a b = a - b := by
  unfold sizeMax at small
  unfold minus wrap
  rw [Nat.sub_add_comm less, Nat.add_mod_right]
  exact Nat.mod_eq_of_lt (by omega)

theorem block_le {size i j d : Nat} (inside : j < size) : d * size ≤ i * size + j ↔ d ≤ i := by
  constructor
  · intro behind
    refine Nat.le_of_not_lt fun before => ?_
    have := Nat.mul_le_mul_right size before
    rw [Nat.succ_mul] at this
    omega
  · intro behind
    have := Nat.mul_le_mul_right size behind
    omega

theorem block_lt {size i j d : Nat} (inside : j < size) : i * size + j < d * size ↔ i < d := by
  rw [← Nat.not_le, block_le inside, Nat.not_le]

theorem block_range {size i j d k : Nat} (inside : j < size) :
    (d * size ≤ i * size + j ∧ i * size + j < d * size + k * size) ↔ d ≤ i ∧ i < d + k := by
  rw [← Nat.add_mul, block_le inside, block_lt inside]

section Memory
variable {layout : Layout α} {v : FJFixVector}

theorem offset_small (fits : Fits layout v) {i : Nat} (within : i ≤ v.capacity) :
    wrap (i * layout.sizeof) = i * layout.sizeof :=
  wrap_small (Nat.le_trans (Nat.mul_le_mul_right _ within) fits.small)

theorem index_small (fits : Fits layout v) {i : Nat} (within : i ≤ v.capacity) : i ≤ sizeMax :=
  Nat.le_trans (Nat.le_mul_of_pos_right i layout.positive)
    (Nat.le_trans (Nat.mul_le_mul_right _ within) fits.small)

variable (layout) in
theorem memcpy_element {d : Nat} (item : α) (within : d < v.capacity) :
    ∃ w, memcpy layout (d * layout.sizeof) item v = some w ∧ w.count = v.count ∧
      w.capacity = v.capacity ∧ ∀ i, element layout w.buffer i =
        if i = d then item else element layout v.buffer i := by
  have room : d * layout.sizeof + layout.sizeof ≤ limit layout v := by
    rw [← Nat.succ_mul]
    exact Nat.mul_le_mul_right _ within
  rw [memcpy, if_pos room]
  refine ⟨_, rfl, rfl, rfl, ?_⟩
  intro i
  unfold element
  split
  · rename_i here
    rw [here, ← layout.decode_encode item]
    apply layout.own_bytes
    intro j inside
    dsimp only
    rw [if_pos ⟨by omega, by omega⟩, layout.decode_encode]
    congr 1
    omega
  · rename_i elsewhere
    apply layout.own_bytes
    intro j inside
    dsimp only
    rw [if_neg]
    rw [block_le inside, ← Nat.succ_mul, block_lt inside]
    omega

variable (layout) in
theorem memmove_elements {d e k : Nat} (target : d + k ≤ v.capacity) (source : e + k ≤ v.capacity) :
    ∃ w, memmove layout (d * layout.sizeof) (e * layout.sizeof) (k * layout.sizeof) v = some w ∧
      w.count = v.count ∧ w.capacity = v.capacity ∧ ∀ i, element layout w.buffer i =
        if d ≤ i ∧ i < d + k then element layout v.buffer (i - d + e)
        else element layout v.buffer i := by
  have room : d * layout.sizeof + k * layout.sizeof ≤ limit layout v ∧
      e * layout.sizeof + k * layout.sizeof ≤ limit layout v := by
    rw [← Nat.add_mul, ← Nat.add_mul]
    exact ⟨Nat.mul_le_mul_right _ target, Nat.mul_le_mul_right _ source⟩
  rw [memmove, if_pos room]
  refine ⟨_, rfl, rfl, rfl, ?_⟩
  intro i
  unfold element
  split
  · rename_i moved
    apply layout.own_bytes
    intro j inside
    dsimp only
    rw [if_pos ((block_range inside).mpr moved)]
    congr 1
    rw [Nat.add_mul, Nat.sub_mul]
    have := Nat.mul_le_mul_right layout.sizeof moved.1
    omega
  · rename_i kept
    apply layout.own_bytes
    intro j inside
    dsimp only
    rw [if_neg fun range => kept ((block_range inside).mp range)]

theorem read_element {i : Nat} (within : i < v.capacity) :
    read layout v (i * layout.sizeof) = some (element layout v.buffer i) := by
  have room : i * layout.sizeof + layout.sizeof ≤ limit layout v := by
    rw [← Nat.succ_mul]
    exact Nat.mul_le_mul_right _ within
  rw [read, if_pos room]
  rfl

theorem contents_length : (contents layout v).length = v.count := by simp [contents]

theorem contents_of_elements {items : List α} (length : items.length = v.count)
    (each : ∀ i, ∀ bound : i < items.length, items[i] = element layout v.buffer i) :
    items = contents layout v := by
  apply List.ext_getElem
  · rw [contents_length, length]
  · intro i bound _
    rw [each i bound]
    simp [contents]

theorem contents_getElem {i : Nat} (bound : i < (contents layout v).length) :
    (contents layout v)[i] = element layout v.buffer i := by
  simp [contents]

end Memory

end RawVector
