import FJUtility.Containers.VectorRefinement

/- The arguments for which splice clamps its count. The sum that it compares is one in size_t;
   once it wraps, the elements move up instead of down and the count grows. -/
namespace SpliceBounds
open RawVector VectorRefinement
variable {α : Type}

/-- The same elements in a buffer that ends behind the last of them. -/
def tight (v : RawVector.FJFixVector) : RawVector.FJFixVector := { v with capacity := v.count }

/-- splice keeps the elements below start and those from start + n on, in the natural numbers. It
    gets by on a buffer that ends at the old count, so it touches no element behind it. -/
structure Clamps (layout : Layout α) (v : RawVector.FJFixVector) (start n : Nat)
    (w : RawVector.FJFixVector) : Prop where
  spliced : splice layout start n v = some w
  kept : contents layout w = (contents layout v).take start ++ (contents layout v).drop (start + n)
  shrinks : w.count ≤ v.count
  inside : (splice layout start n (tight v)).isSome = true
  behind : ∀ a, v.count * layout.sizeof ≤ a → w.buffer a = v.buffer a

section
variable {layout : Layout α} {v : RawVector.FJFixVector}

theorem tight_fits (fits : Fits layout v) : Fits layout (tight v) where
  bounded := Nat.le_refl _
  small := Nat.le_trans (Nat.mul_le_mul_right _ fits.bounded) fits.small

theorem memmove_frame {dst src k : Nat} {w : RawVector.FJFixVector}
    (moved : memmove layout dst src k v = some w) :
    dst + k ≤ limit layout v ∧ src + k ≤ limit layout v ∧
      w.capacity = v.capacity ∧ ∀ a, limit layout v ≤ a → w.buffer a = v.buffer a := by
  unfold memmove at moved
  split at moved
  · rename_i room
    obtain rfl := Option.some.inj moved
    exact ⟨room.1, room.2, rfl, fun a outside => if_neg (by omega)⟩
  · simp at moved

def clamp (v : RawVector.FJFixVector) (start n : Nat) : Nat :=
  if wrap (start + n) > v.count then minus v.count start else n

variable (layout) in
def move (v : RawVector.FJFixVector) (start k : Nat) : Option RawVector.FJFixVector :=
  if minus v.count (wrap (start + k)) > 0 then
    if wrap (start + k) ≥ v.count then none
    else memmove layout (wrap (start * layout.sizeof)) (wrap (wrap (start + k) * layout.sizeof))
      (wrap (minus v.count (wrap (start + k)) * layout.sizeof)) v
  else some v

theorem splice_move {start n : Nat} (inside : start < v.count) :
    splice layout start n v =
      (move layout v start (clamp v start n)).map fun w =>
        { w with count := minus w.count (clamp v start n) } := by
  have within : ¬ start ≥ v.count := Nat.not_le.mpr inside
  simp only [splice, move, pointerAt, if_neg within]
  rw [← show clamp v start n = if wrap (start + n) > v.count then minus v.count start else n from rfl]
  by_cases source : wrap (start + clamp v start n) ≥ v.count
  · simp only [if_pos source]
  · simp only [if_neg source]

theorem memmove_grow {dst src k : Nat} {w : RawVector.FJFixVector} (bounded : v.count ≤ v.capacity)
    (moved : memmove layout dst src k (tight v) = some w) :
    memmove layout dst src k v = some { w with capacity := v.capacity } := by
  unfold memmove at moved ⊢
  have shorter : limit layout (tight v) ≤ limit layout v := Nat.mul_le_mul_right _ bounded
  split at moved
  · rename_i room
    rw [if_pos ⟨by omega, by omega⟩, ← Option.some.inj moved]
    rfl
  · simp at moved

theorem move_grow {start k : Nat} {w : RawVector.FJFixVector} (bounded : v.count ≤ v.capacity)
    (moved : move layout (tight v) start k = some w) :
    move layout v start k = some { w with capacity := v.capacity } := by
  unfold move at moved ⊢
  simp only [show (tight v).count = v.count from rfl] at moved
  split at moved
  · rename_i some_
    rw [if_pos some_]
    split at moved
    · simp at moved
    · rename_i source
      rw [if_neg source]
      exact memmove_grow bounded moved
  · rename_i none_
    rw [if_neg none_, ← Option.some.inj moved]
    rfl

theorem move_frame {start k : Nat} {w : RawVector.FJFixVector}
    (moved : move layout v start k = some w) :
    ∀ a, limit layout v ≤ a → w.buffer a = v.buffer a := by
  unfold move at moved
  split at moved
  · split at moved
    · simp at moved
    · exact (memmove_frame moved).2.2.2
  · rw [Option.some.inj moved]
    exact fun _ _ => rfl

/-- A sum that has wrapped is below start, so nothing is clamped. -/
theorem wrapped_below {start n : Nat} (size : n ≤ sizeMax) (inside : start < v.count)
    (total : v.count ≤ sizeMax) (wraps : sizeMax < start + n) :
    wrap (start + n) < start ∧ clamp v start n = n := by
  have low : wrap (start + n) < start := by
    unfold sizeMax at size wraps total
    unfold wrap
    omega
  exact ⟨low, if_neg (by omega)⟩

/-- The move then leads up to start, and its end lies behind the last element. -/
theorem wrapped_faults (fits : Fits layout v) {start n : Nat} (size : n ≤ sizeMax)
    (inside : start < v.count) (wraps : sizeMax < start + n) :
    splice layout start n (tight v) = none := by
  have total := index_small fits fits.bounded
  obtain ⟨low, unclamped⟩ := wrapped_below (v := tight v) size inside total wraps
  rw [splice_move (v := tight v) inside, unclamped]
  cases moved : move layout (tight v) start n with
  | none => rfl
  | some w =>
    unfold move at moved
    simp only [show (tight v).count = v.count from rfl] at moved
    generalize wrap (start + n) = src at low moved
    rw [minus_small (by omega) total, if_pos (by omega), if_neg (by omega),
      offset_small fits (by have := fits.bounded; omega),
      offset_small fits (by have := fits.bounded; omega),
      offset_small fits (by have := fits.bounded; omega)] at moved
    have room := (memmove_frame moved).1
    rw [← Nat.add_mul] at room
    have short : start + (v.count - src) ≤ v.count :=
      Nat.le_of_mul_le_mul_right room layout.positive
    omega

theorem splice_outside {start : Nat} (n : Nat) (outside : v.count ≤ start) :
    splice layout start n v = some v :=
  if_pos outside

theorem outside_clamps (layout : Layout α) {start : Nat} (n : Nat) (outside : v.count ≤ start) :
    Clamps layout v start n v where
  spliced := splice_outside n outside
  kept := by
    rw [List.take_of_length_le (by rw [contents_length]; omega),
      List.drop_eq_nil_of_le (by rw [contents_length]; omega), List.append_nil]
  shrinks := Nat.le_refl _
  inside := by rw [splice_outside (v := tight v) n outside]; rfl
  behind _ _ := rfl

theorem small_clamps (fits : Fits layout v) {start n : Nat} (inside : start < v.count)
    (small : start + n ≤ sizeMax) : ∃ w, Clamps layout v start n w := by
  obtain ⟨u, spliced, _⟩ := splice_performed (tight_fits fits) small
  obtain ⟨w, whole, _, _, refined⟩ := splice_performed fits small
  have kept : contents layout w =
      (contents layout v).take start ++ (contents layout v).drop (start + n) :=
    (congrArg Prod.fst refined).symm
  refine ⟨w, whole, kept, ?_, by rw [spliced]; rfl, fun a behind => ?_⟩
  · have length := congrArg List.length kept
    simp only [contents_length, List.length_append, List.length_take, List.length_drop] at length
    omega
  · rw [splice_move (v := tight v) inside] at spliced
    obtain ⟨m, moved, _⟩ := Option.map_eq_some_iff.mp spliced
    have grown : move layout v start (clamp v start n) = some { m with capacity := v.capacity } :=
      move_grow fits.bounded moved
    rw [splice_move inside, grown, Option.map_some] at whole
    rw [← Option.some.inj whole]
    exact move_frame moved a behind

/-- For every pair of size_t values, splice clamps its arguments exactly when the index is outside
    the vector or the sum does not wrap. -/
theorem splice_clamps (fits : Fits layout v) {start n : Nat} (size : n ≤ sizeMax) :
    (∃ w, Clamps layout v start n w) ↔ v.count ≤ start ∨ start + n ≤ sizeMax := by
  constructor
  · rintro ⟨w, clamps⟩
    rcases Nat.lt_or_ge start v.count with inside | outside
    · apply Or.inr
      apply Nat.le_of_not_lt
      intro wraps
      have survived := clamps.inside
      rw [wrapped_faults fits size inside wraps] at survived
      exact Bool.noConfusion survived
    · exact Or.inl outside
  · intro fine
    rcases Nat.lt_or_ge start v.count with inside | outside
    · exact small_clamps fits inside (by omega)
    · exact ⟨v, outside_clamps layout n outside⟩

end

def threeBytes : RawVector.FJFixVector := ⟨fun a => if a < 3 then a.toUInt8 + 1 else 0, 8, 3⟩

theorem threeBytes_fits : Fits byteLayout threeBytes := ⟨by decide, by decide⟩

theorem three_bytes_clamp :
    (∃ w, Clamps byteLayout threeBytes 1 9 w) ↔ threeBytes.count ≤ 1 ∨ 1 + 9 ≤ sizeMax :=
  splice_clamps threeBytes_fits (by decide)

/-- Everything from index 2 on is to go; the vector has four elements afterwards. -/
theorem wrapped_splice_grows : ¬ ∃ w, Clamps byteLayout threeBytes 2 sizeMax w := by
  rintro ⟨w, clamps⟩
  have counted : (splice byteLayout 2 sizeMax threeBytes).map RawVector.FJFixVector.count = some 4 := by
    decide +kernel
  rw [clamps.spliced, Option.map_some, Option.some.injEq] at counted
  have shrinks := clamps.shrinks
  rw [counted] at shrinks
  exact absurd shrinks (by decide)

end SpliceBounds
