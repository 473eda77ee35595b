import Mathlib.Data.List.Nodup
import Mathlib.Logic.Function.Basic

/- Blocks of memory at addresses. An owner is alive from the allocation of its blocks to their
   release, and every block has one owner that is alive. -/
namespace BlockHeap
variable {B K : Type}

/-- The allocator gives out an address that is not in use. -/
def allocate (a : Nat) (content : B) (heap : Nat → Option B) : Option (Nat → Option B) :=
  if (heap a).isNone then some (Function.update heap a (some content)) else none

/-- Releasing an address that is not in use is a fault. -/
def release (a : Nat) (heap : Nat → Option B) : Option (Nat → Option B) :=
  if (heap a).isSome then some (Function.update heap a none) else none

def store (a : Nat) (content : B) (heap : Nat → Option B) : Option (Nat → Option B) :=
  if (heap a).isSome then some (Function.update heap a (some content)) else none

def allocateAll : List (Nat × B) → (Nat → Option B) → Option (Nat → Option B)
  | [], heap => some heap
  | (a, content) :: rest, heap => (allocate a content heap).bind (allocateAll rest)

def releaseAll : List Nat → (Nat → Option B) → Option (Nat → Option B)
  | [], heap => some heap
  | a :: rest, heap => (release a heap).bind (releaseAll rest)

structure Allocated (blocks : List (Nat × B)) (heap heap' : Nat → Option B) : Prop where
  distinct : (blocks.map Prod.fst).Nodup
  fresh : ∀ b ∈ blocks, heap b.1 = none
  filled : ∀ b ∈ blocks, heap' b.1 = some b.2
  others : ∀ a, a ∉ blocks.map Prod.fst → heap' a = heap a

theorem allocateAll_some {blocks : List (Nat × B)} {heap heap' : Nat → Option B}
    (done : allocateAll blocks heap = some heap') : Allocated blocks heap heap' := by
  induction blocks generalizing heap with
  | nil =>
    simp only [allocateAll, Option.some.injEq] at done
    subst done
    constructor <;> simp
  | cons b rest ih =>
    obtain ⟨a, content⟩ := b
    obtain ⟨heap₁, first, later⟩ := Option.bind_eq_some_iff.mp done
    unfold allocate at first
    split at first
    · rename_i free
      simp only [Option.some.injEq] at first
      subst first
      obtain ⟨distinct, fresh, filled, others⟩ := ih later
      have apart : a ∉ rest.map Prod.fst := by
        intro again
        obtain ⟨b, member, same⟩ := List.mem_map.mp again
        have none_there := fresh b member
        rw [same, Function.update_self] at none_there
        exact absurd none_there (by simp)
      constructor
      · exact List.nodup_cons.mpr ⟨apart, distinct⟩
      · intro b member
        rcases List.mem_cons.mp member with rfl | old
        · exact Option.isNone_iff_eq_none.mp free
        · have none_there := fresh b old
          rwa [Function.update_of_ne] at none_there
          rintro rfl
          exact apart (List.mem_map_of_mem old)
      · intro b member
        rcases List.mem_cons.mp member with rfl | old
        · rw [others a apart, Function.update_self]
        · exact filled b old
      · intro a' outside
        simp only [List.map_cons, List.mem_cons, not_or] at outside
        rw [others a' outside.2, Function.update_of_ne outside.1]
    · simp at first

theorem releaseAll_some {blocks : List Nat} {heap : Nat → Option B} (distinct : blocks.Nodup)
    (used : ∀ a ∈ blocks, heap a ≠ none) :
    ∃ heap', releaseAll blocks heap = some heap' ∧
      ∀ a, heap' a = if a ∈ blocks then none else heap a := by
  induction blocks generalizing heap with
  | nil => exact ⟨heap, rfl, fun a => by simp⟩
  | cons a rest ih =>
    obtain ⟨apart, distinct⟩ := List.nodup_cons.mp distinct
    have first : release a heap = some (Function.update heap a none) :=
      if_pos (Option.isSome_iff_ne_none.mpr (used a List.mem_cons_self))
    have kept : ∀ b ∈ rest, Function.update heap a none b ≠ none := by
      intro b member
      have other : b ≠ a := by
        rintro rfl
        exact apart member
      rw [Function.update_of_ne other]
      exact used b (List.mem_cons_of_mem _ member)
    obtain ⟨heap', later, left⟩ := ih distinct kept
    refine ⟨heap', by rw [releaseAll, first]; exact later, ?_⟩
    intro b
    rw [left]
    by_cases here : b = a
    · simp [here]
    · simp [here]

/-- The blocks in use are those of the owners that are alive, no two of which share one. -/
structure Owned (heap : Nat → Option B) (blocks : K → List Nat) (alive : K → Prop) : Prop where
  held : ∀ k, alive k → ∀ a ∈ blocks k, heap a ≠ none
  distinct : ∀ k, alive k → (blocks k).Nodup
  apart : ∀ k k', alive k → alive k' → ∀ a ∈ blocks k, a ∈ blocks k' → k = k'
  accounted : ∀ a, heap a ≠ none → ∃ k, alive k ∧ a ∈ blocks k

theorem owned_empty (blocks : K → List Nat) {alive : K → Prop} (dead : ∀ k, ¬ alive k) :
    Owned (fun _ => (none : Option B)) blocks alive where
  held k living := absurd living (dead k)
  distinct k living := absurd living (dead k)
  apart k _ living := absurd living (dead k)
  accounted _ used := absurd rfl used

theorem owned_congr {heap : Nat → Option B} {blocks blocks' : K → List Nat}
    {alive alive' : K → Prop} (owned : Owned heap blocks alive) (same : ∀ k, alive' k ↔ alive k)
    (kept : ∀ k, alive k → blocks' k = blocks k) : Owned heap blocks' alive' := by
  constructor
  · intro k living a member
    have before := (same k).mp living
    exact owned.held k before a (kept k before ▸ member)
  · intro k living
    have before := (same k).mp living
    exact kept k before ▸ owned.distinct k before
  · intro k k' living living' a member member'
    have before := (same k).mp living
    have before' := (same k').mp living'
    exact owned.apart k k' before before' a (kept k before ▸ member) (kept k' before' ▸ member')
  · intro a used
    obtain ⟨k, living, member⟩ := owned.accounted a used
    exact ⟨k, (same k).mpr living, (kept k living).symm ▸ member⟩

theorem owned_allocate {heap heap' : Nat → Option B} {blocks : K → List Nat} {alive : K → Prop}
    {news : List (Nat × B)} {k : K} (owned : Owned heap blocks alive)
    (allocated : Allocated news heap heap') (has : (blocks k).Perm (news.map Prod.fst)) :
    Owned heap' blocks fun k' => k' = k ∨ alive k' := by
  have outside : ∀ k', alive k' → ∀ a ∈ blocks k', a ∉ news.map Prod.fst := by
    intro k' living a member again
    obtain ⟨b, new, rfl⟩ := List.mem_map.mp again
    exact owned.held k' living _ member (allocated.fresh b new)
  constructor
  · rintro k' (rfl | living) a member
    · obtain ⟨b, new, rfl⟩ := List.mem_map.mp (has.subset member)
      rw [allocated.filled b new]
      simp
    · rw [allocated.others a (outside k' living a member)]
      exact owned.held k' living a member
  · rintro k' (rfl | living)
    · exact has.nodup_iff.mpr allocated.distinct
    · exact owned.distinct k' living
  · rintro k₁ k₂ (rfl | living) (rfl | living') a member member'
    · rfl
    · exact absurd (has.subset member) (outside k₂ living' a member')
    · exact absurd (has.subset member') (outside k₁ living a member)
    · exact owned.apart k₁ k₂ living living' a member member'
  · intro a used
    by_cases new : a ∈ news.map Prod.fst
    · exact ⟨k, Or.inl rfl, has.symm.subset new⟩
    · rw [allocated.others a new] at used
      obtain ⟨k', living, member⟩ := owned.accounted a used
      exact ⟨k', Or.inr living, member⟩

/-- An owner that is alive can release its blocks, in any order, and no other loses any. -/
theorem owned_release {heap : Nat → Option B} {blocks : K → List Nat} {alive : K → Prop} {k : K}
    (owned : Owned heap blocks alive) (living : alive k) {order : List Nat}
    (all : order.Perm (blocks k)) :
    ∃ heap', releaseAll order heap = some heap' ∧
      (∀ k', k' ≠ k → alive k' → ∀ a ∈ blocks k', heap' a = heap a) ∧
        Owned heap' blocks fun k' => alive k' ∧ k' ≠ k := by
  obtain ⟨heap', released, left⟩ := releaseAll_some
    (all.nodup_iff.mpr (owned.distinct k living))
    fun a member => owned.held k living a (all.subset member)
  have kept : ∀ k', k' ≠ k → alive k' → ∀ a ∈ blocks k', heap' a = heap a := by
    intro k' other living' a member
    rw [left, if_neg]
    intro mine
    exact other (owned.apart k' k living' living a member (all.subset mine))
  refine ⟨heap', released, kept, ?_⟩
  constructor
  · rintro k' ⟨living', other⟩ a member
    rw [kept k' other living' a member]
    exact owned.held k' living' a member
  · exact fun k' living' => owned.distinct k' living'.1
  · exact fun k₁ k₂ living₁ living₂ => owned.apart k₁ k₂ living₁.1 living₂.1
  · intro a used
    rw [left] at used
    split at used
    · exact absurd rfl used
    · rename_i outside
      obtain ⟨k', living', member⟩ := owned.accounted a used
      refine ⟨k', ⟨living', ?_⟩, member⟩
      rintro rfl
      exact outside (all.symm.subset member)

theorem owned_store {heap heap' : Nat → Option B} {blocks : K → List Nat} {alive : K → Prop}
    {a : Nat} {content : B} (owned : Owned heap blocks alive)
    (stored : store a content heap = some heap') : Owned heap' blocks alive := by
  unfold store at stored
  split at stored
  · rename_i used
    simp only [Option.some.injEq] at stored
    subst stored
    have same : ∀ b, Function.update heap a (some content) b ≠ none ↔ heap b ≠ none := by
      intro b
      by_cases here : b = a
      · simp [here, Option.isSome_iff_ne_none.mp used]
      · rw [Function.update_of_ne here]
    exact ⟨fun k living b member => (same b).mpr (owned.held k living b member), owned.distinct,
      owned.apart, fun b there => owned.accounted b ((same b).mp there)⟩
  · simp at stored

end BlockHeap
