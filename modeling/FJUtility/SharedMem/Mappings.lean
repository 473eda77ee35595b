import FJUtility.SharedMem.OneRegion

/- Whether an instance maps more than its objects have. Only the constructor that creates an object
   gives it a length, in a call after the one that gives it the name, and every constructor maps the
   length it was called with. -/
namespace SharedMappings
open LabelledMachine AgentList SharedAttach SharedOneRegion

def mapsUser : InstancePos → Bool
  | .mappingUser | .entering | .clearing | .resetting | .waiting _ | .registering | .live
  | .leaving | .unmapping _ => true
  | _ => false

def mapsRegion : InstancePos → Bool
  | .mapping | .openingUser | .creatingUser | .truncatingUser => true
  | pos => mapsUser pos

structure Inside (layout : Layout) (objects : Nat → ShmObject) (w : Instance) : Prop where
  region : mapsRegion w.pos = true → layout.bytes ≤ (objects w.region).size
  user : mapsUser w.pos = true → w.extraSize ≤ (objects w.user).size

def MapsInside (layout : Layout) (s : State) : Prop :=
  ∀ w ∈ s.instances, Inside layout s.objects w

/-- Process 6 opens the region between shm_open and ftruncate of process 5. -/
def openedBeforeTruncate : List Action :=
  [.construct 5 "/a" 0, .advance 0, .advance 0, .construct 6 "/b" 0, .advance 1]

theorem opened_before_truncate_outside :
    ¬ ∀ layout s, (machine layout).Reachable s → MapsInside layout s := by
  intro always
  obtain ⟨s, reached, shown⟩ := run_shows (m := machine smallLayout) openedBeforeTruncate
    (s := initial) rfl
    (fun s : State => s.instances.any fun w : Instance =>
      mapsRegion w.pos && decide ((s.objects w.region).size < smallLayout.bytes)) (by decide +kernel)
  simp only [List.any_eq_true, Bool.and_eq_true, decide_eq_true_eq] at shown
  obtain ⟨w, member, maps, short⟩ := shown
  have inside := (always smallLayout s reached w member).region maps
  omega

def tooShort (layout : Layout) (o length : Nat) (w : Instance) : Bool :=
  mapsRegion w.pos && decide (w.region = o) && decide (length < layout.bytes) ||
    mapsUser w.pos && decide (w.user = o) && decide (length < w.extraSize)

/-- A constructor opens an object that is shorter than what it maps, or gives an object a length
    that is too short for an instance that maps it. -/
def exceeds (layout : Layout) (s : State) : Action → Bool
  | .construct .. => false
  | .advance i => s.instances[i]?.any fun w =>
    match w.pos with
    | .opening => (s.names regionName).any fun o => decide ((s.objects o).size < layout.bytes)
    | .openingUser => (s.names w.shmName).any fun o => decide ((s.objects o).size < w.extraSize)
    | .truncating => s.instances.any (tooShort layout w.region layout.bytes)
    | .truncatingUser => s.instances.any (tooShort layout w.user w.extraSize)
    | _ => false

def Fits (layout : Layout) (s : State) (a : Action) : Prop := exceeds layout s a = false

instance (layout : Layout) (s : State) (a : Action) : Decidable (Fits layout s a) :=
  inferInstanceAs (Decidable (_ = _))

def opened : InstancePos → Bool
  | .truncating => true
  | .crashed counted => counted
  | pos => mapsRegion pos

def openedUser : InstancePos → Bool
  | .truncatingUser => true
  | pos => mapsUser pos

structure Placed (s : State) (w : Instance) : Prop where
  region : opened w.pos = true → w.region < s.made
  user : openedUser w.pos = true → w.user < s.made

theorem placed_kept {s t : State} {w : Instance} (made : s.made ≤ t.made) (placed : Placed s w) :
    Placed t w :=
  ⟨fun here => Nat.lt_of_lt_of_le (placed.region here) made,
    fun here => Nat.lt_of_lt_of_le (placed.user here) made⟩

theorem placed_next {s t : State} {w w' : Instance} (made : s.made ≤ t.made) (placed : Placed s w)
    (region : w'.region = w.region) (user : w'.user = w.user)
    (opens : opened w'.pos = true → opened w.pos = true)
    (opensUser : openedUser w'.pos = true → openedUser w.pos = true) : Placed t w' := by
  constructor
  · intro here
    rw [region]
    exact Nat.lt_of_lt_of_le (placed.region (opens here)) made
  · intro here
    rw [user]
    exact Nat.lt_of_lt_of_le (placed.user (opensUser here)) made

theorem counts_opened {pos : InstancePos} (counted : counts pos = true) : opened pos = true := by
  cases pos <;> simp_all [counts, opened, mapsRegion, mapsUser]

theorem step_placed {layout : Layout} {s t : State} {a : Action} (named : Named s)
    (placed : ∀ w ∈ s.instances, Placed s w) (stepped : Stepped layout s a t) :
    ∀ w ∈ t.instances, Placed t w := by
  have made := (step_objects stepped).1
  have kept : ∀ v ∈ s.instances, Placed t v := fun v old => placed_kept made (placed v old)
  cases stepped with
  | construct =>
    refine List.forall_mem_append.mpr ⟨kept, List.forall_mem_singleton.mpr ?_⟩
    constructor <;> simp [opened, openedUser, mapsRegion, mapsUser]
  | @advance i w t thread moved =>
    have old := List.mem_of_getElem? thread
    have own := placed w old
    cases moved with
    | found here bound | shared here bound =>
      apply forall_place kept
      constructor
      · intro _
        exact (named _ _ bound).1
      · simp [openedUser, mapsUser]
    | created here unbound =>
      apply forall_place kept
      constructor
      · intro _
        exact Nat.lt_succ_self _
      · simp [openedUser, mapsUser]
    | foundUser here bound | sharedUser here bound =>
      apply forall_place kept
      constructor
      · intro _
        exact own.region (by simp [here, opened, mapsRegion])
      · intro _
        exact (named _ _ bound).1
    | createdUser here unbound =>
      apply forall_place kept
      constructor
      · intro _
        exact Nat.lt_succ_of_lt (own.region (by simp [here, opened, mapsRegion]))
      · intro _
        exact Nat.lt_succ_self _
    | crashed =>
      apply forall_crash kept
      intro v member
      exact placed_next made (placed v member) rfl rfl counts_opened (by simp [openedUser, mapsUser])
    | mappedUser here | unmapped here | _ here =>
      apply forall_place kept
      refine placed_next made own rfl rfl ?_ ?_
      · simp [here, opened, mapsRegion, mapsUser]
      · simp [here, openedUser, mapsUser]

theorem inside_next {layout : Layout} {objects : Nat → ShmObject} {w w' : Instance}
    (inside : Inside layout objects w) (region : w'.region = w.region) (user : w'.user = w.user)
    (extra : w'.extraSize = w.extraSize) (maps : mapsRegion w'.pos = true → mapsRegion w.pos = true)
    (mapsU : mapsUser w'.pos = true → mapsUser w.pos = true) : Inside layout objects w' := by
  constructor
  · intro here
    rw [region]
    exact inside.region (maps here)
  · intro here
    rw [user, extra]
    exact inside.user (mapsU here)

theorem inside_write {layout : Layout} {s : State} {o : Nat} {x : ShmObject} {w : Instance}
    (size : x.size = (s.objects o).size) (inside : Inside layout s.objects w) :
    Inside layout (writeObject o x s).objects w := by
  have sizes : ∀ o', ((writeObject o x s).objects o').size = (s.objects o').size :=
    forall_write (p := fun o' y => y.size = (s.objects o').size) size fun _ _ => rfl
  constructor
  · rw [sizes]
    exact inside.region
  · rw [sizes]
    exact inside.user

theorem inside_new {layout : Layout} {s : State} {name : String} {w : Instance}
    (placed : Placed s w) (inside : Inside layout s.objects w) :
    Inside layout (newlyNamed name s).objects w := by
  constructor
  · intro here
    have made : w.region < s.made := by
      apply placed.region
      generalize w.pos = pos at here
      cases pos <;> simp_all [opened, mapsRegion, mapsUser]
    rw [name_new made]
    exact inside.region here
  · intro here
    have made : w.user < s.made := by
      apply placed.user
      generalize w.pos = pos at here
      cases pos <;> simp_all [openedUser, mapsUser]
    rw [name_new made]
    exact inside.user here

theorem inside_truncated {layout : Layout} {s : State} {o length : Nat} {w : Instance}
    (fits : tooShort layout o length w = false) (inside : Inside layout s.objects w) :
    Inside layout (writeObject o (ftruncate length (s.objects o)) s).objects w := by
  simp only [tooShort, Bool.or_eq_false_iff, Bool.and_eq_false_iff, decide_eq_false_iff_not,
    Nat.not_lt] at fits
  obtain ⟨fitsRegion, fitsUser⟩ := fits
  constructor
  · intro here
    by_cases same : w.region = o
    · have long : layout.bytes ≤ length := by simpa [here, same] using fitsRegion
      simpa [writeObject, same, ftruncate] using long
    · simpa [writeObject, Function.update_of_ne same] using inside.region here
  · intro here
    by_cases same : w.user = o
    · have long : w.extraSize ≤ length := by simpa [here, same] using fitsUser
      simpa [writeObject, same, ftruncate] using long
    · simpa [writeObject, Function.update_of_ne same] using inside.user here

theorem step_inside {layout : Layout} {s t : State} {a : Action} (inside : MapsInside layout s)
    (placed : ∀ w ∈ s.instances, Placed s w) (fits : Fits layout s a)
    (stepped : Stepped layout s a t) : MapsInside layout t := by
  cases stepped with
  | construct =>
    refine List.forall_mem_append.mpr ⟨inside, List.forall_mem_singleton.mpr ?_⟩
    constructor <;> simp [mapsRegion, mapsUser]
  | @advance i w t thread moved =>
    have old := List.mem_of_getElem? thread
    have own := inside w old
    simp only [Fits, exceeds, thread, Option.any_some] at fits
    cases moved with
    | found here bound =>
      apply forall_place inside
      constructor
      · intro _
        simpa [here, bound, place] using fits
      · simp [mapsUser]
    | shared here bound =>
      apply forall_place inside
      constructor <;> simp [mapsRegion, mapsUser]
    | created here unbound =>
      apply forall_place
      · intro v member
        exact inside_new (placed v member) (inside v member)
      · constructor <;> simp [mapsRegion, mapsUser]
    | truncated here =>
      simp only [here, List.any_eq_false, Bool.not_eq_true] at fits
      apply forall_place
      · intro v member
        exact inside_truncated (fits v member) (inside v member)
      · constructor
        · simp [place, writeObject, ftruncate]
        · simp [mapsUser]
    | foundUser here bound =>
      apply forall_place inside
      constructor
      · intro _
        exact own.region (by simp [here, mapsRegion])
      · intro _
        simpa [here, bound, place] using fits
    | sharedUser here bound =>
      apply forall_place inside
      constructor
      · intro _
        exact own.region (by simp [here, mapsRegion])
      · simp [mapsUser]
    | createdUser here unbound =>
      have kept : Inside layout (newlyNamed w.shmName s).objects w := inside_new (placed w old) own
      apply forall_place
      · intro v member
        exact inside_new (placed v member) (inside v member)
      · constructor
        · intro _
          exact kept.region (by simp [here, mapsRegion])
        · simp [mapsUser]
    | truncatedUser here =>
      simp only [here, List.any_eq_false, Bool.not_eq_true] at fits
      have kept := inside_truncated (fits w old) own
      apply forall_place
      · intro v member
        exact inside_truncated (fits v member) (inside v member)
      · constructor
        · intro _
          exact kept.region (by simp [here, mapsRegion])
        · simp [place, writeObject, ftruncate]
    | entered here | reset here | registered here | began here | released here =>
      apply forall_place
      · intro v member
        exact inside_write rfl (inside v member)
      · refine inside_next (inside_write rfl own) rfl rfl rfl ?_ ?_
        · simp [here, mapsRegion, mapsUser]
        · simp [here, mapsUser]
    | crashed =>
      apply forall_crash inside
      intro v member
      constructor <;> simp [mapsRegion, mapsUser]
    | mappedUser here | unmapped here | _ here =>
      apply forall_place inside
      refine inside_next own rfl rfl rfl ?_ ?_
      · simp [here, mapsRegion, mapsUser]
      · simp [here, mapsUser]

theorem tooShort_outside {layout : Layout} {s : State} {o length : Nat} {w : Instance}
    (short : tooShort layout o length w = true) :
    ¬ Inside layout (writeObject o (ftruncate length (s.objects o)) s).objects w := by
  intro inside
  simp only [tooShort, Bool.or_eq_true, Bool.and_eq_true, decide_eq_true_eq] at short
  rcases short with ⟨⟨maps, rfl⟩, less⟩ | ⟨⟨maps, rfl⟩, less⟩
  · have enough := inside.region maps
    simp only [writeObject, Function.update_self, ftruncate] at enough
    omega
  · have enough := inside.user maps
    simp only [writeObject, Function.update_self, ftruncate] at enough
    omega

theorem exceeds_outside {layout : Layout} {s t : State} {a : Action}
    (exceeded : exceeds layout s a = true) (move : (machine layout).step s a = some t) :
    ¬ MapsInside layout t := by
  intro inside
  change step layout s a = some t at move
  cases a with
  | construct => simp [exceeds] at exceeded
  | advance i =>
    obtain ⟨w, thread, moved⟩ := Option.bind_eq_some_iff.mp move
    simp only [exceeds, thread, Option.any_some] at exceeded
    generalize here : w.pos = pos at exceeded moved
    cases pos with
    | opening =>
      obtain ⟨o, bound, small⟩ := (Option.any_eq_true ..).mp exceeded
      simp only [advance, bound, Option.some.injEq] at moved
      subst moved
      have enough := (inside _ (mem_set_at thread _)).region rfl
      exact Nat.not_lt.mpr enough (of_decide_eq_true small)
    | openingUser =>
      obtain ⟨o, bound, small⟩ := (Option.any_eq_true ..).mp exceeded
      simp only [advance, bound, Option.some.injEq] at moved
      subst moved
      have enough := (inside _ (mem_set_at thread _)).user rfl
      exact Nat.not_lt.mpr enough (of_decide_eq_true small)
    | truncating =>
      obtain ⟨v, member, short⟩ := List.any_eq_true.mp exceeded
      obtain rfl := Option.some.inj moved
      have other : v ≠ w := by
        rintro rfl
        simp [tooShort, here, mapsRegion, mapsUser] at short
      exact tooShort_outside short (inside v (mem_set_other thread _ member other))
    | truncatingUser =>
      obtain ⟨v, member, short⟩ := List.any_eq_true.mp exceeded
      obtain rfl := Option.some.inj moved
      by_cases other : v = w
      · subst other
        have maps : tooShort layout v.user v.extraSize { v with pos := .mappingUser } = true := by
          simpa [tooShort, here, mapsRegion, mapsUser] using short
        exact tooShort_outside maps (inside _ (mem_set_at thread _))
      · exact tooShort_outside short (inside v (mem_set_other thread _ member other))
    | _ => simp at exceeded

/-- In every run where each constructor opens objects that have its lengths and shortens none that
    is in use, everything that is mapped lies inside its object. The first other step ends that. -/
theorem fitting_mapped_inside {layout : Layout} {s : State}
    (reached : (machine layout).ReachableBy (Fits layout) s) : MapsInside layout s ∧
      ∀ a t, (machine layout).step s a = some t → (MapsInside layout t ↔ Fits layout s a) := by
  let holds (s : State) : Prop :=
    Named s ∧ (∀ w ∈ s.instances, Placed s w) ∧ MapsInside layout s
  have ⟨_, placed, inside⟩ : holds s := by
    apply invariant_of_steps holds _ _ reached
    · rintro s rfl
      refine ⟨initial_linked.named, ?_, ?_⟩ <;> simp [MapsInside, initial]
    · rintro s a t ⟨named, placed, inside⟩ fits move
      have stepped := step_stepped move
      exact ⟨step_named named stepped, step_placed named placed stepped,
        step_inside inside placed fits stepped⟩
  refine ⟨inside, fun a t move => ⟨fun after => ?_, fun fits => ?_⟩⟩
  · exact Bool.eq_false_iff.mpr fun exceeded => exceeds_outside exceeded move after
  · exact step_inside inside placed fits (step_stepped move)

def openedAfterTruncate : List Action :=
  .construct 5 "/a" 32 :: List.replicate 8 (.advance 0) ++
    .construct 6 "/a" 16 :: List.replicate 4 (.advance 1) ++ List.replicate 4 (.advance 0)

theorem opened_after_truncate_inside : ∃ s, (machine smallLayout).runBy
    (fun s a => decide (Fits smallLayout s a)) initial openedAfterTruncate = some s ∧
      (s.instances.all fun w => mapsRegion w.pos && mapsUser w.pos) = true ∧
      (MapsInside smallLayout s ∧ ∀ a t, (machine smallLayout).step s a = some t →
        (MapsInside smallLayout t ↔ Fits smallLayout s a)) := by
  obtain ⟨s, executed, mapped, reached⟩ := guarded_shows (m := machine smallLayout) (s := initial)
    (Fits smallLayout) openedAfterTruncate rfl
    (fun s : State => s.instances.all fun w : Instance => mapsRegion w.pos && mapsUser w.pos)
    (by decide +kernel)
  exact ⟨s, executed, mapped, fitting_mapped_inside reached⟩

end SharedMappings
