import FJUtility.SharedMem.Attach

/- How often a region object is initialised, and by whom. The constructor that opened the region
   with O_CREAT takes it for new and calls initSharedRegion, which returns at once when it has
   run in the process before; every other constructor waits, up to a bound. -/
namespace SharedInitOnce
open LabelledMachine SharedAttach

def initialises : InstancePos → Bool
  | .clearing | .resetting => true
  | _ => false

structure InitialisedOnce (s : State) : Prop where
  once : ∀ o, (s.objects o).begun ≤ 1 ∧ (s.objects o).inits ≤ (s.objects o).begun
  first : ∀ o, 0 < (s.objects o).locks → (s.objects o).inits = 1
  unwiped : ∀ v ∈ s.instances, ∀ w ∈ s.instances, initialises v.pos = true →
    counts w.pos = true → v.region ≠ w.region

def constructedAgain : List Action :=
  .construct 5 "/a" 0 :: List.replicate 17 (.advance 0) ++
    .construct 5 "/a" 0 :: List.replicate 10 (.advance 1)

theorem constructed_again_uninitialised :
    ¬ ∀ layout s, (machine layout).Reachable s → InitialisedOnce s := by
  intro always
  obtain ⟨s, reached, shown⟩ := run_shows (m := machine smallLayout) constructedAgain
    (s := initial) rfl
    (fun s : State => decide (0 < (s.objects 2).locks) && decide ((s.objects 2).inits = 0))
    (by decide +kernel)
  simp only [Bool.and_eq_true, decide_eq_true_eq] at shown
  have once := (always smallLayout s reached).first 2 shown.1
  simp [shown.2] at once

/-- The region is opened with O_CREAT though it exists by then, initSharedRegion is left at once
    for a region that is new, or the wait runs out before the region is initialised. -/
def misses (s : State) : Action → Bool
  | .construct .. => false
  | .advance i => s.instances[i]?.any fun w =>
    match w.pos with
    | .creating => (s.names regionName).isSome
    | .entering => s.entered w.pid
    | .waiting polls => decide (timeoutMs ≤ polls) && decide ((s.objects w.region).inits = 0)
    | _ => false

def InitsFirst (s : State) (a : Action) : Prop := misses s a = false

instance (s : State) (a : Action) : Decidable (InitsFirst s a) :=
  inferInstanceAs (Decidable (_ = _))

structure ObjectOk (o : ShmObject) : Prop where
  once : o.begun ≤ 1
  done : o.inits ≤ o.begun
  counted : o.initialized ≠ 0 → o.inits = 1
  locked : 0 < o.locks → o.inits = 1

def beforeInit : InstancePos → Bool
  | .truncating | .mapping | .openingUser | .creatingUser | .truncatingUser | .mappingUser
  | .entering => true
  | _ => false

def afterInit (pos : InstancePos) : Bool := decide (pos = .registering) || counts pos

structure Phase (o : ShmObject) (w : Instance) : Prop where
  unopened : w.pos = .opening ∨ w.pos = .creating → w.isCreate = false
  creator : w.pos = .entering ∨ initialises w.pos = true → w.isCreate = true
  before : w.isCreate = true → beforeInit w.pos = true → o.begun = 0
  during : initialises w.pos = true → o.begun = 1 ∧ o.inits = 0
  after : afterInit w.pos = true → o.inits = 1

structure Orderly (s : State) : Prop where
  objects : ∀ o, ObjectOk (s.objects o)
  fresh : ∀ o, s.made ≤ o → (s.objects o).begun = 0
  within : ∀ (j : Nat) w, s.instances[j]? = some w → w.isCreate = true → w.region < s.made
  single : ∀ (i j : Nat) v w, s.instances[i]? = some v → s.instances[j]? = some w →
    v.isCreate = true → w.isCreate = true → v.region = w.region → i = j
  phases : ∀ (j : Nat) w, s.instances[j]? = some w → Phase (s.objects w.region) w

theorem phase_same {o o' : ShmObject} {w : Instance} (phase : Phase o w)
    (begun : o'.begun = o.begun) (inits : o'.inits = o.inits) : Phase o' w := by
  obtain ⟨unopened, creator, before, during, after⟩ := phase
  rw [← begun] at before during
  rw [← inits] at during after
  exact ⟨unopened, creator, before, during, after⟩

theorem place_at {i j : Nat} {w v : Instance} {s : State}
    (there : (place i w s).instances[j]? = some v) :
    j = i ∧ v = w ∨ j ≠ i ∧ s.instances[j]? = some v := by
  by_cases here : i = j
  · subst here
    simp only [place, List.getElem?_set, reduceIte] at there
    split at there
    · exact Or.inl ⟨rfl, (Option.some.inj there).symm⟩
    · simp at there
  · rw [place, List.getElem?_set_ne here] at there
    exact Or.inr ⟨Ne.symm here, there⟩

structure Lone (s : State) (i : Nat) (w' : Instance) (made : Nat) : Prop where
  within : w'.isCreate = true → w'.region < made
  apart : w'.isCreate = true → ∀ (j : Nat) v, j ≠ i → s.instances[j]? = some v →
    v.isCreate = true → v.region ≠ w'.region

theorem lone_kept {s : State} {i made : Nat} {w w' : Instance} (orderly : Orderly s)
    (thread : s.instances[i]? = some w) (creates : w'.isCreate = w.isCreate)
    (region : w'.region = w.region) (grows : s.made ≤ made) : Lone s i w' made where
  within created := by
    rw [creates] at created
    rw [region]
    exact Nat.lt_of_lt_of_le (orderly.within i w thread created) grows
  apart created j v other there created' same := by
    rw [creates] at created
    rw [region] at same
    exact other (orderly.single j i v w there thread created' created same)

theorem lone_plain {s : State} {i made : Nat} {w' : Instance} (plain : w'.isCreate = false) :
    Lone s i w' made :=
  ⟨fun created => by simp [plain] at created, fun created => by simp [plain] at created⟩

theorem orderly_place {s u : State} {i : Nat} {w w' : Instance} (orderly : Orderly s)
    (thread : s.instances[i]? = some w) (instances : u.instances = s.instances)
    (lone : Lone s i w' u.made) (made : s.made ≤ u.made)
    (fresh : ∀ o, u.made ≤ o → (u.objects o).begun = 0) (objects : ∀ o, ObjectOk (u.objects o))
    (own : Phase (u.objects w'.region) w')
    (others : ∀ (j : Nat) v, j ≠ i → s.instances[j]? = some v → Phase (u.objects v.region) v) :
    Orderly (place i w' u) where
  objects := objects
  fresh := fresh
  within j v there created := by
    rcases place_at there with ⟨_, rfl⟩ | ⟨_, older⟩
    · exact lone.within created
    · rw [instances] at older
      exact Nat.lt_of_lt_of_le (orderly.within j v older created) made
  single j k v v' first second created created' same := by
    rcases place_at first with ⟨rfl, rfl⟩ | ⟨other, older⟩
    · rcases place_at second with ⟨rfl, rfl⟩ | ⟨other', older'⟩
      · rfl
      · rw [instances] at older'
        exact absurd same.symm (lone.apart created k v' other' older' created')
    · rw [instances] at older
      rcases place_at second with ⟨rfl, rfl⟩ | ⟨other', older'⟩
      · exact absurd same (lone.apart created' j v other older created)
      · rw [instances] at older'
        exact orderly.single j k v v' older older' created created' same
  phases j v there := by
    rcases place_at there with ⟨_, rfl⟩ | ⟨other, older⟩
    · exact own
    · exact others j v other (instances ▸ older)

def SameInits (s u : State) : Prop :=
  ∀ o, (u.objects o).begun = (s.objects o).begun ∧ (u.objects o).inits = (s.objects o).inits

theorem orderly_quiet {s u : State} {i : Nat} {w w' : Instance} (orderly : Orderly s)
    (thread : s.instances[i]? = some w) (instances : u.instances = s.instances)
    (lone : Lone s i w' u.made) (made : s.made ≤ u.made) (same : SameInits s u)
    (objects : ∀ o, ObjectOk (u.objects o)) (own : Phase (s.objects w'.region) w') :
    Orderly (place i w' u) :=
  orderly_place orderly thread instances lone made
    (fun o late => (same o).1.trans (orderly.fresh o (Nat.le_trans made late))) objects
    (phase_same own (same _).1 (same _).2)
    fun j v _ there => phase_same (orderly.phases j v there) (same _).1 (same _).2

theorem sameInits_write {s : State} {o : Nat} {x : ShmObject}
    (begun : x.begun = (s.objects o).begun) (inits : x.inits = (s.objects o).inits) :
    SameInits s (writeObject o x s) :=
  forall_write (p := fun o y =>
    y.begun = (s.objects o).begun ∧ y.inits = (s.objects o).inits)
      ⟨begun, inits⟩ fun _ _ => ⟨rfl, rfl⟩

theorem objects_write {s : State} {o : Nat} {x : ShmObject} (objects : ∀ o, ObjectOk (s.objects o))
    (ok : ObjectOk x) : ∀ o', ObjectOk ((writeObject o x s).objects o') :=
  forall_write (p := fun _ y => ObjectOk y) ok fun o _ => objects o

theorem new_ok (name : String) : ObjectOk (newObject name) :=
  ⟨by simp [newObject], by simp [newObject], by simp [newObject], by simp [newObject]⟩

theorem sameInits_new {s : State} (orderly : Orderly s) (name : String) :
    SameInits s (newlyNamed name s) := by
  have begun := orderly.fresh s.made (Nat.le_refl _)
  have done := (orderly.objects s.made).done
  refine forall_new (p := fun o y =>
    y.begun = (s.objects o).begun ∧ y.inits = (s.objects o).inits)
      ⟨begun.symm, ?_⟩ fun _ _ => ⟨rfl, rfl⟩
  simp only [newObject]
  omega

theorem objects_new {s : State} (objects : ∀ o, ObjectOk (s.objects o)) (name : String) :
    ∀ o, ObjectOk ((newlyNamed name s).objects o) :=
  forall_new (p := fun _ y => ObjectOk y) (new_ok name) fun o _ => objects o

theorem ftruncate_ok {o : ShmObject} (ok : ObjectOk o) (length : Nat) :
    ObjectOk (ftruncate length o) := by
  refine ⟨ok.once, ok.done, fun counted => ok.counted ?_, ok.locked⟩
  simp only [ftruncate] at counted
  split at counted
  · exact absurd rfl counted
  · exact counted

theorem locked_ok {o : ShmObject} (ok : ObjectOk o) (ready : o.inits = 1) (initialized : Nat) :
    ObjectOk (lockedWith initialized o) :=
  ⟨ok.once, ok.done, fun _ => ready, fun _ => ready⟩

theorem phase_building {o : ShmObject} {w w' : Instance} (phase : Phase o w)
    (was : beforeInit w.pos = true) (creates : w'.isCreate = w.isCreate)
    (is : beforeInit w'.pos = true) (plain : w'.pos = .entering → w.isCreate = true) :
    Phase o w' := by
  have quiet : initialises w'.pos = false ∧ afterInit w'.pos = false ∧ w'.pos ≠ .opening ∧
      w'.pos ≠ .creating := by
    generalize w'.pos = pos at is
    cases pos <;> simp_all [beforeInit, initialises, afterInit, counts]
  obtain ⟨outside, early, other, other'⟩ := quiet
  refine ⟨fun here => absurd here (by simp [other, other']), fun here => ?_, fun created _ => ?_,
    fun inside => by simp [outside] at inside, fun late => by simp [early] at late⟩
  · rw [creates]
    exact plain (here.resolve_right (by simp [outside]))
  · exact phase.before (creates ▸ created) was

theorem phase_free {o : ShmObject} {w : Instance} (unopened : w.pos ≠ .opening ∧ w.pos ≠ .creating)
    (outside : initialises w.pos = false) (building : beforeInit w.pos = false)
    (early : afterInit w.pos = false) : Phase o w where
  unopened here := absurd here (by simp [unopened])
  creator here := by
    rcases here with entering | inside
    · simp [entering, beforeInit] at building
    · simp [outside] at inside
  before _ here := by simp [building] at here
  during inside := by simp [outside] at inside
  after late := by simp [early] at late

theorem phase_ready {o : ShmObject} {w : Instance} (ready : o.inits = 1)
    (here : afterInit w.pos = true) : Phase o w := by
  have quiet : initialises w.pos = false ∧ beforeInit w.pos = false ∧ w.pos ≠ .opening ∧
      w.pos ≠ .creating ∧ w.pos ≠ .entering := by
    generalize w.pos = pos at here
    cases pos <;> simp_all [beforeInit, initialises, afterInit, counts]
  obtain ⟨outside, building, other, other', other''⟩ := quiet
  exact ⟨fun at_ => absurd at_ (by simp [other, other']),
    fun at_ => absurd at_ (by simp [other'', outside]), fun _ early => by simp [building] at early,
    fun inside => by simp [outside] at inside, fun _ => ready⟩

/-- A step inside initSharedRegion: only the instance that created the region can make it, and
    the others only learn that the region is initialised. -/
theorem orderly_created {s u : State} {i : Nat} {w w' : Instance} {x : ShmObject}
    (orderly : Orderly s) (thread : s.instances[i]? = some w) (created : w.isCreate = true)
    (instances : u.instances = s.instances) (made : u.made = s.made)
    (objects : u.objects = (writeObject w.region x s).objects)
    (creates : w'.isCreate = w.isCreate) (region : w'.region = w.region) (ok : ObjectOk x)
    (done : (s.objects w.region).inits = 1 → x.inits = 1) (own : Phase x w') :
    Orderly (place i w' u) := by
  refine orderly_place orderly thread instances
    (lone_kept orderly thread creates region (Nat.le_of_eq made.symm)) (Nat.le_of_eq made.symm)
    (fun o late => ?_) ?_ ?_ fun j v other there => ?_
  · rw [made] at late
    have below := orderly.within i w thread created
    rw [objects]
    simp only [writeObject, Function.update_of_ne (Nat.ne_of_gt (Nat.lt_of_lt_of_le below late))]
    exact orderly.fresh o late
  · rw [objects]
    exact objects_write orderly.objects ok
  · rw [objects, region]
    simpa only [writeObject, Function.update_self] using own
  · rw [objects]
    have old := orderly.phases j v there
    by_cases same : v.region = w.region
    · have plain : v.isCreate = false := by
        apply Bool.eq_false_iff.mpr
        intro created'
        exact other (orderly.single j i v w there thread created' created same)
      simp only [same, writeObject, Function.update_self]
      obtain ⟨unopened, creator, before, during, after⟩ := old
      rw [same] at after
      refine ⟨unopened, creator, fun created' => by simp [plain] at created', fun inside => ?_,
        fun late => done (after late)⟩
      simp [plain] at creator
      simp [creator.2] at inside
    · simpa only [writeObject, Function.update_of_ne same] using old

theorem entered_orderly {s : State} {i : Nat} {w : Instance} (orderly : Orderly s)
    (thread : s.instances[i]? = some w) (here : w.pos = .entering) :
    Orderly (place i { w with pos := .clearing }
      { writeObject w.region
          { s.objects w.region with begun := (s.objects w.region).begun + 1 } s with
        entered := Function.update s.entered w.pid true }) := by
  have phase := orderly.phases i w thread
  have created := phase.creator (Or.inl here)
  have none_begun := phase.before created (by simp [here, beforeInit])
  obtain ⟨once, done, counted, locked⟩ := orderly.objects w.region
  have none_done : (s.objects w.region).inits = 0 := by omega
  refine orderly_created orderly thread created rfl rfl rfl rfl rfl
    ⟨by simp [none_begun], by simp [none_done], counted, locked⟩ id ?_
  exact ⟨by simp, fun _ => created, by simp [beforeInit], fun _ => ⟨by simp [none_begun], none_done⟩,
    by simp [afterInit, counts]⟩

theorem reset_orderly {s : State} {i : Nat} {w : Instance} (orderly : Orderly s)
    (thread : s.instances[i]? = some w) (here : w.pos = .resetting) :
    Orderly (place i { w with pos := .registering } (writeObject w.region
      { s.objects w.region with initialized := 0, inits := (s.objects w.region).inits + 1 } s)) := by
  have phase := orderly.phases i w thread
  have created := phase.creator (Or.inr (by simp [here, initialises]))
  obtain ⟨begun, none_done⟩ := phase.during (by simp [here, initialises])
  refine orderly_created orderly thread created rfl rfl rfl rfl rfl
    ⟨(orderly.objects w.region).once, by simp [none_done, begun], by simp, by simp [none_done]⟩
    (fun _ => by simp [none_done]) ?_
  exact phase_ready (by simp [none_done]) (by simp [afterInit])

theorem crash_orderly {s : State} (pid : Nat) (orderly : Orderly s) :
    Orderly { s with instances := s.instances.map (Instance.crash pid) } := by
  have kept : ∀ {j : Nat} {w'}, (s.instances.map (Instance.crash pid))[j]? = some w' →
      ∃ w, s.instances[j]? = some w ∧ w'.isCreate = w.isCreate ∧ w'.region = w.region ∧
        (w' = w ∨ w'.pos = .crashed (counts w.pos)) := by
    intro j w' there
    rw [List.getElem?_map, Option.map_eq_some_iff] at there
    obtain ⟨w, was, rfl⟩ := there
    rcases crash_cases pid w with same | gone
    · rw [same]
      exact ⟨w, was, rfl, rfl, Or.inl rfl⟩
    · rw [gone]
      exact ⟨w, was, rfl, rfl, Or.inr rfl⟩
  refine ⟨orderly.objects, orderly.fresh, ?_, ?_, ?_⟩
  · intro j w' there created
    obtain ⟨w, was, creates, region, _⟩ := kept there
    exact region ▸ orderly.within j w was (creates ▸ created)
  · intro i j v' w' first second created created' same
    obtain ⟨v, was, creates, region, _⟩ := kept first
    obtain ⟨w, was', creates', region', _⟩ := kept second
    exact orderly.single i j v w was was' (creates ▸ created) (creates' ▸ created')
      (region.symm.trans (same.trans region'))
  · intro j w' there
    obtain ⟨w, was, creates, region, rfl | gone⟩ := kept there
    · exact orderly.phases j w' was
    · have phase := orderly.phases j w was
      rw [region]
      by_cases counted : counts w.pos = true
      · exact phase_ready (phase.after (by simp [afterInit, counted]))
          (by simpa [gone, afterInit, counts] using counted)
      · exact phase_free (by simp [gone]) (by simp [gone, initialises]) (by simp [gone, beforeInit])
          (by simpa [gone, afterInit, counts] using counted)

/-- The step lemma: what an instance may know of its region at its point stays true. -/
theorem advanced_orderly {layout : Layout} {i : Nat} {s t : State} {w : Instance}
    (orderly : Orderly s) (thread : s.instances[i]? = some w) (keeps : InitsFirst s (.advance i))
    (moved : Advanced layout i w s t) : Orderly t := by
  simp only [InitsFirst, misses, thread, Option.any_some] at keeps
  have phase := orderly.phases i w thread
  have own := orderly.objects w.region
  have same : SameInits s s := fun _ => ⟨rfl, rfl⟩
  have moves : ∀ {u : State} {w' : Instance}, u.instances = s.instances → u.made = s.made →
      u.objects = s.objects → Lone s i w' s.made → Phase (s.objects w'.region) w' →
      Orderly (place i w' u) := by
    intro u w' instances made objects lone next
    refine orderly_quiet orderly thread instances (made ▸ lone) (Nat.le_of_eq made.symm) ?_ ?_ next
    · rw [SameInits, objects]
      exact same
    · rw [objects]
      exact orderly.objects
  have locks : ∀ {n : Nat} {w' : Instance}, (s.objects w.region).inits = 1 → Lone s i w' s.made →
      Phase (s.objects w'.region) w' →
      Orderly (place i w' (writeObject w.region (lockedWith n (s.objects w.region)) s)) :=
    fun ready lone next => orderly_quiet orderly thread rfl lone (Nat.le_refl _)
      (sameInits_write rfl rfl) (objects_write orderly.objects (locked_ok own ready _)) next
  have kept : ∀ {w' : Instance}, w'.isCreate = w.isCreate → w'.region = w.region →
      Lone s i w' s.made := fun creates region =>
    lone_kept orderly thread creates region (Nat.le_refl _)
  cases moved with
  | found here bound =>
    have plain := phase.unopened (Or.inl here)
    refine moves rfl rfl rfl (lone_plain plain) ?_
    exact ⟨by simp, by simp [initialises], by simp [plain], by simp [initialises],
      by simp [afterInit, counts]⟩
  | missing here unbound =>
    have plain := phase.unopened (Or.inl here)
    refine moves rfl rfl rfl (lone_plain plain) ?_
    exact ⟨fun _ => plain, by simp [initialises], by simp [plain], by simp [initialises],
      by simp [afterInit, counts]⟩
  | shared here bound => simp [here, bound] at keeps
  | created here unbound =>
    refine orderly_quiet orderly thread rfl ⟨fun _ => Nat.lt_succ_self _, fun _ j v _ there old => ?_⟩
      (Nat.le_succ _) (sameInits_new orderly _) (objects_new orderly.objects _) ?_
    · exact Nat.ne_of_lt (orderly.within j v there old)
    · exact ⟨by simp, fun _ => rfl, fun _ _ => orderly.fresh _ (Nat.le_refl _),
        by simp [initialises], by simp [afterInit, counts]⟩
  | truncated here =>
    refine orderly_quiet orderly thread rfl (kept rfl rfl) (Nat.le_refl _)
      (sameInits_write rfl rfl) (objects_write orderly.objects (ftruncate_ok own _)) ?_
    exact phase_building phase (by simp [here, beforeInit]) rfl rfl (by simp)
  | truncatedUser here =>
    refine orderly_quiet orderly thread rfl (kept rfl rfl) (Nat.le_refl _)
      (sameInits_write rfl rfl)
      (objects_write orderly.objects (ftruncate_ok (orderly.objects w.user) _)) ?_
    exact phase_building phase (by simp [here, beforeInit]) rfl rfl (by simp)
  | createdUser here unbound =>
    refine orderly_quiet orderly thread rfl (lone_kept orderly thread rfl rfl (Nat.le_succ _))
      (Nat.le_succ _) (sameInits_new orderly _) (objects_new orderly.objects _) ?_
    exact phase_building phase (by simp [here, beforeInit]) rfl rfl (by simp)
  | mapped here | foundUser here | missingUser here | sharedUser here =>
    refine moves rfl rfl rfl (kept rfl rfl) ?_
    exact phase_building phase (by simp [here, beforeInit]) rfl rfl (by simp)
  | mappedUser here =>
    refine moves rfl rfl rfl (kept rfl rfl) ?_
    by_cases creates : w.isCreate = true
    · simp only [creates, reduceIte]
      exact phase_building phase (by simp [here, beforeInit]) creates.symm rfl (fun _ => creates)
    · simp only [creates, Bool.false_eq_true, reduceIte]
      exact phase_free (by simp) rfl rfl rfl
  | skipped here again => simp [here, again] at keeps
  | entered here first => exact entered_orderly orderly thread here
  | cleared here =>
    obtain ⟨begun, none_done⟩ := phase.during (by simp [here, initialises])
    have creates := phase.creator (Or.inr (by simp [here, initialises]))
    refine moves rfl rfl rfl (kept rfl rfl) ?_
    exact ⟨by simp, fun _ => creates, by simp [beforeInit], fun _ => ⟨begun, none_done⟩,
      by simp [afterInit, counts]⟩
  | reset here => exact reset_orderly orderly thread here
  | polled here early zero =>
    exact moves rfl rfl rfl (kept rfl rfl) (phase_free (by simp) rfl rfl rfl)
  | ready here counted =>
    exact moves rfl rfl rfl (kept rfl rfl) (phase_ready (own.counted counted) rfl)
  | timedOut here late =>
    have done : (s.objects w.region).inits = 1 := by
      simp only [here, Bool.and_eq_false_iff, decide_eq_false_iff_not] at keeps
      have := keeps.resolve_left (by omega)
      have := own.once
      have := own.done
      omega
    exact moves rfl rfl rfl (kept rfl rfl) (phase_ready done rfl)
  | registered here =>
    have ready := phase.after (by simp [here, afterInit])
    exact locks ready (kept rfl rfl) (phase_ready ready rfl)
  | began here =>
    have ready := phase.after (by simp [here, afterInit, counts])
    exact locks ready (kept rfl rfl) (phase_ready ready rfl)
  | released here down =>
    have ready := phase.after (by simp [here, afterInit, counts])
    exact locks ready (kept rfl rfl) (phase_free (by simp) rfl rfl rfl)
  | @unmapped isUnlink here =>
    refine moves rfl rfl rfl (kept rfl rfl) ?_
    cases isUnlink <;> exact phase_free (by simp) rfl rfl rfl
  | unlinkedUser here | unlinked here =>
    exact moves rfl rfl rfl (kept rfl rfl) (phase_free (by simp) rfl rfl rfl)
  | crashed => exact crash_orderly w.pid orderly

theorem construct_orderly {s : State} {pid bytes : Nat} {shmName : String} (orderly : Orderly s) :
    Orderly { s with
      instances := s.instances ++ [⟨pid, shmName, bytes, 0, 0, false, .opening⟩] } := by
  have kept : ∀ {j : Nat} {w}, (s.instances ++ [⟨pid, shmName, bytes, 0, 0, false, .opening⟩])[j]? =
      some w → s.instances[j]? = some w ∨ w.isCreate = false ∧ w.pos = .opening := by
    intro j w there
    rw [List.getElem?_append] at there
    split at there
    · exact Or.inl there
    · rw [List.mem_singleton.mp (List.mem_of_getElem? there)]
      exact Or.inr ⟨rfl, rfl⟩
  refine ⟨orderly.objects, orderly.fresh, ?_, ?_, ?_⟩
  · intro j w there created
    rcases kept there with old | ⟨plain, _⟩
    · exact orderly.within j w old created
    · simp [plain] at created
  · intro i j v w first second created created' same
    rcases kept first with old | ⟨plain, _⟩
    · rcases kept second with old' | ⟨plain, _⟩
      · exact orderly.single i j v w old old' created created' same
      · simp [plain] at created'
    · simp [plain] at created
  · intro j w there
    rcases kept there with old | ⟨plain, here⟩
    · exact orderly.phases j w old
    · exact ⟨fun _ => plain, by simp [here, initialises], by simp [plain],
        by simp [here, initialises], by simp [here, afterInit, counts]⟩

theorem initial_orderly : Orderly initial where
  objects _ := new_ok ""
  fresh _ _ := rfl
  within j w there := by simp [initial] at there
  single i j v w there := by simp [initial] at there
  phases j w there := by simp [initial] at there

/-- In every run in which creators are alone, call initSharedRegion for the first time in their
    process, and are waited for, a region is initialised once, before it is used. -/
theorem inits_first_once {layout : Layout} {s : State}
    (reached : (machine layout).ReachableBy InitsFirst s) : InitialisedOnce s := by
  have orderly : Orderly s := by
    apply invariant_of_steps Orderly _ _ reached
    · rintro s rfl
      exact initial_orderly
    · intro s a t orderly keeps move
      cases step_stepped move with
      | construct => exact construct_orderly orderly
      | advance thread moved => exact advanced_orderly orderly thread keeps moved
  refine ⟨fun o => ⟨(orderly.objects o).once, (orderly.objects o).done⟩,
    fun o => (orderly.objects o).locked, ?_⟩
  intro v first w second inside counted same
  obtain ⟨i, there⟩ := List.mem_iff_getElem?.mp first
  obtain ⟨j, there'⟩ := List.mem_iff_getElem?.mp second
  have none_done := ((orderly.phases i v there).during inside).2
  have done := (orderly.phases j w there').after (by simp [afterInit, counted])
  rw [same, done] at none_done
  exact absurd none_done (by decide)

def waitedFor : List Action :=
  .construct 5 "/a" 0 :: List.replicate 8 (.advance 0) ++
    .construct 6 "/b" 0 :: List.replicate 10 (.advance 1) ++
    List.replicate 4 (.advance 0) ++ List.replicate 2 (.advance 1) ++
    List.replicate 3 (.advance 0) ++ List.replicate 5 (.advance 1) ++
    .construct 7 "/a" 0 :: List.replicate 10 (.advance 2)

theorem waited_for_once : ∃ s, (machine smallLayout).runBy
    (fun s a => decide (InitsFirst s a)) initial waitedFor = some s ∧
      (s.instances.any fun w => decide (w.pos = .live)) = true ∧ InitialisedOnce s := by
  obtain ⟨s, executed, live, reached⟩ := guarded_shows (m := machine smallLayout) (s := initial)
    InitsFirst waitedFor rfl
    (fun s : State => s.instances.any fun w : Instance => decide (w.pos = .live)) (by decide +kernel)
  exact ⟨s, executed, live, inits_first_once reached⟩

end SharedInitOnce
