import FJUtility.Library.AgentList
import FJUtility.SharedMem.Attach

/- Which object the live instances share. initialized_ counts the registered instances only, and
   the name of the region is removed after mutex_ is released: an instance that is between
   opening the region and its registration is in neither. -/
namespace SharedOneRegion
open LabelledMachine AgentList SharedAttach

/-- Instances between their constructor and their destructor share the object with the name. -/
def OneRegion (s : State) : Prop :=
  ∀ v ∈ s.instances, ∀ w ∈ s.instances, v.pos = .live → w.pos = .live →
    v.region = w.region ∧ s.names regionName = some v.region

/-- Process 6 has opened the region when process 5 destroys the only registered instance. -/
def leftWhileOpening : List Action :=
  .construct 5 "/a" 0 :: List.replicate 12 (.advance 0) ++
    .construct 6 "/b" 0 :: List.replicate 7 (.advance 1) ++
    List.replicate 5 (.advance 0) ++ [.advance 1]

theorem left_while_opening_unlinks :
    ¬ ∀ layout s, (machine layout).Reachable s → OneRegion s := by
  intro always
  obtain ⟨s, reached, shown⟩ := run_shows (m := machine smallLayout) leftWhileOpening
    (s := initial) rfl
    (fun s : State => s.instances.any fun w : Instance =>
      decide (w.pos = .live) && decide (s.names regionName = none)) (by decide +kernel)
  simp only [List.any_eq_true, Bool.and_eq_true, decide_eq_true_eq] at shown
  obtain ⟨w, member, live, unnamed⟩ := shown
  have named := (always smallLayout s reached w member w member live live).2
  simp [unnamed] at named

def constructs : InstancePos → Bool
  | .truncating | .mapping | .openingUser | .creatingUser | .truncatingUser | .mappingUser
  | .entering | .clearing | .resetting | .waiting _ | .registering => true
  | _ => false

def unlinks : InstancePos → Bool
  | .unmapping isUnlink => isUnlink
  | .unlinkingUser | .unlinking => true
  | _ => false

/-- The region is opened or created between the last count and the removal of its name, the last
    count finds a constructor at work on the region, initialized_ is reset while it counts
    instances, or it overflows. -/
def splits (s : State) : Action → Bool
  | .construct .. => false
  | .advance i => s.instances[i]?.any fun w =>
    let initialized := (s.objects w.region).initialized
    match w.pos with
    | .opening => (s.names regionName).isSome && s.instances.any fun u => unlinks u.pos
    | .creating => s.instances.any fun u => unlinks u.pos
    | .resetting => decide (initialized ≠ 0)
    | .registering => decide (2 ^ 32 ≤ initialized + 1)
    | .leaving => decide (initialized = 1) && s.instances.any fun u => constructs u.pos
    | _ => false

def KeepsRegion (s : State) (a : Action) : Prop := splits s a = false

instance (s : State) (a : Action) : Decidable (KeepsRegion s a) :=
  inferInstanceAs (Decidable (_ = _))

def attaches (pos : InstancePos) : Bool := constructs pos || counts pos

def countedIn (o : Nat) (w : Instance) : Bool := counts w.pos && decide (w.region = o)

def registeredIn (o : Nat) (s : State) : Nat := s.instances.countP (countedIn o)

def Named (s : State) : Prop :=
  ∀ name o, s.names name = some o → o < s.made ∧ (s.objects o).name = name

theorem name_write {s : State} {o : Nat} {x : ShmObject} (same : x.name = (s.objects o).name) :
    ∀ o', ((writeObject o x s).objects o').name = (s.objects o').name :=
  forall_write (p := fun o' y => y.name = (s.objects o').name) same fun _ _ => rfl

theorem named_write {s : State} (named : Named s) (o : Nat) {x : ShmObject}
    (same : x.name = (s.objects o).name) : Named (writeObject o x s) := by
  intro name o' bound
  obtain ⟨made, created⟩ := named name o' bound
  exact ⟨made, (name_write same o').trans created⟩

theorem named_new {s : State} (named : Named s) (name : String) : Named (newlyNamed name s) := by
  intro name' o bound
  by_cases here : name' = name
  · subst here
    simp only [newlyNamed, Function.update_self, Option.some.injEq] at bound
    subst bound
    exact ⟨Nat.lt_succ_self _, by simp [newlyNamed, newObject]⟩
  · simp only [newlyNamed, Function.update_of_ne here] at bound
    obtain ⟨made, created⟩ := named name' o bound
    refine ⟨Nat.lt_succ_of_lt made, ?_⟩
    simp only [newlyNamed, Function.update_of_ne (Nat.ne_of_lt made), created]

theorem named_unlink {s : State} (named : Named s) (name : String) : Named (shmUnlink name s) := by
  intro name' o bound
  by_cases here : name' = name
  · subst here
    simp [shmUnlink] at bound
  · simp only [shmUnlink, Function.update_of_ne here] at bound
    exact named name' o bound

theorem step_named {layout : Layout} {s t : State} {a : Action} (named : Named s)
    (stepped : Stepped layout s a t) : Named t := by
  cases stepped with
  | construct => exact named
  | @advance i w t thread moved =>
    cases moved with
    | created | createdUser => exact named_new named _
    | truncated | truncatedUser | entered | reset | registered | began | released =>
      exact named_write named _ rfl
    | unlinkedUser | unlinked => exact named_unlink named _
    | _ => exact named

/-- The objects in use: no constructor or registered instance is apart from the name, and none is
    there while the name is to be removed. -/
structure Attached (s : State) : Prop where
  linked : ∀ w ∈ s.instances, attaches w.pos = true → s.names regionName = some w.region
  alone : ∀ u ∈ s.instances, unlinks u.pos = true →
    ∀ w ∈ s.instances, attaches w.pos = false

structure Covered (s : State) (v : Instance) : Prop where
  relies : attaches v.pos = true →
    ∃ u ∈ s.instances, attaches u.pos = true ∧ u.region = v.region
  removes : unlinks v.pos = true → ∃ u ∈ s.instances, unlinks u.pos = true

theorem covered_self {s : State} {v : Instance} (member : v ∈ s.instances) : Covered s v :=
  ⟨fun relies => ⟨v, member, relies, rfl⟩, fun removes => ⟨v, member, removes⟩⟩

theorem covered_place {s u : State} {i : Nat} {w' : Instance} (same : u.instances = s.instances)
    (covered : Covered s w') : ∀ v ∈ (place i w' u).instances, Covered s v := by
  intro v member
  rcases mem_place member with rfl | old
  · exact covered
  · exact covered_self (same ▸ old)

theorem covered_next {s : State} {i : Nat} {w w' : Instance} (thread : s.instances[i]? = some w)
    (region : w'.region = w.region) (relies : attaches w'.pos = true → attaches w.pos = true)
    (removes : unlinks w'.pos = true → unlinks w.pos = true) : Covered s w' :=
  ⟨fun holds => ⟨w, List.mem_of_getElem? thread, relies holds, region.symm⟩,
    fun goes => ⟨w, List.mem_of_getElem? thread, removes goes⟩⟩

theorem attached_covered {s t : State} (attached : Attached s)
    (names : t.names regionName = s.names regionName)
    (covered : ∀ v ∈ t.instances, Covered s v) : Attached t where
  linked v member holds := by
    obtain ⟨u, old, relies, region⟩ := (covered v member).relies holds
    rw [names, attached.linked u old relies, region]
  alone u member goes w other := by
    obtain ⟨u', old, removes⟩ := (covered u member).removes goes
    apply Bool.eq_false_iff.mpr
    intro holds
    obtain ⟨w', old', relies, _⟩ := (covered w other).relies holds
    exact absurd relies (Bool.eq_false_iff.mp (attached.alone u' old removes w' old'))

theorem attached_opened {s t : State} {i o : Nat} {w' : Instance} (attached : Attached s)
    (none_unlinks : ∀ u ∈ s.instances, unlinks u.pos = false)
    (instances : t.instances = s.instances.set i w') (named : t.names regionName = some o)
    (region : w'.region = o) (stays : unlinks w'.pos = false)
    (same : ∀ o', s.names regionName = some o' → o' = o) : Attached t := by
  have placed : ∀ v ∈ t.instances, v = w' ∨ v ∈ s.instances := by
    intro v member
    rw [instances] at member
    exact (List.mem_or_eq_of_mem_set member).symm
  refine ⟨fun v member holds => ?_, fun u member goes => ?_⟩
  · rcases placed v member with rfl | old
    · rw [named, region]
    · rw [named, same _ (attached.linked v old holds)]
  · rcases placed u member with rfl | old
    · simp [stays] at goes
    · simp [none_unlinks u old] at goes

def Counted (s : State) : Prop :=
  ∀ o, s.names regionName = some o →
    (s.objects o).initialized = registeredIn o s ∧ (s.objects o).initialized < 2 ^ 32

theorem registeredIn_set {s t : State} {i : Nat} {w w' : Instance}
    (thread : s.instances[i]? = some w) (instances : t.instances = s.instances.set i w') (o : Nat) :
    registeredIn o t + (if countedIn o w then 1 else 0) =
      registeredIn o s + if countedIn o w' then 1 else 0 := by
  unfold registeredIn
  rw [instances]
  exact countP_set_at (countedIn o) thread w'

theorem registeredIn_same {s t : State} {i o : Nat} {w w' : Instance}
    (thread : s.instances[i]? = some w) (instances : t.instances = s.instances.set i w')
    (same : countedIn o w' = countedIn o w) : registeredIn o t = registeredIn o s := by
  have total := registeredIn_set thread instances o
  rw [same] at total
  omega

theorem registeredIn_bystander {s u : State} {i : Nat} {w w' : Instance}
    (thread : s.instances[i]? = some w) (instances : u.instances = s.instances)
    (before : counts w.pos = false) (after : counts w'.pos = false) (o : Nat) :
    registeredIn o (place i w' u) = registeredIn o s := by
  apply registeredIn_same thread (by rw [place, instances])
  simp only [countedIn, before, after, Bool.false_and]

theorem registeredIn_construct (s : State) (o pid bytes : Nat) (shmName : String) :
    registeredIn o { s with
      instances := s.instances ++ [⟨pid, shmName, bytes, 0, 0, false, .opening⟩] } =
      registeredIn o s := by
  simp only [registeredIn, List.countP_append]
  rfl

theorem counted_same {s t : State} (counted : Counted s)
    (names : t.names regionName = s.names regionName)
    (objects : ∀ o, s.names regionName = some o →
      (t.objects o).initialized = (s.objects o).initialized)
    (same : ∀ o, registeredIn o t = registeredIn o s) : Counted t := by
  intro o bound
  rw [names] at bound
  rw [objects o bound, same]
  exact counted o bound

theorem initialized_write {s : State} {o : Nat} {x : ShmObject}
    (keeps : s.names regionName = some o → x.initialized = (s.objects o).initialized) :
    ∀ o', s.names regionName = some o' →
      ((writeObject o x s).objects o').initialized = (s.objects o').initialized :=
  forall_write (p := fun o' y =>
    s.names regionName = some o' → y.initialized = (s.objects o').initialized)
      keeps fun _ _ _ => rfl

def UserApart (s : State) (w : Instance) : Prop :=
  (w.pos = .creatingUser → w.shmName ≠ regionName) ∧
    (w.pos = .truncatingUser → w.user < s.made ∧ (s.objects w.user).name ≠ regionName)

structure Linked (s : State) : Prop where
  named : Named s
  attached : Attached s
  counted : Counted s
  users : ∀ w ∈ s.instances, UserApart s w

theorem userApart_kept {s t : State} {w : Instance} (made : s.made ≤ t.made)
    (objects : ∀ o, o < s.made → (t.objects o).name = (s.objects o).name)
    (apart : UserApart s w) : UserApart t w := by
  refine ⟨apart.1, fun here => ?_⟩
  obtain ⟨bound, other⟩ := apart.2 here
  exact ⟨Nat.lt_of_lt_of_le bound made, by rwa [objects _ bound]⟩

theorem name_new {s : State} {name : String} {o : Nat} (made : o < s.made) :
    (newlyNamed name s).objects o = s.objects o := by
  simp only [newlyNamed, Function.update_of_ne (Nat.ne_of_lt made)]

theorem step_objects {layout : Layout} {s t : State} {a : Action} (stepped : Stepped layout s a t) :
    s.made ≤ t.made ∧ ∀ o, o < s.made → (t.objects o).name = (s.objects o).name := by
  cases stepped with
  | construct => exact ⟨Nat.le_refl _, fun _ _ => rfl⟩
  | @advance i w t thread moved =>
    cases moved with
    | created | createdUser =>
      exact ⟨Nat.le_succ _, fun o made => congrArg ShmObject.name (name_new made)⟩
    | truncated | truncatedUser | entered | reset | registered | began | released =>
      exact ⟨Nat.le_refl _, fun o _ => name_write (by rfl) o⟩
    | _ => exact ⟨Nat.le_refl _, fun _ _ => rfl⟩

theorem crash_countedIn (pid o : Nat) (w : Instance) : countedIn o (w.crash pid) = countedIn o w := by
  rcases crash_cases pid w with same | gone
  · rw [same]
  · simp only [gone, countedIn, counts]

theorem registeredIn_crash (s : State) (o pid : Nat) :
    registeredIn o { s with instances := s.instances.map (Instance.crash pid) } =
      registeredIn o s := by
  simp only [registeredIn, List.countP_map]
  exact List.countP_congr fun v _ => by simp [crash_countedIn]

theorem step_users {layout : Layout} {s t : State} {a : Action} (linked : Linked s)
    (stepped : Stepped layout s a t) : ∀ w ∈ t.instances, UserApart t w := by
  obtain ⟨made, objects⟩ := step_objects stepped
  have kept : ∀ w ∈ s.instances, UserApart t w := fun w member =>
    userApart_kept made objects (linked.users w member)
  have plain : ∀ w : Instance, w.pos ≠ .creatingUser → w.pos ≠ .truncatingUser → UserApart t w :=
    fun w no not => ⟨fun here => absurd here no, fun here => absurd here not⟩
  cases stepped with
  | construct =>
    exact List.forall_mem_append.mpr
      ⟨kept, List.forall_mem_singleton.mpr (plain _ (by simp) (by simp))⟩
  | @advance i w t thread moved =>
    have old := List.mem_of_getElem? thread
    cases moved with
    | missingUser here unbound =>
      apply forall_place kept
      refine ⟨fun _ same => ?_, by simp⟩
      have bound := linked.attached.linked w old (by simp [attaches, constructs, here])
      simp only at same
      simp [same, bound] at unbound
    | sharedUser here bound =>
      apply forall_place kept
      refine ⟨by simp, fun _ => ?_⟩
      obtain ⟨created, name⟩ := linked.named _ _ bound
      refine ⟨created, ?_⟩
      simp only [place, name]
      exact (linked.users w old).1 here
    | createdUser here unbound =>
      apply forall_place kept
      refine ⟨by simp, fun _ => ⟨Nat.lt_succ_self _, ?_⟩⟩
      simp only [place, newlyNamed, Function.update_self, newObject]
      exact (linked.users w old).1 here
    | crashed =>
      apply forall_crash kept
      exact fun v _ => plain _ (by simp) (by simp)
    | mappedUser here | unmapped here =>
      apply forall_place kept
      exact plain _ (by dsimp only; split <;> simp) (by dsimp only; split <;> simp)
    | _ =>
      apply forall_place kept
      exact plain _ (by simp) (by simp)

theorem covered_crash {s : State} {pid : Nat} {v : Instance}
    (member : v ∈ s.instances.map (Instance.crash pid)) : Covered s v := by
  obtain ⟨u, old, rfl⟩ := List.mem_map.mp member
  rcases crash_cases pid u with same | gone
  · rw [same]
    exact covered_self old
  · rw [gone]
    refine ⟨fun relies => ⟨u, old, ?_, rfl⟩, fun goes => by simp [unlinks] at goes⟩
    exact Bool.or_eq_true_iff.mpr (Or.inr relies)

theorem unbound_counts_none {s : State} (attached : Attached s)
    (unbound : s.names regionName = none) (o : Nat) : registeredIn o s = 0 := by
  apply List.countP_eq_zero.mpr
  intro v member holds
  simp only [countedIn, Bool.and_eq_true] at holds
  have relies : attaches v.pos = true := by simp [attaches, holds.1]
  simp [attached.linked v member relies] at unbound

theorem apart_write {s : State} {w : Instance} {x : ShmObject} (named : Named s)
    (apart : (s.objects w.user).name ≠ regionName) : ∀ o, s.names regionName = some o →
      ((writeObject w.user x s).objects o).initialized = (s.objects o).initialized := by
  apply initialized_write
  intro bound
  exact absurd (named _ _ bound).2 apart

theorem up_one {n : Nat} (room : n + 1 < 2 ^ 32) : (n + 1) % 2 ^ 32 = n + 1 :=
  Nat.mod_eq_of_lt room

theorem down_one {n : Nat} (bound : n < 2 ^ 32) (some_ : 0 < n) :
    (n + 2 ^ 32 - 1) % 2 ^ 32 = n - 1 := by
  rw [Nat.sub_add_comm some_, Nat.add_mod_right]
  exact Nat.mod_eq_of_lt (by omega)

theorem registeredIn_locked {s : State} {i n : Nat} {w w' : Instance}
    (number : (s.objects w.region).initialized = registeredIn w.region s)
    (thread : s.instances[i]? = some w) (region : w'.region = w.region)
    (moves : n + (if counts w.pos then 1 else 0) =
      (s.objects w.region).initialized + if counts w'.pos then 1 else 0) :
    registeredIn w.region (place i w' s) = n := by
  have total := registeredIn_set (t := place i w' s) thread rfl w.region
  simp only [countedIn, region, decide_true, Bool.and_true] at total
  omega

theorem counted_locked {s : State} {i n : Nat} {w w' : Instance} (counted : Counted s)
    (thread : s.instances[i]? = some w) (linked : s.names regionName = some w.region)
    (region : w'.region = w.region)
    (moves : n + (if counts w.pos then 1 else 0) =
      (s.objects w.region).initialized + if counts w'.pos then 1 else 0)
    (bound : n < 2 ^ 32) :
    Counted (place i w' (writeObject w.region (lockedWith n (s.objects w.region)) s)) := by
  intro o named
  have same : w.region = o := Option.some.inj (linked.symm.trans named)
  subst same
  have number := registeredIn_locked (counted _ linked).1 thread region moves
  simp only [place, writeObject, Function.update_self, lockedWith]
  exact ⟨number.symm, bound⟩

theorem counted_present {s : State} {w : Instance} (counted : Counted s) (old : w ∈ s.instances)
    (linked : s.names regionName = some w.region) (registered : counts w.pos = true) :
    0 < (s.objects w.region).initialized := by
  rw [(counted _ linked).1]
  exact List.countP_pos_iff.mpr ⟨w, old, by simp [countedIn, registered]⟩

theorem step_counted {layout : Layout} {s t : State} {a : Action} (linked : Linked s)
    (keeps : KeepsRegion s a) (stepped : Stepped layout s a t) : Counted t := by
  obtain ⟨named, attached, counted, users⟩ := linked
  cases stepped with
  | construct =>
    exact counted_same counted rfl (fun _ _ => rfl) fun o => registeredIn_construct s o _ _ _
  | @advance i w t thread moved =>
    have old := List.mem_of_getElem? thread
    simp only [KeepsRegion, splits, thread, Option.any_some] at keeps
    cases moved with
    | found here | missing here | shared here | mapped here | foundUser here | missingUser here
    | sharedUser here | skipped here | cleared here | polled here | ready here | timedOut here =>
      exact counted_same counted rfl (fun _ _ => rfl)
        (registeredIn_bystander thread rfl (by simp [here, counts]) rfl)
    | mappedUser here | unmapped here =>
      refine counted_same counted rfl (fun _ _ => rfl)
        (registeredIn_bystander thread rfl (by simp [here, counts]) ?_)
      dsimp only
      split <;> rfl
    | created here unbound =>
      intro o bound
      simp only [place, newlyNamed, Function.update_self, Option.some.injEq] at bound
      subst bound
      have total : registeredIn s.made (place i { w with
          region := s.made, isCreate := true, pos := .truncating } (newlyNamed regionName s)) = _ :=
        registeredIn_bystander thread rfl (by simp [here, counts]) rfl s.made
      rw [total, unbound_counts_none attached unbound]
      simp [place, newlyNamed, newObject]
    | truncated here =>
      exact counted_same counted rfl (initialized_write fun _ => ftruncate_region _ _)
        (registeredIn_bystander thread rfl (by simp [here, counts]) rfl)
    | createdUser here unbound =>
      have other := (users w old).1 here
      refine counted_same counted ?_ (fun o bound => ?_)
        (registeredIn_bystander thread rfl (by simp [here, counts]) rfl)
      · simp only [place, newlyNamed, Function.update_of_ne (Ne.symm other)]
      · exact congrArg ShmObject.initialized (name_new (named _ _ bound).1)
    | truncatedUser here =>
      exact counted_same counted rfl (apart_write named ((users w old).2 here).2)
        (registeredIn_bystander thread rfl (by simp [here, counts]) rfl)
    | entered here first =>
      exact counted_same counted rfl (initialized_write fun _ => rfl)
        (registeredIn_bystander thread rfl (by simp [here, counts]) rfl)
    | reset here =>
      simp only [here, decide_eq_false_iff_not, ne_eq, Classical.not_not] at keeps
      exact counted_same counted rfl (initialized_write fun _ => keeps.symm)
        (registeredIn_bystander thread rfl (by simp [here, counts]) rfl)
    | registered here =>
      have linked := attached.linked w old (by simp [attaches, constructs, here])
      simp only [here, decide_eq_false_iff_not, Nat.not_le] at keeps
      refine counted_locked counted thread linked rfl ?_ (Nat.mod_lt _ (by decide))
      simp only [up_one keeps, counts, here, Bool.false_eq_true, reduceIte, Nat.add_zero]
    | began here =>
      have linked := attached.linked w old (by simp [attaches, counts, here])
      exact counted_locked counted thread linked rfl (by simp [counts, here]) (counted _ linked).2
    | released here down =>
      have linked := attached.linked w old (by simp [attaches, counts, here])
      have present := counted_present counted old linked (by simp [counts, here])
      refine counted_locked counted thread linked rfl ?_ (down ▸ Nat.mod_lt _ (by decide))
      simp only [down, down_one (counted _ linked).2 present, counts, here, Bool.false_eq_true,
        reduceIte]
      omega
    | unlinkedUser here =>
      by_cases own : w.shmName = regionName
      · intro o bound
        simp [place, shmUnlink, own] at bound
      · refine counted_same counted ?_ (fun _ _ => rfl)
          (registeredIn_bystander thread rfl (by simp [here, counts]) rfl)
        simp only [place, shmUnlink, Function.update_of_ne (Ne.symm own)]
    | unlinked here =>
      intro o bound
      simp [place, shmUnlink] at bound
    | crashed =>
      exact counted_same counted rfl (fun _ _ => rfl) fun o => registeredIn_crash s o w.pid

/-- The last count finds nobody left who relies on the region. -/
theorem released_alone {s t : State} {i : Nat} {w w' : Instance} (attached : Attached s)
    (thread : s.instances[i]? = some w) (instances : t.instances = s.instances.set i w')
    (gone : attaches w'.pos = false) (none_constructs : ∀ v ∈ s.instances, constructs v.pos = false)
    (relies : attaches w.pos = true) (last : registeredIn w.region t = 0) :
    ∀ v ∈ t.instances, attaches v.pos = false := by
  intro v member
  have uncounted := List.countP_eq_zero.mp last v member
  rw [instances] at member
  rcases List.mem_or_eq_of_mem_set member with old | rfl
  · refine Bool.eq_false_iff.mpr fun holds => uncounted ?_
    have same := (attached.linked v old holds).symm.trans
      (attached.linked w (List.mem_of_getElem? thread) relies)
    simp only [attaches, none_constructs v old, Bool.false_or] at holds
    simp [countedIn, holds, Option.some.inj same]
  · exact gone

theorem step_attached {layout : Layout} {s t : State} {a : Action} (linked : Linked s)
    (keeps : KeepsRegion s a) (stepped : Stepped layout s a t) : Attached t := by
  have counted := step_counted linked keeps stepped
  obtain ⟨named, attached, before, users⟩ := linked
  cases stepped with
  | construct =>
    refine attached_covered attached rfl fun v member => ?_
    rcases List.mem_append.mp member with old | new
    · exact covered_self old
    · rw [List.mem_singleton.mp new]
      exact ⟨fun relies => by simp [attaches, constructs, counts] at relies,
        fun goes => by simp [unlinks] at goes⟩
  | @advance i w t thread moved =>
    have old := List.mem_of_getElem? thread
    simp only [KeepsRegion, splits, thread, Option.any_some] at keeps
    have kept : ∀ {w' : Instance} {u : State}, u.instances = s.instances →
        u.names regionName = s.names regionName → w'.region = w.region →
        (attaches w'.pos = true → attaches w.pos = true) →
        (unlinks w'.pos = true → unlinks w.pos = true) → Attached (place i w' u) := by
      intro w' u instances names region relies goes
      exact attached_covered attached names
        (covered_place instances (covered_next thread region relies goes))
    have none_relies : unlinks w.pos = true → ∀ {w' : Instance} {u : State},
        u.instances = s.instances → attaches w'.pos = false → Attached (place i w' u) := by
      intro goes w' u instances gone
      have alone : ∀ v ∈ (place i w' u).instances, attaches v.pos = false := by
        intro v member
        rcases mem_place member with rfl | older
        · exact gone
        · exact attached.alone w old goes v (instances ▸ older)
      exact ⟨fun v member holds => by simp [alone v member] at holds, fun _ _ _ => alone⟩
    cases moved with
    | found here bound =>
      refine attached_opened attached ?_ rfl bound rfl rfl fun o' bound' => ?_
      · simpa [here, bound] using keeps
      · exact Option.some.inj (bound'.symm.trans bound)
    | shared here bound =>
      refine attached_opened attached ?_ rfl bound rfl rfl fun o' bound' => ?_
      · simpa [here] using keeps
      · exact Option.some.inj (bound'.symm.trans bound)
    | created here unbound =>
      refine attached_opened (o := s.made) attached ?_ rfl ?_ rfl rfl fun o' bound' => ?_
      · simpa [here] using keeps
      · simp [place, newlyNamed]
      · simp [unbound] at bound'
    | @released initialized here down =>
      have relies : attaches w.pos = true := by simp [attaches, counts, here]
      have bound := attached.linked w old relies
      by_cases zero : initialized = 0
      · have present := counted_present before old bound (by simp [counts, here])
        rw [down_one (before _ bound).2 present] at down
        have one : (s.objects w.region).initialized = 1 := by omega
        have none_left := (counted _ bound).1
        simp only [place, writeObject, Function.update_self, lockedWith, zero] at none_left
        simp only [here, one, decide_true, Bool.true_and, List.any_eq_false,
          Bool.not_eq_true] at keeps
        have alone := released_alone attached thread rfl rfl keeps relies none_left.symm
        simp only [zero] at alone ⊢
        exact ⟨fun v member holds => by simp [alone v member] at holds, fun _ _ _ => alone⟩
      · exact kept rfl rfl rfl (fun _ => relies) (by simp [unlinks, zero])
    | createdUser here unbound =>
      have other := (users w old).1 here
      refine kept rfl ?_ rfl (by simp [attaches, constructs, here]) (by simp [unlinks])
      simp only [newlyNamed, Function.update_of_ne (Ne.symm other)]
    | unlinkedUser here | unlinked here =>
      exact none_relies (by simp [unlinks, here]) rfl rfl
    | crashed => exact attached_covered attached rfl fun v member => covered_crash member
    | mappedUser here =>
      refine kept rfl rfl rfl (fun _ => by simp [attaches, constructs, here]) ?_
      dsimp only
      split <;> simp [unlinks]
    | @unmapped isUnlink here =>
      cases isUnlink with
      | false => exact kept rfl rfl rfl (by simp [attaches, constructs, counts]) (by simp [unlinks])
      | true => exact none_relies (by simp [unlinks, here]) rfl rfl
    | missing here | truncated here | mapped here | foundUser here | missingUser here
    | sharedUser here | truncatedUser here | skipped here | entered here | cleared here
    | reset here | polled here | ready here | timedOut here | registered here | began here =>
      exact kept rfl rfl rfl (by simp [attaches, constructs, counts, here]) (by simp [unlinks])

theorem initial_linked : Linked initial where
  named name o bound := by simp [initial] at bound
  attached := ⟨fun w member => by simp [initial] at member,
    fun w member => by simp [initial] at member⟩
  counted o bound := by simp [initial] at bound
  users w member := by simp [initial] at member

/-- In every run whose steps keep the region, all live instances share the object that has the
    region's name. -/
theorem kept_region_shared {layout : Layout} {s : State}
    (reached : (machine layout).ReachableBy KeepsRegion s) : OneRegion s := by
  have linked : Linked s := by
    apply invariant_of_steps Linked _ _ reached
    · rintro s rfl
      exact initial_linked
    · intro s a t linked keeps move
      have stepped := step_stepped move
      exact ⟨step_named linked.named stepped, step_attached linked keeps stepped,
        step_counted linked keeps stepped, step_users linked stepped⟩
  intro v first w second live live'
  have here := linked.attached.linked v first (by simp [live, attaches, counts])
  have there := linked.attached.linked w second (by simp [live', attaches, counts])
  exact ⟨Option.some.inj (here.symm.trans there), here⟩

def leftInTurn : List Action :=
  .construct 5 "/a" 0 :: List.replicate 12 (.advance 0) ++
    .construct 6 "/b" 0 :: List.replicate 8 (.advance 1) ++
    List.replicate 3 (.advance 0) ++ List.replicate 5 (.advance 1) ++
    .construct 6 "/b" 0 :: List.replicate 12 (.advance 2)

theorem left_in_turn_shared : ∃ s, (machine smallLayout).runBy
    (fun s a => decide (KeepsRegion s a)) initial leftInTurn = some s ∧
      (s.instances.any fun w => decide (w.pos = .live)) = true ∧ OneRegion s := by
  obtain ⟨s, executed, live, reached⟩ := guarded_shows (m := machine smallLayout) (s := initial)
    KeepsRegion leftInTurn rfl
    (fun s : State => s.instances.any fun w : Instance => decide (w.pos = .live)) (by decide +kernel)
  exact ⟨s, executed, live, kept_region_shared reached⟩

end SharedOneRegion
