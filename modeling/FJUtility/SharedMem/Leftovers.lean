import FJUtility.SharedMem.Mappings

/- Which names are left when every instance is destroyed. A constructor creates an object for its
   own shm_name, but initialized_ counts the instances of all names together, and only the
   destructor that counts to zero removes names: its own and the region's. -/
namespace SharedLeftovers
open LabelledMachine AgentList SharedAttach SharedOneRegion SharedMappings

def LeavesNothing (s : State) : Prop :=
  (∀ w ∈ s.instances, w.pos = .destroyed) → ∀ name, s.names name = none

def leftByName : List Action :=
  .construct 5 "/a" 0 :: List.replicate 12 (.advance 0) ++
    .construct 6 "/b" 0 :: List.replicate 8 (.advance 1) ++
    List.replicate 3 (.advance 0) ++ List.replicate 5 (.advance 1)

theorem left_by_name_stays : ¬ ∀ layout s, (machine layout).Reachable s → LeavesNothing s := by
  intro always
  obtain ⟨s, reached, shown⟩ := run_shows (m := machine smallLayout) leftByName
    (s := initial) rfl
    (fun s : State => (s.instances.all fun w : Instance => decide (w.pos = .destroyed)) &&
      decide (s.names "/a" ≠ none)) (by decide +kernel)
  simp only [Bool.and_eq_true, List.all_eq_true, decide_eq_true_eq] at shown
  exact shown.2 (always smallLayout s reached shown.1 "/a")

def stays : InstancePos → Bool
  | .unmapping _ | .unlinkingUser | .unlinking | .destroyed => false
  | _ => true

def removes (name : String) (w : Instance) : Bool :=
  match w.pos with
  | .unmapping true | .unlinkingUser => decide (name = w.shmName) || decide (name = regionName)
  | .unlinking => decide (name = regionName)
  | _ => false

def others (i : Nat) (s : State) : List Instance := s.instances.eraseIdx i

/-- The name is an object's, and neither w nor another destructor is to remove it when w, the
    instance i, counts to zero. -/
def abandoned (i : Nat) (w : Instance) (s : State) (name : String) : Bool :=
  (s.names name).isSome && decide (name ≠ w.shmName) && decide (name ≠ regionName) &&
    !(others i s).any (removes name)

/-- The last instance is counted out while the name of another one is an object's, or initialized_
    is reset while it counts instances, or it overflows. -/
def strands (s : State) : Action → Bool
  | .construct .. => false
  | .advance i => s.instances[i]?.any fun w =>
    match w.pos with
    | .truncatingUser => decide (w.extraSize < 4) && decide ((s.objects w.user).initialized ≠ 0)
    | .resetting => decide ((s.objects w.region).initialized ≠ 0)
    | .registering => decide (2 ^ 32 ≤ (s.objects w.region).initialized + 1)
    | .leaving => !(others i s).any (fun u => stays u.pos) &&
      s.instances.any fun u => abandoned i w s u.shmName
    | _ => false

def ClearsNames (s : State) (a : Action) : Prop := strands s a = false

instance (s : State) (a : Action) : Decidable (ClearsNames s a) :=
  inferInstanceAs (Decidable (_ = _))

def Tallied (s : State) : Prop :=
  ∀ o, (s.objects o).initialized = registeredIn o s ∧ (s.objects o).initialized < 2 ^ 32

theorem tallied_same {s t : State} (tallied : Tallied s)
    (objects : ∀ o, (t.objects o).initialized = (s.objects o).initialized)
    (same : ∀ o, registeredIn o t = registeredIn o s) : Tallied t := by
  intro o
  rw [objects, same]
  exact tallied o

theorem initialized_kept {s : State} {o : Nat} {x : ShmObject}
    (keeps : x.initialized = (s.objects o).initialized) :
    ∀ o', ((writeObject o x s).objects o').initialized = (s.objects o').initialized :=
  forall_write (p := fun o' y => y.initialized = (s.objects o').initialized) keeps fun _ _ => rfl

theorem unmade_counts_none {s : State} (placed : ∀ w ∈ s.instances, Placed s w) :
    registeredIn s.made s = 0 := by
  apply List.countP_eq_zero.mpr
  intro v member holds
  simp only [countedIn, Bool.and_eq_true, decide_eq_true_eq] at holds
  have made := (placed v member).region (counts_opened holds.1)
  omega

theorem tallied_new {s : State} (tallied : Tallied s) (placed : ∀ w ∈ s.instances, Placed s w)
    (name : String) : ∀ o, ((newlyNamed name s).objects o).initialized = (s.objects o).initialized :=
  forall_new (p := fun o y => y.initialized = (s.objects o).initialized)
    ((tallied s.made).1.trans (unmade_counts_none placed)).symm fun _ _ => rfl

theorem tallied_locked {s : State} {i n : Nat} {w w' : Instance} (tallied : Tallied s)
    (thread : s.instances[i]? = some w) (region : w'.region = w.region)
    (moves : n + (if counts w.pos then 1 else 0) =
      (s.objects w.region).initialized + if counts w'.pos then 1 else 0)
    (bound : n < 2 ^ 32) :
    Tallied (place i w' (writeObject w.region (lockedWith n (s.objects w.region)) s)) := by
  intro o
  by_cases here : w.region = o
  · subst here
    have number := registeredIn_locked (tallied _).1 thread region moves
    simp only [place, writeObject, Function.update_self, lockedWith]
    exact ⟨number.symm, bound⟩
  · have number : registeredIn o (place i w' s) = registeredIn o s :=
      registeredIn_same thread rfl (by simp [countedIn, region, here])
    simp only [place, writeObject, Function.update_of_ne (Ne.symm here)]
    exact ⟨(tallied o).1.trans number.symm, (tallied o).2⟩

theorem step_tallied {layout : Layout} {s t : State} {a : Action} (tallied : Tallied s)
    (placed : ∀ w ∈ s.instances, Placed s w) (clears : ClearsNames s a)
    (stepped : Stepped layout s a t) : Tallied t := by
  cases stepped with
  | construct =>
    exact tallied_same tallied (fun _ => rfl) fun o => registeredIn_construct s o _ _ _
  | @advance i w t thread moved =>
    have old := List.mem_of_getElem? thread
    simp only [ClearsNames, strands, thread, Option.any_some] at clears
    cases moved with
    | created here unbound | createdUser here unbound =>
      exact tallied_same tallied (tallied_new tallied placed _)
        (registeredIn_bystander thread rfl (by simp [here, counts]) rfl)
    | truncated here =>
      exact tallied_same tallied (initialized_kept (ftruncate_region _ _))
        (registeredIn_bystander thread rfl (by simp [here, counts]) rfl)
    | truncatedUser here =>
      refine tallied_same tallied (initialized_kept ?_)
        (registeredIn_bystander thread rfl (by simp [here, counts]) rfl)
      simp only [here, Bool.and_eq_false_iff, decide_eq_false_iff_not, ne_eq,
        Classical.not_not] at clears
      unfold ftruncate
      split
      · rename_i short
        exact (clears.resolve_left (fun long => long short)).symm
      · rfl
    | entered here first =>
      exact tallied_same tallied (initialized_kept rfl)
        (registeredIn_bystander thread rfl (by simp [here, counts]) rfl)
    | reset here =>
      simp only [here, decide_eq_false_iff_not, ne_eq, Classical.not_not] at clears
      exact tallied_same tallied (initialized_kept clears.symm)
        (registeredIn_bystander thread rfl (by simp [here, counts]) rfl)
    | registered here =>
      simp only [here, decide_eq_false_iff_not, Nat.not_le] at clears
      refine tallied_locked tallied thread rfl ?_ (Nat.mod_lt _ (by decide))
      simp only [up_one clears, counts, here, Bool.false_eq_true, reduceIte, Nat.add_zero]
    | began here =>
      exact tallied_locked tallied thread rfl (by simp [counts, here]) (tallied _).2
    | released here down =>
      have present : 0 < (s.objects w.region).initialized := by
        rw [(tallied _).1]
        exact List.countP_pos_iff.mpr ⟨w, old, by simp [countedIn, counts, here]⟩
      refine tallied_locked tallied thread rfl ?_ (down ▸ Nat.mod_lt _ (by decide))
      simp only [down, down_one (tallied _).2 present, counts, here, Bool.false_eq_true, reduceIte]
      omega
    | crashed =>
      exact tallied_same tallied (fun _ => rfl) fun o => registeredIn_crash s o w.pid
    | mappedUser here | unmapped here =>
      refine tallied_same tallied (fun _ => rfl)
        (registeredIn_bystander thread rfl (by simp [here, counts]) ?_)
      dsimp only
      split <;> rfl
    | _ here =>
      exact tallied_same tallied (fun _ => rfl)
        (registeredIn_bystander thread rfl (by simp [here, counts]) rfl)

def Listed (s : State) : Prop :=
  ∀ name, s.names name ≠ none → name = regionName ∨ ∃ w ∈ s.instances, w.shmName = name

theorem listed_set {s t : State} {i : Nat} {w w' : Instance} (listed : Listed s)
    (thread : s.instances[i]? = some w) (instances : t.instances = s.instances.set i w')
    (own : w'.shmName = w.shmName)
    (names : ∀ name, t.names name ≠ none →
      s.names name ≠ none ∨ name = regionName ∨ name = w.shmName) : Listed t := by
  have moved : w' ∈ t.instances := instances ▸ mem_set_at thread w'
  intro name bound
  rcases names name bound with before | region | user
  · rcases listed name before with region | ⟨v, member, rfl⟩
    · exact Or.inl region
    · rcases (mem_iff_at thread).mp member with rfl | other
      · exact Or.inr ⟨w', moved, own⟩
      · exact Or.inr ⟨v, instances ▸ (mem_set_iff thread).mpr (Or.inr other), rfl⟩
  · exact Or.inl region
  · exact Or.inr ⟨w', moved, own.trans user.symm⟩

theorem names_new {s : State} {name name' : String}
    (bound : (newlyNamed name s).names name' ≠ none) : s.names name' ≠ none ∨ name' = name := by
  by_cases here : name' = name
  · exact Or.inr here
  · simp only [newlyNamed, Function.update_of_ne here] at bound
    exact Or.inl bound

theorem names_unlink {s : State} {name name' : String}
    (bound : (shmUnlink name s).names name' ≠ none) : s.names name' ≠ none ∧ name' ≠ name := by
  by_cases here : name' = name
  · simp [shmUnlink, here] at bound
  · simp only [shmUnlink, Function.update_of_ne here] at bound
    exact ⟨bound, here⟩

theorem step_listed {layout : Layout} {s t : State} {a : Action} (listed : Listed s)
    (stepped : Stepped layout s a t) : Listed t := by
  cases stepped with
  | construct =>
    intro name bound
    refine (listed name bound).imp_right fun ⟨w, member, own⟩ => ?_
    exact ⟨w, List.mem_append_left _ member, own⟩
  | @advance i w t thread moved =>
    cases moved with
    | created =>
      refine listed_set listed thread rfl rfl fun name bound => ?_
      exact (names_new bound).imp_right Or.inl
    | createdUser =>
      refine listed_set listed thread rfl rfl fun name bound => ?_
      exact (names_new bound).imp_right Or.inr
    | unlinkedUser | unlinked =>
      refine listed_set listed thread rfl rfl fun name bound => ?_
      exact Or.inl (names_unlink bound).1
    | crashed =>
      intro name bound
      refine (listed name bound).imp_right fun ⟨v, member, own⟩ => ?_
      refine ⟨v.crash w.pid, List.mem_map_of_mem member, ?_⟩
      rcases crash_cases w.pid v with same | gone
      · rw [same, own]
      · rw [gone, own]
    | _ => exact listed_set listed thread rfl rfl fun name bound => Or.inl bound

def Removed (s : State) : Prop :=
  (∃ w ∈ s.instances, stays w.pos = true) ∨
    ∀ name, s.names name ≠ none → ∃ w ∈ s.instances, removes name w = true

theorem removed_stays {s t : State} {i : Nat} {w w' : Instance}
    (thread : s.instances[i]? = some w) (instances : t.instances = s.instances.set i w')
    (holds : stays w'.pos = true) : Removed t :=
  Or.inl ⟨w', instances ▸ mem_set_at thread w', holds⟩

theorem removed_next {s t : State} {i : Nat} {w w' : Instance} (removed : Removed s)
    (thread : s.instances[i]? = some w) (instances : t.instances = s.instances.set i w')
    (out : stays w.pos = false)
    (names : ∀ name, t.names name ≠ none →
      s.names name ≠ none ∧ (removes name w = true → removes name w' = true)) : Removed t := by
  have kept : ∀ v ∈ s.instances, v = w ∨ v ∈ t.instances := by
    intro v member
    rw [instances]
    exact ((mem_iff_at thread).mp member).imp_right fun other =>
      (mem_set_iff thread).mpr (Or.inr other)
  rcases removed with ⟨v, member, holds⟩ | all
  · rcases kept v member with rfl | there
    · simp [out] at holds
    · exact Or.inl ⟨v, there, holds⟩
  · right
    intro name bound
    obtain ⟨before, passes⟩ := names name bound
    obtain ⟨v, member, goes⟩ := all name before
    rcases kept v member with rfl | there
    · exact ⟨w', instances ▸ mem_set_at thread w', passes goes⟩
    · exact ⟨v, there, goes⟩

theorem counts_stays {pos : InstancePos} (counted : counts pos = true) : stays pos = true := by
  cases pos <;> simp_all [counts, stays]

/-- The last instance is counted out: its destructor finds the count at zero and removes the names
    that are left. -/
theorem removed_released {s t : State} {i n : Nat} {w w' : Instance} (listed : Listed s)
    (tallied : Tallied t) (thread : s.instances[i]? = some w) (here : w.pos = .leaving)
    (clears : ClearsNames s (.advance i)) (instances : t.instances = s.instances.set i w')
    (names : t.names = s.names) (own : w'.shmName = w.shmName)
    (counted : (t.objects w.region).initialized = n)
    (unmaps : w'.pos = .unmapping (decide (n = 0))) : Removed t := by
  have moved : w' ∈ t.instances := instances ▸ mem_set_at thread w'
  have kept : ∀ v ∈ others i s, v ∈ t.instances := fun v other =>
    instances ▸ (mem_set_iff thread).mpr (Or.inr other)
  by_cases last : (others i s).any (fun u => stays u.pos) = true
  · obtain ⟨v, other, holds⟩ := List.any_eq_true.mp last
    exact Or.inl ⟨v, kept v other, holds⟩
  · have none_counted : registeredIn w.region t = 0 := by
      refine List.countP_eq_zero.mpr fun v member holds => last ?_
      simp only [countedIn, Bool.and_eq_true] at holds
      rw [instances] at member
      rcases (mem_set_iff thread).mp member with rfl | other
      · simp [unmaps, counts] at holds
      · exact List.any_eq_true.mpr ⟨v, other, counts_stays holds.1⟩
    have zero : n = 0 := counted.symm.trans ((tallied _).1.trans none_counted)
    right
    intro name bound
    rw [names] at bound
    by_cases mine : name = w.shmName ∨ name = regionName
    · refine ⟨w', moved, ?_⟩
      simpa [removes, unmaps, zero, own] using mine
    · obtain ⟨user, region⟩ := not_or.mp mine
      obtain ⟨u, member, rfl⟩ := (listed name bound).resolve_left region
      simp only [ClearsNames, strands, thread, Option.any_some, here, Bool.and_eq_false_iff,
        Bool.not_eq_false', last, Bool.false_eq_true, false_or, List.any_eq_false] at clears
      have left := clears u member
      simp only [abandoned, user, region, Option.isSome_iff_ne_none.mpr bound, ne_eq,
        not_false_eq_true, decide_true, Bool.true_and, Bool.not_eq_true', Bool.not_eq_false,
        List.any_eq_true] at left
      obtain ⟨v, other, goes⟩ := left
      exact ⟨v, kept v other, goes⟩

theorem step_removed {layout : Layout} {s t : State} {a : Action} (removed : Removed s)
    (listed : Listed s) (tallied : Tallied t) (clears : ClearsNames s a)
    (stepped : Stepped layout s a t) : Removed t := by
  cases stepped with
  | construct =>
    exact Or.inl ⟨_, List.mem_append_right _ (List.mem_singleton_self _), rfl⟩
  | @advance i w t thread moved =>
    cases moved with
    | released here down =>
      apply removed_released listed tallied thread here clears rfl rfl rfl _ rfl
      simp only [place, writeObject, Function.update_self, lockedWith]
    | @unmapped isUnlink here =>
      apply removed_next removed thread rfl (by simp [here, stays])
      intro name bound
      refine ⟨bound, fun goes => ?_⟩
      cases isUnlink with
      | false => simp [removes, here] at goes
      | true => simpa [removes, here] using goes
    | unlinkedUser here =>
      apply removed_next removed thread rfl (by simp [here, stays])
      intro name bound
      obtain ⟨before, other⟩ := names_unlink bound
      refine ⟨before, fun goes => ?_⟩
      simpa [removes, here, other] using goes
    | unlinked here =>
      apply removed_next removed thread rfl (by simp [here, stays])
      intro name bound
      obtain ⟨before, other⟩ := names_unlink bound
      refine ⟨before, fun goes => ?_⟩
      simp [removes, here, other] at goes
    | crashed =>
      refine Or.inl ⟨w.crash w.pid, List.mem_map_of_mem (List.mem_of_getElem? thread), ?_⟩
      simp [Instance.crash, stays]
    | mappedUser here =>
      apply removed_stays thread rfl
      dsimp only
      split <;> rfl
    | _ => exact removed_stays thread rfl rfl

/-- In every run whose steps clear the names, nothing is left when every instance is destroyed. -/
theorem cleared_leaves_nothing {layout : Layout} {s : State}
    (reached : (machine layout).ReachableBy ClearsNames s) : LeavesNothing s := by
  let holds (s : State) : Prop :=
    Named s ∧ (∀ w ∈ s.instances, Placed s w) ∧ Tallied s ∧ Listed s ∧ Removed s
  have ⟨_, _, _, _, removed⟩ : holds s := by
    apply invariant_of_steps holds _ _ reached
    · rintro s rfl
      refine ⟨initial_linked.named, ?_, ?_, ?_, ?_⟩
      · simp [initial]
      · intro o
        simp [initial, newObject, registeredIn]
      · simp [Listed, initial]
      · right
        simp [initial]
    · rintro s a t ⟨named, placed, tallied, listed, removed⟩ clears move
      have stepped := step_stepped move
      have after := step_tallied tallied placed clears stepped
      exact ⟨step_named named stepped, step_placed named placed stepped, after,
        step_listed listed stepped, step_removed removed listed after clears stepped⟩
  intro destroyed name
  rcases removed with ⟨w, member, holds⟩ | all
  · simp [destroyed w member, stays] at holds
  · by_contra bound
    obtain ⟨w, member, goes⟩ := all name bound
    simp [destroyed w member, removes] at goes

def leftTogether : List Action :=
  .construct 5 "/a" 0 :: List.replicate 12 (.advance 0) ++
    .construct 6 "/a" 0 :: List.replicate 6 (.advance 1) ++
    List.replicate 3 (.advance 0) ++ List.replicate 5 (.advance 1)

theorem left_together_cleared : ∃ s, (machine smallLayout).runBy
    (fun s a => decide (ClearsNames s a)) initial leftTogether = some s ∧
      (s.made = 2 ∧ ∀ w ∈ s.instances, w.pos = .destroyed) ∧ LeavesNothing s := by
  obtain ⟨s, executed, shown, reached⟩ := guarded_shows (m := machine smallLayout) (s := initial)
    ClearsNames leftTogether rfl
    (fun s : State => decide (s.made = 2 ∧ ∀ w ∈ s.instances, w.pos = .destroyed))
    (by decide +kernel)
  exact ⟨s, executed, of_decide_eq_true shown, cleared_leaves_nothing reached⟩

end SharedLeftovers
