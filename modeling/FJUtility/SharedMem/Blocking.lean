import FJUtility.SharedMem.Lifetime
import FJUtility.SharedMem.Owners
import FJUtility.SharedMem.RefCounts

/- What stops a thread for good: its process dies of a worker whose instance is unmapped, whose
   entry is missing or that calls back an instance that is gone, the mutex_ of a proAtom is moved
   while it is locked, or a cond_ is to be destroyed while somebody waits on it. A run that is
   careful with entries and instances meets none of the first two. -/
namespace SharedBlocking
open LabelledMachine AgentList FixMap SharedRegion SharedTables SharedProcesses SharedSteps
open SharedRegistry SharedShutdown SharedOwners SharedLifetime

/-- sender is the process whose _notify has broadcast last. torn lists the processes whose entry
    was moved with its mutex_ locked: the thread that unlocks it does so at the old address. -/
structure Mortal where
  base : Watched
  sender : Nat := 0
  torn : List Nat := []

/-- tears names the entries that the action moves with their mutex_ locked. -/
structure MortalAction where
  act : Action
  tears : List Nat := []

/-- A worker of the process uses an instance that is gone, or the null pointer for its entry. -/
def strays (s : Watched) (pid : Nat) : Bool :=
  (List.range s.base.workers.length).any fun i => s.base.workers[i]?.any fun w =>
    decide (w.pid = pid) && (decide (w.pos = .crashed) ||
      (decide (w.pos ≠ .done) && s.owners[i]?.any Owner.gone))

def calledLate (s : State) (pid : Nat) : Bool :=
  s.log.any fun e => match e with
    | .invoked _ pid' _ _ target => decide (pid' = pid) && decide (target = .destroyed)
    | _ => false

def dies (s : Watched) (pid : Nat) : Bool := strays s pid || calledLate s.base pid

/-- The process whose thread acts; profileAndGC is called by any. -/
def actor (s : Mortal) : Action → Option Nat
  | .construct pid _ _ _ | .addListenScalar pid _ _ _ _ | .addListenList pid _ _ _ _ => some pid
  | .notify _ n _ => some n.pid
  | .broadcast => some s.sender
  | .profileAndGC _ _ => none
  | .destroyBegin pid _ | .destroyPurge pid _ _ _ | .destroyReturn pid _ => some pid
  | .destroySignal | .destroyPoll => SharedRefCounts.closing s.base.base
  | .worker i _ => s.base.base.workers[i]?.map WorkerThread.pid

/-- The address of the proAtom whose mutex_ the action locks. -/
def locks (s : State) : Action → Option Nat
  | .broadcast =>
    match s.user with
    | some (.broadcasting (pid :: _)) => (findIndex s.region.protbl pid).filter fun slot =>
        (proAtomAt s slot).running && !(proAtomAt s slot).workerDone
    | _ => none
  | .destroySignal | .destroyPoll =>
    match s.user with
    | some (.stopping _ _ slot) | some (.joining _ _ slot _) => some slot
    | _ => none
  | .worker i .wait | .worker i .retest | .worker i .finish =>
    s.workers[i]?.bind WorkerThread.slot
  | _ => none

def tornAt (s : Mortal) (slot : Nat) : Bool :=
  let protbl := s.base.base.region.protbl
  decide (slot < protbl.count) && decide ((protbl.entries slot).key ∈ s.torn)

/-- _proAtomDestroy waits for the threads that wait on cond_. -/
def destroysWaited (s : State) : Action → Bool
  | .destroyPoll =>
    match s.user with
    | some (.joining _ _ slot polls) =>
      ((proAtomAt s slot).workerDone || decide (¬ polls < timeoutMs)) &&
        s.workers.any fun w => decide (w.slot = some slot) && decide (w.pos = .waiting)
    | _ => false
  | _ => false

def halted (s : Mortal) (a : Action) : Bool :=
  (actor s a).any (dies s.base) || (locks s.base.base a).any (tornAt s) ||
    destroysWaited s.base.base a

/-- The action moves the entry of pid while a worker uses its address. -/
def mayTear (s : State) (a : Action) (pid : Nat) : Bool :=
  ShiftsBelow pid s a && (findIndex s.region.protbl pid).any fun slot =>
    s.workers.any fun w => decide (w.slot = some slot) && decide (w.pos ≠ .done)

/-- A removed entry takes its mutex_ with it, and a new one is initialised. -/
def mortalStep (capacity : Nat) (s : Mortal) (l : MortalAction) : Option Mortal :=
  if halted s l.act || !l.tears.all (mayTear s.base.base l.act) then none
  else ((watched capacity).step s.base l.act).map fun base =>
    { base
      sender := match l.act with
        | .notify _ n _ => n.pid
        | _ => s.sender
      torn := (s.torn ++ l.tears).filter fun pid =>
        (findIndex base.base.region.protbl pid).isSome }

def mortal (capacity : Nat) : Machine Mortal MortalAction where
  init s := (watched capacity).init s.base ∧ s.torn = []
  step := mortalStep capacity

/-- No instance leaves a worker behind that runs on it, or a mail that is still to be handed to
    it, no entry is moved while its worker uses it, and addresses have 64 bits. -/
def Careful (s : Mortal) (l : MortalAction) : Prop :=
  StaysForWorker s.base l.act ∧ (∀ w ∈ s.base.base.workers, KeepsPlace w.pid s.base.base l.act) ∧
    ReturnsClean s.base.base l.act ∧ SharedRefCounts.Addressed s.base.base l.act

instance (s : Mortal) (l : MortalAction) : Decidable (Careful s l) :=
  inferInstanceAs (Decidable (_ ∧ _ ∧ _ ∧ _))

theorem mortal_stepped {capacity : Nat} {s t : Mortal} {l : MortalAction}
    (stepped : (mortal capacity).step s l = some t) :
    (watched capacity).step s.base l.act = some t.base ∧
      (machine capacity).step s.base.base l.act = some t.base.base ∧
      l.tears.all (mayTear s.base.base l.act) = true ∧
      ∀ pid ∈ t.torn, pid ∈ s.torn ∨ pid ∈ l.tears := by
  simp only [mortal, mortalStep] at stepped
  split at stepped
  · simp at stepped
  · rename_i goes
    obtain ⟨base, moved, rfl⟩ := Option.map_eq_some_iff.mp stepped
    obtain ⟨u, below, same⟩ := Option.map_eq_some_iff.mp moved
    simp only [Bool.or_eq_true, not_or, Bool.not_eq_true, Bool.not_eq_false'] at goes
    refine ⟨moved, by rw [← same]; exact below, goes.2, fun pid member => ?_⟩
    exact List.mem_append.mp (List.mem_filter.mp member).1

/-- An action that nothing halts happens as it does in a world without deaths. -/
theorem goes_steps {capacity : Nat} {s : Mortal} {a : Action} {u : State}
    (goes : halted s a = false) (moved : (machine capacity).step s.base.base a = some u) :
    ∃ t, (mortal capacity).step s { act := a } = some t ∧ t.base.base = u := by
  simp [mortal, mortalStep, goes, watched, moved]

def Placed (s : State) : Prop :=
  ∀ pid addr slot, Stops s pid addr slot → findIndex s.region.protbl pid = some slot

theorem placed_free {s : State} (free : s.user = none) : Placed s :=
  fun _ _ _ stops => absurd stops (free_stops free)

theorem beside_places {s t : State} (beside : Beside s t) (kept : s.user ≠ none) (pid : Nat) :
    findIndex t.region.protbl pid = findIndex s.region.protbl pid := by
  cases beside with
  | still user workers region => rw [region]
  | moved thread moved =>
    cases moved with
    | find here free | crash here free | drain here free | mark here free
    | checked here object owns within free => exact absurd free kept
    | finish here => exact findIndex_write _ _ _ _
    | _ => rfl

theorem step_placed {capacity : Nat} {s t : State} {a : Action} (placed : Placed s)
    (stepped : Stepped capacity s a t) : Placed t := by
  by_cases free : s.user = none
  · cases stepped with
    | construct object unused _ constructed => exact placed_free (constructed.user.trans free)
    | @notify self n clock =>
      intro pid addr slot stops
      unfold Stops notifyLocked at stops
      dsimp only at stops
      split at stops
      · simp at stops
      · simp at stops
    | destroyBegin live _ begun =>
      cases begun with
      | leave | counted => exact placed_free free
      | last needs found down none_left =>
        intro pid addr slot stops
        obtain ⟨rfl, rfl, rfl⟩ := (stops_stopping rfl).mp stops
        exact (findIndex_write _ _ _ _).trans found
    | broadcast user | destroySignal user | destroyPoll user => simp [free] at user
    | destroyPurge leaving _ left => cases left <;> exact placed_free free
    | worker thread moved => exact placed_free ((moved_instances moved).2.trans free)
    | rejectScalar | rejectList | addScalar | addList | collect | destroyReturn =>
      exact placed_free free
  · rcases step_beside free stepped with rfl | rfl | rfl | beside
    · cases stepped with
      | @broadcast _ rest _ user rounded =>
        intro pid addr slot stops
        have next := rounded_user rounded
        unfold Stops at stops
        rw [next, afterRound] at stops
        split at stops
        · simp at stops
        · simp at stops
    · cases stepped with
      | destroySignal user =>
        intro pid addr slot stops
        exact placed pid addr slot ((stops_stopping user).mpr ((stops_joining rfl).mp stops))
    · cases stepped with
      | destroyPoll user polled =>
        cases polled with
        | joined | timedOut => exact placed_free rfl
        | waited unfinished early =>
          intro pid addr slot stops
          exact placed pid addr slot ((stops_joining user).mpr ((stops_joining rfl).mp stops))
    · intro pid addr slot stops
      rw [beside_places beside free]
      exact placed pid addr slot (by simpa only [Stops, beside_user beside] using stops)

theorem placed_reached {capacity : Nat} {guard : State → Action → Prop} {s : State}
    (reached : (machine capacity).ReachableBy guard s) : Placed s := by
  apply invariant_of_steps Placed _ _ reached
  · rintro s ⟨protbl, payload, rfl⟩
    exact placed_free rfl
  · exact fun s a t placed _ stepped => step_placed placed (step_stepped stepped)

def Dismisses (P : Nat) (s : State) (a : Action) (p : ProAtom) : Prop :=
  a = .destroyPoll ∧ ∃ addr slot polls, s.user = some (.joining P addr slot polls) ∧
    (isDone s p.worker = true ∨ (proAtomAt s slot).workerDone = false ∧ ¬ polls < timeoutMs)

theorem entry_stays {capacity P : Nat} {s t : State} {a : Action} {p : ProAtom}
    (sorted : Sorted s.region.protbl) (placed : Placed s) (stepped : Stepped capacity s a t)
    (was : lookup s.region.protbl P = some p) :
    (lookup t.region.protbl P).isSome = true ∨ Dismisses P s a p := by
  have table := step_table stepped
  generalize t.region.protbl = protbl at table ⊢
  cases table with
  | same => exact Or.inl (by rw [was]; rfl)
  | written slot q =>
    left
    rw [lookup_write]
    split
    · rfl
    · rw [was]
      rfl
  | @entered pid addr slot list result protbl q q' needs absent inserted =>
    left
    have apart : P ≠ pid := by
      rintro rfl
      simp [lookup, absent] at was
    have here := insert_at sorted inserted
    have sorted' := insert_sorted sorted inserted
    have kept := lookup_insert sorted inserted apart
    simp only [lookup_write, findIndex_write]
    rw [if_neg, if_neg, kept, was]
    · rfl
    all_goals exact fun found => apart (((findIndex_eq_some sorted').mp found).2.symm.trans here.2)
  | @removed pid addr slot polls user gone =>
    by_cases own : P = pid
    · subst own
      have found := placed P addr slot (Or.inr ⟨polls, user⟩)
      obtain rfl := Option.some.inj ((lookup_found found).symm.trans was)
      refine Or.inr ⟨rfl, addr, slot, polls, user, ?_⟩
      cases stepped with
      | destroyPoll user' polled =>
        rw [user, Option.some.injEq, RegionUser.joining.injEq] at user'
        obtain ⟨rfl, rfl, rfl, rfl⟩ := user'
        cases polled with
        | joined finished ended => exact Or.inl ended
        | waited unfinished early => simp [unfinished, early] at gone
        | timedOut unfinished late => exact Or.inr ⟨unfinished, late⟩
    · rw [lookup_unset sorted own, was]
      exact Or.inl rfl

/-- Only the construction that finds no registered instance starts a worker for an entry. -/
theorem started_unregistered {P : Nat} {s : State} {p : ProAtom}
    (counted : SharedRefCounts.Counted s) (free : s.user = none)
    (was : lookup s.region.protbl P = some p) : (countedUp p).refcount ≠ 1 := by
  intro first
  have live : (SharedRefCounts.registrants s P).Nonempty := by
    have open_ : SharedRefCounts.closing s = none :=
      SharedRefCounts.sending_open (Or.inl free)
    refine ((counted.present P).mp (by simp [was])).resolve_right ?_
    simp [open_]
  obtain ⟨addr, member⟩ := live
  obtain ⟨positive, below, _⟩ := SharedRefCounts.live_entry counted member
  have count := counted.counted P
  simp only [SharedRefCounts.countOf, was, Option.elim_some] at count
  simp only [countedUp, count] at first
  omega

theorem step_keeps_entry {capacity P : Nat} {s t : State} {a : Action} {p : ProAtom}
    (sorted : Sorted s.region.protbl) (counted : SharedRefCounts.Counted s) (placed : Placed s)
    (stepped : Stepped capacity s a t) (was : lookup s.region.protbl P = some p) :
    (∃ p', lookup t.region.protbl P = some p' ∧ p'.worker = p.worker) ∨ Dismisses P s a p := by
  rcases entry_stays sorted placed stepped was with stays | dismissed
  · obtain ⟨p', is⟩ := Option.isSome_iff_exists.mp stays
    refine Or.inl ⟨p', is, ?_⟩
    cases step_change sorted stepped is with
    | kept was' running worker | stopped was' user halted worker =>
      rw [worker, Option.some.inj (was'.symm.trans was)]
    | ended own thread here found same =>
      rw [same, ← Option.some.inj ((lookup_found found).symm.trans was)]
    | started construct needs first =>
      subst construct
      obtain ⟨slot, found, entry⟩ := Option.map_eq_some_iff.mp was
      have free : s.user = none := by
        cases stepped with
        | construct object unused free constructed => exact free
      exact absurd (first slot found)
        (started_unregistered counted free (lookup_found found))
  · exact Or.inr dismissed

/-- The worker is that of the entry of its process, and the address it keeps is the entry's. -/
structure Housed (s : State) (i : Nat) (w : WorkerThread) : Prop where
  alive : w.pos ≠ .crashed
  entry : ∃ slot, findIndex s.region.protbl w.pid = some slot ∧ (proAtomAt s slot).worker = i ∧
    (w.slot = none ∧ w.pos = .starting ∨ w.slot = some slot)

def AllHoused (s : State) : Prop :=
  ∀ (i : Nat) w, s.workers[i]? = some w → w.pos ≠ .done → Housed s i w

structure Tidy (s : State) (a : Action) : Prop where
  keeps : ∀ w ∈ s.workers, KeepsPlace w.pid s a
  patient : ∀ pid addr slot polls, a = .destroyPoll →
    s.user = some (.joining pid addr slot polls) → ¬ polls < timeoutMs →
      (proAtomAt s slot).workerDone = true

/-- The entry of an unfinished worker stays, at its place unless it is moved. -/
theorem home_kept {capacity i : Nat} {s t : State} {a : Action} {w : WorkerThread}
    (sorted : Sorted s.region.protbl) (counted : SharedRefCounts.Counted s) (placed : Placed s)
    (tidy : Tidy s a) (stepped : Stepped capacity s a t) (thread : s.workers[i]? = some w)
    (busy : w.pos ≠ .done) (housed : Housed s i w) :
    ∃ slot, findIndex t.region.protbl w.pid = some slot ∧ (proAtomAt t slot).worker = i ∧
      (ShiftsBelow w.pid s a = false → findIndex s.region.protbl w.pid = some slot) := by
  obtain ⟨slot, found, worker, _⟩ := housed.entry
  rcases step_keeps_entry sorted counted placed stepped (lookup_found found) with
    ⟨p, is, same⟩ | ⟨polls, addr, place, count, user, ended | ⟨unfinished, late⟩⟩
  · obtain ⟨slot', found', rfl⟩ := Option.map_eq_some_iff.mp is
    refine ⟨slot', found', same.trans worker, fun still => ?_⟩
    have sorted' := table_sorted (step_table stepped) sorted
    obtain ⟨bound, key⟩ := (findIndex_eq_some sorted).mp found
    have cut := table_cut (step_table stepped) sorted still (key ▸ cut_of_key sorted bound)
    have there := (findIndex_eq_some sorted').mp found'
    have here := key_at_cut sorted' cut ⟨slot', there⟩
    rw [found, Option.some.injEq]
    exact sorted_injective sorted' here.1 there.1 (here.2.trans there.2.symm)
  · rw [worker, not_done thread busy] at ended
    exact Bool.noConfusion ended
  · rw [tidy.patient _ _ _ _ polls user late] at unfinished
    exact Bool.noConfusion unfinished

theorem address_kept {i slot : Nat} {s : State} {a : Action} {w : WorkerThread}
    (tidy : Tidy s a) (thread : s.workers[i]? = some w) (busy : w.pos ≠ .done)
    (housed : Housed s i w)
    (stays : ShiftsBelow w.pid s a = false → findIndex s.region.protbl w.pid = some slot) :
    w.slot = none ∧ w.pos = .starting ∨ w.slot = some slot := by
  obtain ⟨place, found, _, new | cached⟩ := housed.entry
  · exact Or.inl new
  · right
    have still : ShiftsBelow w.pid s a = false := by
      apply Bool.eq_false_iff.mpr
      intro shifts
      rcases tidy.keeps w (List.mem_of_getElem? thread) shifts w (List.mem_of_getElem? thread) rfl
        with uncached | ended
      · simp [cached] at uncached
      · exact busy ended
    rw [cached, ← stays still, found]

theorem moved_housed {i j slot : Nat} {s t : State} {w w' : WorkerThread} {act : WorkerAct}
    (thread : s.workers[j]? = some w) (housed : Housed s i w) (moved : WorkerMoved j w s act t)
    (is : t.workers[j]? = some w') (found : findIndex s.region.protbl w.pid = some slot) :
    w'.pid = w.pid ∧ w'.pos ≠ .crashed ∧ w'.slot = some slot := by
  obtain ⟨place, found', _, cached⟩ := housed.entry
  have same : slot = place := Option.some.inj (found.symm.trans found')
  have used : w.pos ≠ .starting → w.slot = some slot :=
    fun past => same ▸ cached.resolve_left fun new => past new.2
  cases moved with
  | find here free registered =>
    rw [set_at thread is]
    exact ⟨rfl, by simp, (registered.symm.trans found)⟩
  | crash here free unregistered => simp [unregistered] at found
  | test here | stop here | wait here | spurious here | retest here | stopWoken here | drain here
  | idle here | skip here | checked here | unchecked here | invoke here | comeBackWithData here
  | comeBack here | mark here | finish here =>
    rw [set_at thread is]
    exact ⟨rfl, by simp, used (by simp [here])⟩

theorem started_housed {capacity pid addr : Nat} {list : List Nat} {result : List MailAtom}
    {s t : State} (sorted : Sorted s.region.protbl)
    (constructed : Constructed capacity pid addr list result s t)
    (grown : s.workers.length < t.workers.length) :
    Housed t s.workers.length ⟨pid, none, .starting⟩ := by
  rcases constructed.registered with ⟨_, same⟩ | ⟨_, retained⟩
  · rw [same] at grown
    exact absurd grown (Nat.lt_irrefl _)
  · obtain ⟨p, is, worker⟩ : ∃ p, lookup t.region.protbl pid = some p ∧
        p.worker = s.workers.length := by
      generalize t.region.protbl = protbl at retained ⊢
      generalize t.workers = workers at retained grown
      cases retained with
      | counted => exact absurd grown (Nat.lt_irrefl _)
      | revived found => exact ⟨_, by rw [lookup_write, if_pos found], rfl⟩
      | entered absent inserted =>
        have place := (findIndex_eq_some (insert_sorted sorted inserted)).mpr
          (insert_at sorted inserted)
        exact ⟨_, by rw [lookup_write, findIndex_write, if_pos place], rfl⟩
    obtain ⟨slot, found, rfl⟩ := Option.map_eq_some_iff.mp is
    exact ⟨by simp, slot, found, worker, Or.inl ⟨rfl, rfl⟩⟩

theorem step_housed {capacity : Nat} {s t : State} {a : Action} (sorted : Sorted s.region.protbl)
    (counted : SharedRefCounts.Counted s) (placed : Placed s) (tidy : Tidy s a)
    (stepped : Stepped capacity s a t) (before : AllHoused s) : AllHoused t := by
  intro j w' is busy'
  cases step_thread stepped is with
  | same was =>
    have housed := before j w' was busy'
    obtain ⟨slot, found, worker, stays⟩ :=
      home_kept sorted counted placed tidy stepped was busy' housed
    exact ⟨housed.alive, slot, found, worker, address_kept tidy was busy' housed stays⟩
  | @woken w was waits same =>
    subst same
    have busy : w.pos ≠ .done := by simp [waits]
    have housed := before j w was busy
    obtain ⟨slot, found, worker, stays⟩ :=
      home_kept sorted counted placed tidy stepped was busy housed
    refine ⟨by simp, slot, found, worker, Or.inr ?_⟩
    exact (address_kept tidy was busy housed stays).resolve_left (by simp [waits])
  | @moved w act was own moves _ =>
    subst own
    have busy := moved_busy moves
    have housed := before j w was busy
    obtain ⟨slot, found, worker, stays⟩ :=
      home_kept sorted counted placed tidy stepped was busy housed
    obtain ⟨pid, alive, cached⟩ := moved_housed was housed moves is (stays rfl)
    exact ⟨alive, slot, pid ▸ found, worker, Or.inr cached⟩
  | started construct last new =>
    subst construct last new
    cases stepped with
    | construct object unused free constructed =>
      exact started_housed sorted constructed (List.getElem?_eq_some_iff.mp is).1

theorem careful_tidy {s : Mortal} {l : MortalAction} (careful : Careful s l) :
    Tidy s.base.base l.act where
  keeps := careful.2.1
  patient _ _ _ _ polls user late := stays_patient (polls ▸ careful.1) user late

/-- Where every worker is housed, no entry is moved with its mutex_ locked. -/
theorem housed_whole {s : State} {a : Action} {pid : Nat} (sorted : Sorted s.region.protbl)
    (housed : AllHoused s) (tidy : Tidy s a) : mayTear s a pid = false := by
  apply Bool.eq_false_iff.mpr
  intro tears
  simp only [mayTear, Bool.and_eq_true, Option.any_eq_true, List.any_eq_true,
    decide_eq_true_eq] at tears
  obtain ⟨shifts, slot, found, w, member, cached, busy⟩ := tears
  obtain ⟨i, thread⟩ := List.mem_iff_getElem?.mp member
  obtain ⟨place, found', _, new | same⟩ := (housed i w thread busy).entry
  · simp [new.1] at cached
  · have own : w.pid = pid := by
      rw [same, Option.some.injEq] at cached
      subst cached
      exact ((findIndex_eq_some sorted).mp found').2.symm.trans ((findIndex_eq_some sorted).mp found).2
    rcases tidy.keeps w member (own ▸ shifts) w member rfl with uncached | ended
    · simp [cached] at uncached
    · exact busy ended

structure Sane (s : Mortal) : Prop where
  housed : AllHoused s.base.base
  kept : Kept s.base
  called : NoLateCallback s.base.base
  whole : s.torn = []

structure Below (s : Mortal) : Prop where
  sorted : Sorted s.base.base.region.protbl
  counted : SharedRefCounts.Counted s.base.base
  placed : Placed s.base.base
  kept : Kept s.base
  called : NoLateCallback s.base.base

theorem addressed_reached {capacity : Nat} {s : Mortal}
    (reached : (mortal capacity).ReachableBy Careful s) :
    (machine capacity).ReachableBy SharedRefCounts.Addressed s.base.base := by
  refine reachableBy_project (fun s : Mortal => s.base.base) ?_ ?_ reached
  · exact fun s first => first.1.1
  · exact fun s l t careful moved => Or.inr ⟨l.act, careful.2.2.2, (mortal_stepped moved).2.1⟩

theorem below_reached {capacity : Nat} {s : Mortal}
    (reached : (mortal capacity).ReachableBy Careful s) : Below s := by
  have watchedRun : (watched capacity).ReachableBy StaysForWorker s.base := by
    refine reachableBy_project Mortal.base ?_ ?_ reached
    · exact fun s first => first.1
    · exact fun s l t careful moved => Or.inr ⟨l.act, careful.1, (mortal_stepped moved).1⟩
  have cleanRun : (machine capacity).ReachableBy ReturnsClean s.base.base := by
    refine reachableBy_project (fun s : Mortal => s.base.base) ?_ ?_ reached
    · exact fun s first => first.1.1
    · exact fun s l t careful moved => Or.inr ⟨l.act, careful.2.2.1, (mortal_stepped moved).2.1⟩
  have baseRun := addressed_reached reached
  exact ⟨sorted_reached baseRun, SharedRefCounts.counted_reached baseRun, placed_reached baseRun,
    kept_reached watchedRun, (forgotten_reached cleanRun).2⟩

theorem sane_reached {capacity : Nat} {s : Mortal}
    (reached : (mortal capacity).ReachableBy Careful s) : Sane s := by
  have both : AllHoused s.base.base ∧ s.torn = [] := by
    refine invariant_along Below (fun s => AllHoused s.base.base ∧ s.torn = [])
      (fun _ => below_reached) ?_ ?_ reached
    · rintro s ⟨⟨⟨protbl, payload, first⟩, _⟩, whole⟩
      refine ⟨fun i w thread => ?_, whole⟩
      simp [first, initial] at thread
    · rintro s l t below ⟨housed, whole⟩ careful moved
      obtain ⟨_, stepped, tears, torn⟩ := mortal_stepped moved
      have tidy := careful_tidy careful
      refine ⟨step_housed below.sorted below.counted below.placed tidy (step_stepped stepped)
        housed, List.eq_nil_iff_forall_not_mem.mpr fun pid member => ?_⟩
      rcases torn pid member with old | new
      · simp [whole] at old
      · have torn := List.all_eq_true.mp tears pid new
        rw [housed_whole below.sorted housed tidy] at torn
        exact Bool.noConfusion torn
  exact ⟨both.1, (below_reached reached).kept, (below_reached reached).called, both.2⟩

theorem sane_lives {s : Mortal} (sane : Sane s) (pid : Nat) : dies s.base pid = false := by
  refine Bool.or_eq_false_iff.mpr ⟨Bool.eq_false_iff.mpr fun strayed => ?_,
    Bool.eq_false_iff.mpr fun late => ?_⟩
  · simp only [strays, List.any_eq_true, List.mem_range, Option.any_eq_true, Bool.and_eq_true,
      Bool.or_eq_true, decide_eq_true_eq] at strayed
    obtain ⟨i, _, w, thread, _, crashed | ⟨busy, o, owner, gone⟩⟩ := strayed
    · exact (sane.housed i w thread (by simp [crashed])).alive crashed
    · have stays := (sane.kept.held i w o thread busy owner).1
      rw [gone] at stays
      exact Bool.noConfusion stays
  · obtain ⟨e, logged, called⟩ := List.any_eq_true.mp late
    cases e with
    | invoked i pid' mail data target =>
      simp only [Bool.and_eq_true, decide_eq_true_eq] at called
      exact sane.called i pid' mail data target logged called.2
    | _ => exact Bool.noConfusion called

/-- In a careful run only the destruction of a cond_ can halt a thread. -/
theorem sane_goes {s : Mortal} {a : Action} (sane : Sane s)
    (alone : destroysWaited s.base.base a = false) : halted s a = false := by
  have alive : (actor s a).any (dies s.base) = false := by
    apply Option.any_eq_false .. |>.mpr
    intro pid _
    simp [sane_lives sane pid]
  have whole : (locks s.base.base a).any (tornAt s) = false := by
    apply Option.any_eq_false .. |>.mpr
    intro slot _
    simp [tornAt, sane.whole]
  rw [halted, alive, whole, alone]
  rfl

end SharedBlocking
