import FJUtility.SharedMem.MailGuarantees
import FJUtility.SharedMem.Shutdown

/- The instance on whose this pointer, and through whose mapping, a process's worker runs. The
   worker starts with the first counted instance and is stopped by the last one; nothing
   makes these the same instance. -/
namespace SharedOwners
open LabelledMachine FixMap SharedRegion SharedProcesses SharedSteps SharedShutdown SharedGuarantees

/-- The argument of pthread_create, and whether its destructor has returned. -/
structure Owner where
  pid : Nat
  addr : Nat
  gone : Bool := false
  deriving DecidableEq, Repr

/-- owners is an observer beside the worker threads; no section reads it. -/
structure Watched where
  base : State
  owners : List Owner

def Owner.leave (pid addr : Nat) (o : Owner) : Owner :=
  if o.pid = pid ∧ o.addr = addr then { o with gone := true } else o

/-- A construction that starts a worker hands over its own this pointer. -/
def observe (s : Watched) (t : State) : Action → List Owner
  | .construct pid addr _ _ =>
    if s.base.workers.length < t.workers.length then s.owners ++ [{ pid, addr }] else s.owners
  | .destroyReturn pid addr => s.owners.map (Owner.leave pid addr)
  | _ => s.owners

def watched (capacity : Nat) : Machine Watched Action where
  init s := (machine capacity).init s.base ∧ s.owners = []
  step s a := ((machine capacity).step s.base a).map fun t => ⟨t, observe s t a⟩

def OwnerOutlives (s : Watched) : Prop :=
  ∀ (i : Nat) w, s.base.workers[i]? = some w → w.pos ≠ .done →
    ∃ o, s.owners[i]? = some o ∧ o.gone = false

def firstDestroyedFirst : List Action :=
  [.construct 5 100 [7] [entrySeven], .construct 5 101 [8] [entrySeven, entryEight],
    .worker 0 .find, .worker 0 .test, .worker 0 .wait, .destroyBegin 5 100,
    .destroyPurge 5 100 [] [mailAtomInit, entryEight], .destroyReturn 5 100]

theorem first_destroyed_first_dangles :
    ¬ ∀ s, (watched 22).Reachable s → OwnerOutlives s := by
  intro outlives
  obtain ⟨s, reached, shown⟩ := run_shows (m := watched 22) (s := ⟨zeroed, []⟩)
    firstDestroyedFirst ⟨zeroed_initial 22, rfl⟩
    (fun s : Watched => s.base.workers[0]?.any (fun w : WorkerThread => decide (w.pos = .waiting)) &&
      s.owners[0]?.any Owner.gone) (by decide +kernel)
  simp only [Bool.and_eq_true, Option.any_eq_true, decide_eq_true_eq] at shown
  obtain ⟨⟨w, thread, waits⟩, o, owner, gone⟩ := shown
  obtain ⟨o', owner', stays⟩ := outlives s reached 0 w thread (by simp [waits])
  rw [owner, Option.some.injEq] at owner'
  subst owner'
  simp [gone] at stays

/-- The destructor of the owner of worker i will wait for that worker: it is the last counted
    instance of its process, and the entry names the worker. -/
def waitsFor (s : State) (pid i : Nat) : Bool :=
  (findIndex s.region.protbl pid).any fun slot =>
    decide ((proAtomAt s slot).refcount = 1) && decide ((proAtomAt s slot).worker = i)

def runsOn (s : Watched) (pid addr i : Nat) : Bool :=
  s.base.workers[i]?.any (fun w => decide (w.pos ≠ .done)) &&
    s.owners[i]?.any fun o => decide (o.pid = pid) && decide (o.addr = addr)

/-- An instance on which a worker runs begins to go without waiting for it, or the join loop
    gives the worker up. -/
def deserts (s : Watched) : Action → Bool
  | .destroyBegin pid addr => (List.range s.base.workers.length).any fun i =>
      runsOn s pid addr i && !waitsFor s.base pid i
  | .destroyPoll =>
    match s.base.user with
    | some (.joining _ _ slot polls) =>
      decide (¬ polls < timeoutMs) && !(proAtomAt s.base slot).workerDone
    | _ => false
  | _ => false

def StaysForWorker (s : Watched) (a : Action) : Prop := deserts s a = false

instance (s : Watched) (a : Action) : Decidable (StaysForWorker s a) :=
  inferInstanceAs (Decidable (_ = _))

def Stops (s : State) (pid addr slot : Nat) : Prop :=
  s.user = some (.stopping pid addr slot) ∨
    ∃ polls, s.user = some (.joining pid addr slot polls)

def Holds (s : State) (i : Nat) (o : Owner) : Prop :=
  s.instances o.pid o.addr = .live true ∨ s.instances o.pid o.addr = .joining ∧
    ∃ slot, Stops s o.pid o.addr slot ∧ (proAtomAt s slot).worker = i

structure Kept (s : Watched) : Prop where
  paired : s.owners.length = s.base.workers.length
  held : ∀ (i : Nat) w o, s.base.workers[i]? = some w → w.pos ≠ .done → s.owners[i]? = some o →
    o.gone = false ∧ Holds s.base i o

theorem setStatus_self (s : State) (pid addr : Nat) (status : InstStatus) :
    setStatus s pid addr status pid addr = status := by
  simp [setStatus]

theorem setStatus_other {s : State} {pid addr pid' addr' : Nat} {status : InstStatus}
    (apart : ¬ (pid' = pid ∧ addr' = addr)) :
    setStatus s pid addr status pid' addr' = s.instances pid' addr' := by
  unfold setStatus
  by_cases same : pid' = pid
  · subst same
    have other : addr' ≠ addr := fun eq => apart ⟨rfl, eq⟩
    rw [Function.update_self, Function.update_of_ne other]
  · rw [Function.update_of_ne same]

theorem apart_of_status {s : State} {pid addr pid' addr' : Nat} {x y : InstStatus}
    (first : s.instances pid' addr' = x) (second : s.instances pid addr = y) (differs : x ≠ y) :
    ¬ (pid' = pid ∧ addr' = addr) := by
  rintro ⟨rfl, rfl⟩
  exact differs (first.symm.trans second)

theorem construct_starts {capacity pid addr : Nat} {list : List Nat} {result : List MailAtom}
    {s t : State} (constructed : construct capacity pid addr list result s = some t) :
    t.workers = s.workers ∨ t.workers = s.workers ++ [⟨pid, none, .starting⟩] ∧
      t.instances pid addr = .live true := by
  cases construct_built constructed with
  | plain => exact Or.inl rfl
  | needing added needs retained counted =>
    cases retained with
    | counted => exact Or.inl rfl
    | revived | entered => exact Or.inr ⟨rfl, setStatus_self _ _ _ _⟩

theorem holds_live {s : State} {i : Nat} {o : Owner}
    (none_stops : ∀ slot, ¬ Stops s o.pid o.addr slot) (holds : Holds s i o) :
    s.instances o.pid o.addr = .live true := by
  apply holds.resolve_right
  rintro ⟨_, slot, stops, _⟩
  exact none_stops slot stops

theorem free_stops {s : State} {pid addr slot : Nat} (free : s.user = none) :
    ¬ Stops s pid addr slot := by
  rintro (stops | ⟨polls, joins⟩)
  · simp [free] at stops
  · simp [free] at joins

theorem stops_stopping {s : State} {pid addr slot pid' addr' slot' : Nat}
    (user : s.user = some (.stopping pid' addr' slot')) :
    Stops s pid addr slot ↔ pid' = pid ∧ addr' = addr ∧ slot' = slot := by
  simp [Stops, user]

theorem stops_joining {s : State} {pid addr slot pid' addr' slot' polls : Nat}
    (user : s.user = some (.joining pid' addr' slot' polls)) :
    Stops s pid addr slot ↔ pid' = pid ∧ addr' = addr ∧ slot' = slot := by
  simp [Stops, user]

theorem beside_holds {s t : State} {i : Nat} {o : Owner} (kept : s.user ≠ none)
    (beside : Beside s t) (status : t.instances o.pid o.addr = s.instances o.pid o.addr)
    (holds : Holds s i o) : Holds t i o := by
  unfold Holds Stops at *
  rw [status, beside_user beside]
  apply holds.imp id
  rintro ⟨joining, slot, stops, worker⟩
  exact ⟨joining, slot, stops, (beside_kept slot beside kept).worker.trans worker⟩

def Marked (s : State) : Prop :=
  ∀ pid addr slot, Stops s pid addr slot → s.instances pid addr = .joining

theorem moved_instances {i : Nat} {w : WorkerThread} {s t : State} {act : WorkerAct}
    (moved : WorkerMoved i w s act t) : t.instances = s.instances ∧ t.user = s.user := by
  cases moved <;> exact ⟨rfl, rfl⟩

theorem step_marked {capacity : Nat} {s t : State} {a : Action} (marked : Marked s)
    (stepped : Stepped capacity s a t) : Marked t := by
  intro pid addr slot stops
  have unchanged : t.user = s.user → Stops s pid addr slot := by
    intro same
    unfold Stops at *
    rwa [same] at stops
  cases stepped with
  | construct object unused free constructed =>
    exact absurd (unchanged constructed.user) (free_stops free)
  | rejectScalar | rejectList => exact marked pid addr slot stops
  | addScalar object free | addList object free | collect free =>
    exact absurd (unchanged rfl) (free_stops free)
  | @notify self n clock free fits =>
    unfold Stops notifyLocked at stops
    dsimp only at stops
    split at stops
    · simp at stops
    · simp at stops
  | @broadcast pid' rest t user rounded =>
    have next := rounded_user rounded
    unfold Stops at stops
    rw [next, afterRound] at stops
    split at stops
    · simp at stops
    · simp at stops
  | destroyBegin live free begun =>
    cases begun with
    | leave | counted => exact absurd (unchanged rfl) (free_stops free)
    | last needs found down none_left =>
      obtain ⟨rfl, rfl, _⟩ := (stops_stopping rfl).mp stops
      exact setStatus_self _ _ _ _
  | @destroySignal pid' addr' slot' user =>
    obtain ⟨rfl, rfl, _⟩ := (stops_joining rfl).mp stops
    exact marked _ _ slot' (Or.inl user)
  | @destroyPoll pid' addr' slot' polls t user polled =>
    cases polled with
    | joined | timedOut => simp [Stops, destroyEntry] at stops
    | waited unfinished early =>
      obtain ⟨rfl, rfl, _⟩ := (stops_joining rfl).mp stops
      exact marked _ _ slot' (Or.inr ⟨polls, user⟩)
  | destroyPurge leaving free left =>
    cases left <;> exact absurd (unchanged rfl) (free_stops free)
  | destroyReturn leaving =>
    have before := marked pid addr slot (unchanged rfl)
    dsimp only
    rw [setStatus_other (apart_of_status before leaving (by simp)), before]
  | worker thread moved =>
    obtain ⟨instances, user⟩ := moved_instances moved
    rw [instances]
    exact marked pid addr slot (unchanged user)

/-- A destructor that will wait for the worker of its instance says so; any other one leaves the
    owner alone. -/
theorem begun_holds {s t : State} {i pid addr : Nat} {o : Owner} {needworker : Bool}
    (status : s.instances pid addr = .live needworker) (begun : Begun pid addr needworker s t)
    (live : s.instances o.pid o.addr = .live true)
    (waits : o.pid = pid → o.addr = addr → waitsFor s o.pid i = true) : Holds t i o := by
  by_cases own : o.pid = pid ∧ o.addr = addr
  · obtain ⟨rfl, rfl⟩ := own
    obtain ⟨slot, found, here⟩ := (Option.any_eq_true ..).mp (waits rfl rfl)
    simp only [Bool.and_eq_true, decide_eq_true_eq] at here
    rw [live] at status
    cases status
    cases begun with
    | leave unregistered => simp [unregistered rfl] at found
    | counted needs found' down others =>
      rw [found, Option.some.injEq] at found'
      subst found'
      rw [here.1] at down
      exact absurd down others
    | last needs found' down none_left =>
      rw [found, Option.some.injEq] at found'
      subst found'
      refine Or.inr ⟨setStatus_self _ _ _ _, slot, Or.inl rfl, ?_⟩
      simp only [proAtomAt, write, Function.update_self]
      exact here.2
  · left
    cases begun with
    | leave | counted | last =>
      dsimp only
      rw [setStatus_other own, live]

/-- A poll that ends the wait has found the worker ended, so another worker's owner is not the
    instance that leaves. -/
theorem polled_holds {s t : State} {i pid addr slot polls : Nat} {o : Owner}
    (user : s.user = some (.joining pid addr slot polls)) (polled : Polled pid addr slot polls s t)
    (unfinished : isDone s i = false) (marked : Marked s) (holds : Holds s i o)
    (patient : ¬ polls < timeoutMs → (proAtomAt s slot).workerDone = true) : Holds t i o := by
  cases polled with
  | joined finished ended =>
    have apart : ¬ (o.pid = pid ∧ o.addr = addr) := by
      rintro ⟨rfl, rfl⟩
      have joining := marked _ _ slot (Or.inr ⟨polls, user⟩)
      rcases holds with live | ⟨_, slot', stops, worker⟩
      · simp [joining] at live
      · obtain ⟨_, _, rfl⟩ := (stops_joining user).mp stops
        rw [worker, unfinished] at ended
        simp at ended
    have live := holds_live (fun slot' stops => by
      obtain ⟨eq, eq', _⟩ := (stops_joining user).mp stops
      exact apart ⟨eq.symm, eq'.symm⟩) holds
    left
    simp only [destroyEntry]
    rw [setStatus_other apart, live]
  | waited early_done early =>
    apply holds.imp id
    rintro ⟨joining, slot', stops, worker⟩
    exact ⟨joining, slot', (stops_joining rfl).mpr ((stops_joining user).mp stops), worker⟩
  | timedOut undone late =>
    have done := patient late
    simp [undone] at done

/-- The step lemma: the owner of an unfinished worker stays, or its destructor stays with it. -/
theorem step_holds {capacity i : Nat} {s t : State} {o : Owner} {a : Action}
    (unfinished : isDone s i = false) (marked : Marked s) (stepped : Stepped capacity s a t)
    (holds : Holds s i o)
    (waits : a = .destroyBegin o.pid o.addr → waitsFor s o.pid i = true)
    (patient : ∀ pid addr slot polls, a = .destroyPoll →
      s.user = some (.joining pid addr slot polls) → ¬ polls < timeoutMs →
        (proAtomAt s slot).workerDone = true) : Holds t i o := by
  cases stepped with
  | construct object unused free constructed =>
    obtain ⟨needworker, set⟩ := constructed.instances
    have live := holds_live (fun slot => free_stops free) holds
    left
    rcases unused with fresh | fresh
    · rw [set, setStatus_other (apart_of_status live fresh (by simp)), live]
    · rw [set, setStatus_other (apart_of_status live fresh (by simp)), live]
  | rejectScalar | rejectList => exact holds
  | addScalar object free | addList object free | notify free | collect free =>
    have live := holds_live (fun slot => free_stops free) holds
    exact Or.inl live
  | @broadcast pid rest t user rounded =>
    have live := holds_live (fun slot => by simp [Stops, user]) holds
    cases rounded <;> exact Or.inl live
  | @destroyBegin pid addr needworker t status free begun =>
    have live := holds_live (fun slot => free_stops free) holds
    exact begun_holds status begun live fun same same' => waits (by rw [same, same'])
  | @destroySignal pid addr slot user =>
    apply holds.imp id
    rintro ⟨joining, slot', stops, worker⟩
    exact ⟨joining, slot', (stops_joining rfl).mpr ((stops_stopping user).mp stops), worker⟩
  | @destroyPoll pid addr slot polls t user polled =>
    exact polled_holds user polled unfinished marked holds (patient pid addr slot polls rfl user)
  | destroyPurge leaving free left =>
    have live := holds_live (fun slot => free_stops free) holds
    have apart := apart_of_status live leaving (by simp)
    left
    cases left with
    | purged | plain =>
      dsimp only
      rw [setStatus_other apart, live]
  | destroyReturn leaving =>
    unfold Holds
    dsimp only
    rcases holds with live | ⟨joining, stopped⟩
    · rw [setStatus_other (apart_of_status live leaving (by simp))]
      exact Or.inl live
    · rw [setStatus_other (apart_of_status joining leaving (by simp))]
      exact Or.inr ⟨joining, stopped⟩
  | worker thread moved =>
    by_cases free : s.user = none
    · left
      rw [(moved_instances moved).1, holds_live (fun slot => free_stops free) holds]
    · exact beside_holds free (.moved thread moved) (by rw [(moved_instances moved).1]) holds

theorem unfinished_before {capacity i : Nat} {s t : State} {a : Action}
    (stepped : Stepped capacity s a t) {w' : WorkerThread} (is : t.workers[i]? = some w')
    (busy : w'.pos ≠ .done) :
    (∃ w, s.workers[i]? = some w ∧ w.pos ≠ .done) ∨ i = s.workers.length := by
  cases step_thread stepped is with
  | same was => exact Or.inl ⟨w', was, busy⟩
  | woken was waits => exact Or.inl ⟨_, was, by simp [waits]⟩
  | moved was own moves => exact Or.inl ⟨_, was, moved_busy moves⟩
  | started construct last => exact Or.inr last

theorem not_done {i : Nat} {s : State} {w : WorkerThread} (thread : s.workers[i]? = some w)
    (busy : w.pos ≠ .done) : isDone s i = false := by
  simp [isDone, thread, busy]

theorem stays_waits {s : Watched} {i : Nat} {w : WorkerThread} {o : Owner}
    (stays : StaysForWorker s (.destroyBegin o.pid o.addr)) (thread : s.base.workers[i]? = some w)
    (busy : w.pos ≠ .done) (owner : s.owners[i]? = some o) : waitsFor s.base o.pid i = true := by
  simp only [StaysForWorker, deserts, List.any_eq_false, List.mem_range] at stays
  have bound := (List.getElem?_eq_some_iff.mp thread).1
  simpa [runsOn, thread, busy, owner] using stays i bound

theorem stays_patient {s : Watched} {pid addr slot polls : Nat} (stays : StaysForWorker s .destroyPoll)
    (user : s.base.user = some (.joining pid addr slot polls)) (late : ¬ polls < timeoutMs) :
    (proAtomAt s.base slot).workerDone = true := by
  simpa [StaysForWorker, deserts, user, Nat.le_of_not_lt late] using stays

theorem observed_owner {capacity i : Nat} {s : Watched} {t : State} {a : Action}
    (paired : s.owners.length = s.base.workers.length) (stepped : Stepped capacity s.base a t)
    {o' : Owner} (is : (observe s t a)[i]? = some o') :
    (∃ o, s.owners[i]? = some o ∧ o'.pid = o.pid ∧ o'.addr = o.addr ∧
      (o' = o ∨ a = .destroyReturn o.pid o.addr)) ∨
    ∃ pid addr list result, a = .construct pid addr list result ∧ i = s.base.workers.length ∧
      s.base.workers.length < t.workers.length ∧ o' = ⟨pid, addr, false⟩ := by
  have same : (observe s t a) = s.owners → (∃ o, s.owners[i]? = some o ∧ o'.pid = o.pid ∧
      o'.addr = o.addr ∧ (o' = o ∨ a = .destroyReturn o.pid o.addr)) := by
    intro unchanged
    rw [unchanged] at is
    exact ⟨o', is, rfl, rfl, Or.inl rfl⟩
  cases stepped with
  | @construct pid addr list result t object unused free constructed =>
    by_cases grown : s.base.workers.length < t.workers.length
    · rw [observe, if_pos grown, List.getElem?_append] at is
      split at is
      · exact Or.inl ⟨o', is, rfl, rfl, Or.inl rfl⟩
      · rename_i late
        have last := List.mem_singleton.mp (List.mem_of_getElem? is)
        have := (List.getElem?_eq_some_iff.mp is).1
        simp only [List.length_singleton] at this
        exact Or.inr ⟨pid, addr, list, result, rfl, by omega, grown, last⟩
    · exact Or.inl (same (by rw [observe, if_neg grown]))
  | @destroyReturn pid addr leaving =>
    simp only [observe, List.getElem?_map, Option.map_eq_some_iff] at is
    obtain ⟨o, was, rfl⟩ := is
    refine Or.inl ⟨o, was, ?_⟩
    unfold Owner.leave
    split
    · rename_i own
      exact ⟨rfl, rfl, Or.inr (by rw [own.1, own.2])⟩
    · exact ⟨rfl, rfl, Or.inl rfl⟩
  | rejectScalar | rejectList | addScalar | addList | notify | broadcast | collect | destroyBegin
  | destroySignal | destroyPoll | destroyPurge | worker => exact Or.inl (same rfl)

theorem workers_length {capacity : Nat} {s t : State} {a : Action}
    (stepped : Stepped capacity s a t) : t.workers.length = s.workers.length ∨
      (∃ pid addr list result, a = .construct pid addr list result) ∧
        t.workers.length = s.workers.length + 1 := by
  cases stepped with
  | construct object unused free constructed =>
    rcases constructed_workers constructed with same | grown
    · exact Or.inl (by rw [same])
    · exact Or.inr ⟨⟨_, _, _, _, rfl⟩, by rw [grown, List.length_append, List.length_singleton]⟩
  | broadcast user rounded =>
    cases rounded with
    | woke => exact Or.inl (by simp [wakeSlot])
    | passed => exact Or.inl rfl
  | destroySignal user => exact Or.inl (by simp [destroySignal, wakeSlot])
  | destroyBegin live free begun => cases begun <;> exact Or.inl rfl
  | destroyPoll user polled => cases polled <;> exact Or.inl rfl
  | destroyPurge leaving free left => cases left <;> exact Or.inl rfl
  | worker thread moved =>
    obtain ⟨w', set, _⟩ := moved_set moved
    exact Or.inl (by rw [set, List.length_set])
  | rejectScalar | rejectList | addScalar | addList | notify | collect | destroyReturn =>
    exact Or.inl rfl

theorem observe_paired {capacity : Nat} {s : Watched} {t : State} {a : Action}
    (paired : s.owners.length = s.base.workers.length) (stepped : Stepped capacity s.base a t) :
    (observe s t a).length = t.workers.length := by
  rcases workers_length stepped with same | ⟨⟨pid, addr, list, result, rfl⟩, grown⟩
  · unfold observe
    split
    · rw [if_neg (by omega), paired, same]
    · rw [List.length_map, paired, same]
    · rw [paired, same]
  · simp only [observe]
    rw [if_pos (by omega), List.length_append, List.length_singleton, paired, grown]

theorem step_kept {capacity : Nat} {s : Watched} {t : State} {a : Action} (kept : Kept s)
    (marked : Marked s.base) (stays : StaysForWorker s a)
    (move : (machine capacity).step s.base a = some t) : Kept ⟨t, observe s t a⟩ := by
  have stepped := step_stepped move
  refine ⟨observe_paired kept.paired stepped, ?_⟩
  intro i w' o' thread busy owner
  dsimp only at thread owner ⊢
  rcases observed_owner kept.paired stepped owner with
    ⟨o, was, pid, addr, same⟩ | ⟨pid, addr, list, result, rfl, rfl, grown, rfl⟩
  · have bound := (List.getElem?_eq_some_iff.mp was).1
    rcases unfinished_before stepped thread busy with ⟨w, before, busy'⟩ | last
    · obtain ⟨present, holds⟩ := kept.held i w o before busy' was
      have holds' := step_holds (not_done before busy') marked stepped holds
        (fun begins => stays_waits (begins ▸ stays) before busy' was)
        (fun _ _ _ _ polls user late => stays_patient (polls ▸ stays) user late)
      refine ⟨?_, by simpa only [Holds, pid, addr] using holds'⟩
      rcases same with rfl | rfl
      · exact present
      · -- the owner of an unfinished worker is not at its return
        cases stepped with
        | destroyReturn leaving =>
          rcases holds with live | ⟨joining, _⟩
          · simp [live] at leaving
          · simp [joining] at leaving
    · have := kept.paired
      omega
  · refine ⟨rfl, Or.inl ?_⟩
    simp only [machine, step] at move
    split at move
    · rcases construct_starts (of_locked move).2 with same | ⟨_, live⟩
      · rw [same] at grown
        exact absurd grown (Nat.lt_irrefl _)
      · exact live
    · simp at move

theorem kept_reached {capacity : Nat} {s : Watched}
    (reached : (watched capacity).ReachableBy StaysForWorker s) : Kept s := by
  have both : Kept s ∧ Marked s.base := by
    refine invariant_of_steps (fun s => Kept s ∧ Marked s.base) ?_ ?_ reached
    · rintro s ⟨⟨protbl, payload, first⟩, none_owned⟩
      refine ⟨⟨by simp [none_owned, first, initial], ?_⟩, ?_⟩
      · intro i w o thread
        simp [first, initial] at thread
      · intro pid addr slot stops
        exact absurd stops (free_stops (by rw [first]; rfl))
    · rintro s a t ⟨kept, marked⟩ stays stepped
      obtain ⟨base, move, rfl⟩ := Option.map_eq_some_iff.mp stepped
      exact ⟨step_kept kept marked stays move, step_marked marked (step_stepped move)⟩
  exact both.1

/-- When the owner of a running worker goes last and gives it time, it outlives the worker. -/
theorem worker_owner_outlives {capacity : Nat} {s : Watched}
    (reached : (watched capacity).ReachableBy StaysForWorker s) : OwnerOutlives s := by
  have kept := kept_reached reached
  intro i w thread busy
  have bound := (List.getElem?_eq_some_iff.mp thread).1
  rw [← kept.paired] at bound
  refine ⟨s.owners[i], List.getElem?_eq_getElem bound, ?_⟩
  exact (kept.held i w s.owners[i] thread busy (List.getElem?_eq_getElem bound)).1

def firstDestroyedLast : List Action :=
  [.construct 5 100 [7] [entrySeven], .construct 5 101 [8] [entrySeven, entryEight],
    .worker 0 .find, .worker 0 .test, .worker 0 .wait, .destroyBegin 5 101,
    .destroyPurge 5 101 [] [mailAtomInit, entrySeven], .destroyReturn 5 101, .destroyBegin 5 100,
    .destroySignal, .destroyPoll]

theorem first_destroyed_last_outlives : ∃ s, (watched 22).runBy
    (fun s a => decide (StaysForWorker s a)) ⟨zeroed, []⟩ firstDestroyedLast = some s ∧
      OwnerOutlives s := by
  obtain ⟨s, executed, reached⟩ := guarded_ends (m := watched 22) StaysForWorker firstDestroyedLast
    (s := ⟨zeroed, []⟩) ⟨zeroed_initial 22, rfl⟩ (by decide +kernel)
  exact ⟨s, executed, worker_owner_outlives reached⟩

end SharedOwners
