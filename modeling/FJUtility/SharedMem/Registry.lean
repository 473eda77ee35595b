import FJUtility.Library.AgentList
import FJUtility.SharedMem.Steps

/- The address of its entry that a worker keeps from protbl.find(pid_), against the moves of
   entries that other processes cause in protbl_. -/
namespace SharedRegistry
open LabelledMachine AgentList FixMap SharedRegion SharedTables SharedProcesses SharedSteps

def Uses (P : Nat) (w : WorkerThread) (slot : Nat) : Prop :=
  w.pid = P ∧ w.slot = some slot ∧ w.pos ≠ .done

/-- While P is registered, the address its worker keeps is that of the entry of P. -/
def CachesEntry (P : Nat) (s : State) : Prop :=
  ∀ w ∈ s.workers, ∀ slot, Uses P w slot → Present s.region.protbl P →
    slot < s.region.protbl.count ∧ (s.region.protbl.entries slot).key = P

def entryNine : MailAtom := ⟨9, 300, 3, none, 0⟩
def entrySevenOf (pid : Nat) : MailAtom := ⟨7, 100, pid, none, 0⟩

def smallerPidLater : List Action :=
  [.construct 5 100 [7] [entrySevenOf 5], .worker 0 .find,
    .construct 3 300 [9] [entrySevenOf 5, entryNine]]

theorem smaller_pid_moves_entry : ¬ ∀ P s, (machine 22).Reachable s → CachesEntry P s := by
  intro caches
  obtain ⟨s, reached, shown⟩ := run_shows smallerPidLater (zeroed_initial 22)
    (fun s : State => decide (s.workers[0]? = some (WorkerThread.mk 5 (some 0) .looping)) &&
      decide ((s.region.protbl.entries 0).key = 3) && decide ((s.region.protbl.entries 1).key = 5) &&
      decide (1 < s.region.protbl.count)) (by decide +kernel)
  simp only [Bool.and_eq_true, decide_eq_true_eq] at shown
  obtain ⟨⟨⟨thread, first⟩, second⟩, two⟩ := shown
  have kept := caches 5 s reached _ (List.mem_of_getElem? thread) 0 ⟨rfl, rfl, by simp⟩
    ⟨1, two, second⟩
  omega

def ShiftsBelow (P : Nat) (s : State) : Action → Bool
  | .construct pid addr list result => decide (pid < P) &&
      decide (findIndex s.region.protbl pid = none) && needsWorker pid addr list result s
  | .destroyPoll =>
    match s.user with
    | some (.joining pid _ slot polls) => decide (pid < P) &&
        ((proAtomAt s slot).workerDone || decide (¬ polls < timeoutMs))
    | _ => false
  | _ => false

/-- The condition on registrations: no process with a smaller pid registers or leaves while a
    worker of P uses the address of its entry. -/
def KeepsPlace (P : Nat) (s : State) (a : Action) : Prop :=
  ShiftsBelow P s a = true → ∀ w ∈ s.workers, w.pid = P → w.slot = none ∨ w.pos = .done

instance (P : Nat) (s : State) (a : Action) : Decidable (KeepsPlace P s a) :=
  inferInstanceAs (Decidable (_ → ∀ _ ∈ _, _ → _))

theorem table_sorted {capacity : Nat} {s : State} {a : Action} {protbl : FJFixMap ProAtom}
    (table : TableStep capacity s a protbl) (sorted : Sorted s.region.protbl) : Sorted protbl := by
  cases table with
  | same => exact sorted
  | written slot p => exact write_sorted sorted slot p
  | entered p p' needs absent inserted =>
    exact write_sorted (write_sorted (insert_sorted sorted inserted) _ _) _ _
  | removed user gone => exact unset_sorted sorted _

theorem sorted_reached {capacity : Nat} {guard : State → Action → Prop} {s : State}
    (reached : (machine capacity).ReachableBy guard s) : Sorted s.region.protbl := by
  refine invariant_of_steps (fun s => Sorted s.region.protbl) ?_ ?_ reached
  · rintro s ⟨protbl, payload, rfl⟩ i j _ bound
    exact absurd bound (Nat.not_lt_zero _)
  · exact fun s a t sorted _ stepped => table_sorted (step_table (step_stepped stepped)) sorted

theorem lookup_found {s : State} {pid slot : Nat}
    (found : findIndex s.region.protbl pid = some slot) :
    lookup s.region.protbl pid = some (proAtomAt s slot) := by
  simp [lookup, found, proAtomAt]

/-- Where the entry of P comes from that is there after a step: it kept its flags and its worker,
    is new or revived with a new worker, was told to stop, or had its worker_done_ set by the
    thread that ends through its address. -/
inductive EntryChange (P : Nat) (s t : State) (a : Action) (p' : ProAtom) : Prop where
  | kept {p : ProAtom} (was : lookup s.region.protbl P = some p) (running : p'.running = p.running)
      (worker : p'.worker = p.worker) (told : p'.workerDone = p.workerDone)
  | started {addr : Nat} {list : List Nat} {result : List MailAtom}
      (construct : a = .construct P addr list result)
      (needs : needsWorker P addr list result s = true)
      (first : ∀ slot, findIndex s.region.protbl P = some slot →
        (countedUp (proAtomAt s slot)).refcount = 1)
      (running : p'.running = true) (untold : p'.workerDone = false)
      (new : t.workers[p'.worker]? = some ⟨P, none, .starting⟩)
  | stopped {p : ProAtom} {addr slot : Nat} (was : lookup s.region.protbl P = some p)
      (user : t.user = some (.stopping P addr slot)) (halted : p'.running = false)
      (worker : p'.worker = p.worker) (told : p'.workerDone = p.workerDone)
  | ended {i : Nat} {w : WorkerThread} (own : a = .worker i .finish)
      (thread : s.workers[i]? = some w) (here : w.pos = .exiting)
      (found : findIndex s.region.protbl P = some (w.slot.getD 0))
      (same : p' = { proAtomAt s (w.slot.getD 0) with workerDone := true })

theorem written_change {P slot : Nat} {s t : State} {a : Action} {p p' : ProAtom}
    (is : lookup (write s.region.protbl slot p) P = some p')
    (running : p.running = (proAtomAt s slot).running)
    (worker : p.worker = (proAtomAt s slot).worker)
    (told : p.workerDone = (proAtomAt s slot).workerDone) : EntryChange P s t a p' := by
  rw [lookup_write] at is
  split at is
  · rename_i found
    obtain rfl := Option.some.inj is
    exact .kept (lookup_found found) running worker told
  · exact .kept is rfl rfl rfl

theorem constructed_change {capacity P pid addr : Nat} {list : List Nat} {result : List MailAtom}
    {s t : State} {p' : ProAtom} (sorted : Sorted s.region.protbl)
    (constructed : Constructed capacity pid addr list result s t)
    (is : lookup t.region.protbl P = some p') :
    EntryChange P s t (.construct pid addr list result) p' := by
  have new : s.workers ++ [⟨pid, none, .starting⟩] = t.workers →
      t.workers[s.workers.length]? = some ⟨pid, none, .starting⟩ := by
    intro workers
    simp [← workers]
  rcases constructed.registered with ⟨same, _⟩ | ⟨needs, retained⟩
  · exact .kept (same ▸ is) rfl rfl rfl
  · generalize grown : t.workers = workers at retained
    generalize t.region.protbl = protbl at retained is
    cases retained with
    | counted found later => exact written_change is rfl rfl rfl
    | @revived slot found first =>
      rw [lookup_write] at is
      split at is
      · rename_i here
        obtain rfl := Option.some.inj is
        have same : P = pid := by
          have one := ((findIndex_eq_some sorted).mp here).2
          have two := ((findIndex_eq_some sorted).mp found).2
          exact one.symm.trans two
        subst same
        refine .started rfl needs (fun place at_ => ?_) rfl rfl (new grown.symm)
        obtain rfl := Option.some.inj (at_.symm.trans found)
        exact first
      · exact .kept is rfl rfl rfl
    | @entered slot protbl absent inserted =>
      have sorted' := insert_sorted sorted inserted
      have here := insert_at sorted inserted
      by_cases same : P = pid
      · subst same
        have place := (findIndex_eq_some sorted').mpr here
        rw [lookup_write, findIndex_write, if_pos place, Option.some.injEq] at is
        subst is
        refine .started rfl needs (fun place at_ => ?_) rfl rfl (new grown.symm)
        simp [absent] at at_
      · have elsewhere : findIndex protbl P ≠ some slot := by
          intro found
          exact same (((findIndex_eq_some sorted').mp found).2.symm.trans here.2)
        rw [lookup_write, findIndex_write, if_neg elsewhere, lookup_write, if_neg elsewhere,
          lookup_insert sorted inserted same] at is
        exact .kept is rfl rfl rfl

theorem removed_change {P pid : Nat} {s t : State} {a : Action} {p' : ProAtom}
    (sorted : Sorted s.region.protbl) (is : lookup (unset s.region.protbl pid).1 P = some p') :
    EntryChange P s t a p' := by
  by_cases same : P = pid
  · simp [same, lookup_unset_self sorted] at is
  · rw [lookup_unset sorted same] at is
    exact .kept is rfl rfl rfl

theorem begun_change {P pid addr : Nat} {needworker : Bool} {s t : State} {a : Action}
    {p' : ProAtom} (sorted : Sorted s.region.protbl) (begun : Begun pid addr needworker s t)
    (is : lookup t.region.protbl P = some p') : EntryChange P s t a p' := by
  cases begun with
  | leave => exact .kept is rfl rfl rfl
  | counted needs found down others => exact written_change is rfl rfl rfl
  | last needs found down none_left =>
    simp only [lookup_write] at is
    split at is
    · rename_i here
      have same : P = pid := by
        have one := ((findIndex_eq_some sorted).mp here).2
        have two := ((findIndex_eq_some sorted).mp found).2
        exact one.symm.trans two
      subst same
      obtain rfl := Option.some.inj is
      exact .stopped (lookup_found here) rfl rfl rfl rfl
    · exact .kept is rfl rfl rfl

theorem step_change {capacity P : Nat} {s t : State} {a : Action} {p' : ProAtom}
    (sorted : Sorted s.region.protbl) (stepped : Stepped capacity s a t)
    (is : lookup t.region.protbl P = some p') : EntryChange P s t a p' := by
  cases stepped with
  | construct object unused free constructed => exact constructed_change sorted constructed is
  | addScalar object free added | addList object free added =>
    rw [(addListen_listed added).1] at is
    exact .kept is rfl rfl rfl
  | @notify self n clock free fits =>
    simp only [notifyLocked, (SharedSending.notify_same n clock s.region s.sent).protbl] at is
    exact .kept is rfl rfl rfl
  | broadcast user rounded => cases rounded <;> exact .kept is rfl rfl rfl
  | destroyBegin live free begun => exact begun_change sorted begun is
  | destroyPoll user polled =>
    cases polled with
    | joined | timedOut => exact removed_change sorted is
    | waited => exact .kept is rfl rfl rfl
  | destroyPurge leaving free left =>
    cases left with
    | purged tables counted =>
      simp only at is
      rw [tables.tables] at is
      exact .kept is rfl rfl rfl
    | plain counted => exact .kept is rfl rfl rfl
  | worker thread moved =>
    cases moved with
    | drain here free drained =>
      simp only [moveWorker] at is
      rw [(drain_drained drained).tables] at is
      exact .kept is rfl rfl rfl
    | mark here free =>
      simp only [moveWorker, markMail_table] at is
      exact .kept is rfl rfl rfl
    | finish here =>
      simp only [moveWorker, writeSlot, lookup_write] at is
      split at is
      · rename_i found
        exact .ended rfl thread here found (Option.some.inj is).symm
      · exact .kept is rfl rfl rfl
    | _ => exact .kept is rfl rfl rfl
  | rejectScalar | rejectList | collect | destroySignal | destroyReturn =>
    exact .kept is rfl rfl rfl

/-- A step that does not shift what is below P keeps the place of P, taken or not. -/
theorem table_cut {capacity P r : Nat} {s : State} {a : Action} {protbl : FJFixMap ProAtom}
    (table : TableStep capacity s a protbl) (sorted : Sorted s.region.protbl)
    (still : ShiftsBelow P s a = false) (cut : Cut s.region.protbl P r) : Cut protbl P r := by
  cases table with
  | same => exact cut
  | written slot p => exact write_cut.mpr cut
  | @entered pid addr slot list result protbl p p' needs absent inserted =>
    apply write_cut.mpr (write_cut.mpr (insert_cut sorted inserted cut _))
    simpa [ShiftsBelow, absent, needs] using still
  | @removed pid addr slot polls user gone =>
    apply unset_cut sorted cut
    have done : ((proAtomAt s slot).workerDone || decide (¬ polls < timeoutMs)) = true := by
      simpa using gone
    simp only [ShiftsBelow, user, done, Bool.and_true, decide_eq_false_iff_not] at still
    omega

theorem uses_before {s t : State} {a : Action} {j P slot : Nat} {w' : WorkerThread}
    (thread : ThreadStep s t a j w') (uses : Uses P w' slot) :
    (∃ w ∈ s.workers, Uses P w slot) ∨
      findIndex s.region.protbl P = some slot ∧ ShiftsBelow P s a = false := by
  obtain ⟨pid, cached, busy⟩ := uses
  cases thread with
  | same was => exact Or.inl ⟨w', List.mem_of_getElem? was, pid, cached, busy⟩
  | @woken w was waits is =>
    subst is
    exact Or.inl ⟨w, List.mem_of_getElem? was, pid, cached, by simp [waits]⟩
  | @moved w act was own moves is =>
    obtain ⟨w'', set, samePid, before, sameSlot⟩ := moved_set moves
    have same := set_at was (set ▸ is)
    subst same
    rcases sameSlot with kept | ⟨found, new, registered⟩
    · exact Or.inl ⟨w, List.mem_of_getElem? was, samePid ▸ pid, kept ▸ cached, before⟩
    · rw [new, Option.some.injEq] at cached
      rw [← samePid, pid, cached] at registered
      exact Or.inr ⟨registered, by rw [own]; rfl⟩
  | started construct last is =>
    rw [is] at cached
    simp at cached

def CachesPlace (P : Nat) (s : State) : Prop :=
  ∀ w ∈ s.workers, ∀ slot, Uses P w slot → Cut s.region.protbl P slot

theorem step_place {capacity P : Nat} {s t : State} {a : Action} (sorted : Sorted s.region.protbl)
    (before : CachesPlace P s) (keeps : KeepsPlace P s a) (stepped : Stepped capacity s a t) :
    CachesPlace P t := by
  intro w' member slot uses
  obtain ⟨j, is⟩ := List.mem_iff_getElem?.mp member
  have table := step_table stepped
  rcases uses_before (step_thread stepped is) uses with ⟨w, was, used⟩ | ⟨found, still⟩
  · apply table_cut table sorted _ (before w was slot used)
    apply Bool.eq_false_iff.mpr
    intro shifts
    rcases keeps shifts w was used.1 with uncached | ended
    · simp [used.2.1] at uncached
    · exact used.2.2 ended
  · obtain ⟨inside, key⟩ := (findIndex_eq_some sorted).mp found
    exact table_cut table sorted still (key ▸ cut_of_key sorted inside)

/-- As long as registrations keep its place, the address of a worker is that of its entry. -/
theorem worker_caches_entry {capacity P : Nat} {s : State}
    (reached : (machine capacity).ReachableBy (KeepsPlace P) s) : CachesEntry P s := by
  have place : CachesPlace P s := by
    refine invariant_along (fun s => Sorted s.region.protbl) (CachesPlace P)
      (fun _ => sorted_reached) ?_ ?_ reached
    · rintro s ⟨protbl, payload, rfl⟩ w member
      simp [initial] at member
    · exact fun s a t sorted before keeps stepped =>
        step_place sorted before keeps (step_stepped stepped)
  intro w member slot uses present
  exact key_at_cut (sorted_reached reached) (place w member slot uses) present

def largerPidLater : List Action :=
  [.construct 3 300 [9] [entryNine], .construct 5 100 [7] [entrySevenOf 5, entryNine],
    .worker 1 .find, .construct 6 100 [7] [entrySevenOf 5, entrySevenOf 6, entryNine]]

theorem larger_pid_keeps_entry :
    ∃ s, (machine 22).runBy (fun s a => decide (KeepsPlace 5 s a)) zeroed largerPidLater =
      some s ∧ CachesEntry 5 s := by
  obtain ⟨s, executed, reached⟩ := guarded_ends (KeepsPlace 5) largerPidLater (zeroed_initial 22)
    (by decide +kernel)
  exact ⟨s, executed, worker_caches_entry reached⟩

end SharedRegistry
