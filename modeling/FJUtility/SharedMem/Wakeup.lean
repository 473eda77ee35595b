import FJUtility.SharedMem.MailGuarantees
import FJUtility.SharedMem.Registry
import FJUtility.SharedMem.Traffic

/- The wake-up of a worker that has mail. The worker waits without looking at queue_, so what
   counts is where it stands when the broadcast of _notify reaches its entry. -/
namespace SharedWakeup
open LabelledMachine AgentList FixMap SharedRegion SharedTables SharedProcesses SharedSteps
open SharedRegistry SharedTraffic SharedGuarantees

/-- The worker of a registered, running process P waits, no wake-up for P is under way, and
    queue_ has no mail for P. -/
def NoSleepingMail (P : Nat) (s : State) : Prop :=
  ∀ p w, lookup s.region.protbl P = some p → p.running = true → s.workers[p.worker]? = some w →
    w.pos = .waiting → P ∉ pendingPids s → ∀ m ∈ s.region.queue.items, m.pid ≠ P

def notifiedTooEarly : List Action :=
  [.construct 5 100 [7] [entrySeven], .construct 6 200 [] [entrySeven],
    .notify 200 ⟨6, 200, 7, none, 0⟩ (fun _ => 10), .broadcast, .worker 0 .find, .worker 0 .test,
    .worker 0 .wait]

theorem notified_too_early_sleeps :
    ¬ ∀ P s, (machine 22).Reachable s → NoSleepingMail P s := by
  intro never
  obtain ⟨s, reached, shown⟩ := run_shows notifiedTooEarly (zeroed_initial 22)
    (fun s : State => (lookup s.region.protbl 5 == some (ProAtom.mk 1 0 true false)) &&
      (s.workers == [WorkerThread.mk 5 (some 0) .waiting]) && (pendingPids s == []) &&
      s.region.queue.items.any fun m => m.pid == 5) (by decide +kernel)
  simp only [Bool.and_eq_true, beq_iff_eq, List.any_eq_true] at shown
  obtain ⟨⟨⟨entry, threads⟩, quiet⟩, m, queued, pid⟩ := shown
  exact never 5 s reached _ _ entry rfl (by rw [threads]; rfl) rfl (by simp [quiet]) m queued pid

/-- The worker will look at queue_ before it waits again, or has left its loop. -/
def onItsWay : WorkerPos → Bool
  | .woken | .toDrain | .exiting | .done | .crashed => true
  | _ => false

def startsWorker (P : Nat) (s : State) : Bool :=
  match findIndex s.region.protbl P with
  | some slot => decide ((countedUp (proAtomAt s slot)).refcount = 1)
  | none => true

/-- The broadcast on the entry at slot reaches the worker of that entry in time. -/
def caught (slot : Nat) (s : State) : Bool :=
  !(proAtomAt s slot).workerDone && (s.workers[(proAtomAt s slot).worker]?).any fun w =>
    onItsWay w.pos || (decide (w.pos = .waiting) && decide (w.slot = some slot))

/-- A broadcast for P misses its worker, or a worker for P starts with mail in queue_. -/
def misses (P : Nat) (s : State) : Action → Bool
  | .construct pid addr list result => decide (pid = P) && startsWorker P s &&
      needsWorker pid addr list result s && s.region.queue.items.any fun m => decide (m.pid = P)
  | .broadcast =>
    match s.user, findIndex s.region.protbl P with
    | some (.broadcasting (pid :: _)), some slot =>
      decide (pid = P) && (proAtomAt s slot).running && !caught slot s
    | _, _ => false
  | _ => false

def WakesInTime (P : Nat) (s : State) (a : Action) : Prop := misses P s a = false

instance (P : Nat) (s : State) (a : Action) : Decidable (WakesInTime P s a) :=
  inferInstanceAs (Decidable (_ = _))

inductive EntryStep (P : Nat) (s t : State) (a : Action) (p' : ProAtom) : Prop where
  | kept {p : ProAtom} (was : lookup s.region.protbl P = some p) (ran : p.running = true)
      (same : p'.worker = p.worker)
  | started {addr : Nat} {list : List Nat} {result : List MailAtom}
      (construct : a = .construct P addr list result)
      (needs : needsWorker P addr list result s = true) (starts : startsWorker P s = true)
      (new : t.workers[p'.worker]? = some ⟨P, none, .starting⟩)

theorem step_entry {capacity P : Nat} {s t : State} {a : Action} {p' : ProAtom}
    (sorted : Sorted s.region.protbl) (stepped : Stepped capacity s a t)
    (is : lookup t.region.protbl P = some p') (runs : p'.running = true) : EntryStep P s t a p' := by
  cases step_change sorted stepped is with
  | kept was running worker => exact .kept was (running ▸ runs) worker
  | started construct needs first running untold new =>
    refine .started construct needs ?_ new
    unfold startsWorker
    split
    · rename_i slot found
      simp [first slot found]
    · rfl
  | stopped was user halted => simp [halted] at runs
  | ended own thread here found same =>
    subst same
    exact .kept (lookup_found found) runs rfl

def Staffed (P : Nat) (s : State) : Prop :=
  ∀ p, lookup s.region.protbl P = some p → p.running = true →
    ∃ w, s.workers[p.worker]? = some w ∧ w.pid = P

theorem step_staffed {capacity P : Nat} {s t : State} {a : Action} (sorted : Sorted s.region.protbl)
    (before : Staffed P s) (stepped : Stepped capacity s a t) : Staffed P t := by
  intro p' is runs
  cases step_entry sorted stepped is runs with
  | kept was ran same =>
    obtain ⟨w, thread, pid⟩ := before _ was ran
    obtain ⟨w', after, kept⟩ := step_keeps_thread stepped thread
    exact ⟨w', same ▸ after, kept.trans pid⟩
  | started construct needs starts new => exact ⟨_, new, rfl⟩

theorem staffed_reached {capacity P : Nat} {guard : State → Action → Prop} {s : State}
    (reached : (machine capacity).ReachableBy guard s) : Staffed P s := by
  refine invariant_along (fun s => Sorted s.region.protbl) (Staffed P) (fun _ => sorted_reached)
    ?_ ?_ reached
  · rintro s ⟨protbl, payload, rfl⟩ p is
    simp [initial, initSharedRegion, lookup, findIndex, findIndexFrom] at is
  · exact fun s a t sorted before _ stepped => step_staffed sorted before (step_stepped stepped)

def Objects (s : State) : Prop :=
  (∀ m ∈ s.region.listen.items, m.obj ≠ 0) ∧ ∀ m ∈ s.region.queue.items, m.obj ≠ 0

theorem objects_reached {capacity : Nat} {guard : State → Action → Prop} {s : State}
    (reached : (machine capacity).ReachableBy guard s) : Objects s := by
  apply invariant_of_steps Objects _ _ reached
  · rintro s ⟨protbl, payload, rfl⟩
    simp [Objects, initial, initSharedRegion, FixVector.empty]
  · rintro s a t ⟨listed, queued⟩ _ stepped
    refine ⟨fun m member => ?_, fun m member => ?_⟩
    · rcases step_listen (step_stepped stepped) member with old | ⟨object, _⟩
      · exact listed m old
      · exact object
    · rcases step_queue (step_stepped stepped) member with old | ⟨_, entry, present, same, _⟩
      · exact queued m old
      · exact same ▸ listed entry present

/-- The invariant: a running worker of P that is not on its way to queue_ has no mail there. -/
def Attended (P : Nat) (s : State) : Prop :=
  ∀ p w, lookup s.region.protbl P = some p → p.running = true → s.workers[p.worker]? = some w →
    onItsWay w.pos = false → P ∉ pendingPids s → ∀ m ∈ s.region.queue.items, m.pid ≠ P

theorem moved_onItsWay {s t : State} {j : Nat} {w w' : WorkerThread} {act : WorkerAct}
    (was : s.workers[j]? = some w) (moves : WorkerMoved j w s act t)
    (is : t.workers[j]? = some w') (off : onItsWay w'.pos = false) :
    onItsWay w.pos = false ∨ ∃ locals, Drained w.pid s.region locals t.region := by
  cases moves with
  | drain here free drained => exact Or.inr ⟨_, drain_drained drained⟩
  | crash here | stop here | spurious here | retest here | stopWoken here | finish here =>
    rw [set_at was is] at off
    simp [onItsWay] at off
  | find here | test here | wait here | idle here | skip here | checked here | unchecked here
  | invoke here | comeBackWithData here | comeBack here | mark here =>
    exact Or.inl (by simp [here, onItsWay])

/-- While P is still to be woken and the broadcast is in time, its round takes effect. -/
theorem round_catches {P pid : Nat} {rest : List Nat} {s t : State} {p : ProAtom} {w : WorkerThread}
    (user : s.user = some (.broadcasting (pid :: rest))) (rounded : Rounded pid rest s t)
    (timely : WakesInTime P s .broadcast) (entry : lookup s.region.protbl P = some p)
    (runs : p.running = true) (thread : s.workers[p.worker]? = some w)
    (before : P ∈ pendingPids s) (after : P ∉ pendingPids t) :
    onItsWay w.pos = true ∨ t.workers[p.worker]? = some { w with pos := .woken } := by
  have next : pendingPids t = rest := by
    by_cases last : rest = [] <;> simp [pendingPids, rounded_user rounded, afterRound, last]
  have here : P = pid := by
    simp only [pendingPids, user, List.mem_cons] at before
    exact before.resolve_right (next ▸ after)
  subst here
  obtain ⟨slot, found, rfl⟩ := Option.map_eq_some_iff.mp entry
  have caughtNow : caught slot s = true := by
    have running : (proAtomAt s slot).running = true := runs
    simpa [WakesInTime, misses, user, found, running] using timely
  simp only [caught, Bool.and_eq_true, Bool.not_eq_true'] at caughtNow
  obtain ⟨working, stands⟩ := caughtNow
  have thread' : s.workers[(proAtomAt s slot).worker]? = some w := thread
  rw [thread', Option.any_some] at stands
  simp only [Bool.or_eq_true, Bool.and_eq_true, decide_eq_true_eq] at stands
  rcases stands with way | ⟨waits, cached⟩
  · exact Or.inl way
  · right
    cases rounded with
    | @woke slot' found' _ _ =>
      rw [found, Option.some.injEq] at found'
      subst found'
      simp [wakeSlot, thread, waits, cached]
    | passed idle =>
      have := idle slot found runs
      simp [working] at this

theorem pending_before {capacity P : Nat} {s t : State} {a : Action} (stepped : Stepped capacity s a t)
    (after : P ∉ pendingPids t) (before : P ∈ pendingPids s) :
    ∃ pid rest, a = .broadcast ∧ s.user = some (.broadcasting (pid :: rest)) ∧
      Rounded pid rest s t := by
  have held : s.user ≠ none := fun free => by simp [pendingPids, free] at before
  have kept : t.user = s.user → P ∈ pendingPids t := by
    intro same
    simpa [pendingPids, same] using before
  cases stepped with
  | broadcast user rounded => exact ⟨_, _, rfl, user, rounded⟩
  | construct object unused free constructed => exact absurd free held
  | addScalar object free | addList object free => exact absurd free held
  | notify free | collect free => exact absurd free held
  | destroyBegin live free | destroyPurge leaving free => exact absurd free held
  | destroySignal user | destroyPoll user => simp [pendingPids, user] at before
  | rejectScalar | rejectList | destroyReturn => exact absurd (kept rfl) after
  | worker thread moved =>
    apply absurd (kept _) after
    cases moved <;> rfl

theorem thread_attended {capacity P : Nat} {s t : State} {a : Action} {p : ProAtom}
    {w' : WorkerThread} (before : Attended P s) (staffed : Staffed P s) (objects : Objects s)
    (timely : WakesInTime P s a) (stepped : Stepped capacity s a t)
    (was : lookup s.region.protbl P = some p) (ran : p.running = true)
    (is : t.workers[p.worker]? = some w') (off : onItsWay w'.pos = false)
    (quiet : P ∉ pendingPids t) {m : MailAtom} (old : m ∈ s.region.queue.items)
    (queued : m ∈ t.region.queue.items) : m.pid ≠ P := by
  obtain ⟨w, thread, pid⟩ := staffed p was ran
  by_cases waking : P ∈ pendingPids s
  · obtain ⟨pid', rest, rfl, user, rounded⟩ := pending_before stepped quiet waking
    have same : onItsWay w.pos = true → w' = w := by
      intro way
      cases step_thread stepped is with
      | same was' => exact Option.some.inj (was'.symm.trans thread)
      | woken was' waits is' =>
        rw [thread, Option.some.injEq] at was'
        rw [was', waits] at way
        simp [onItsWay] at way
      | moved was' own => cases own
      | started construct => cases construct
    rcases round_catches user rounded timely was ran thread waking quiet with way | woken
    · simp [same way, way] at off
    · rw [woken, Option.some.injEq] at is
      simp [← is, onItsWay] at off
  · cases step_thread stepped is with
    | same was' => exact before p w' was ran was' off waking m old
    | woken was' waits is' => simp [is', onItsWay] at off
    | started construct last =>
      have := (List.getElem?_eq_some_iff.mp thread).1
      omega
    | @moved x act was' own moves is' =>
      rw [thread, Option.some.injEq] at was'
      subst was'
      rcases moved_onItsWay thread moves is' off with off' | ⟨locals, drained⟩
      · exact before p w was ran thread off' waking m old
      · have kept := (List.mem_filter.mp (drained.left.mem_iff.mp queued)).2
        simp only [isMine, Bool.and_eq_true, Bool.not_eq_true', decide_eq_true_eq] at kept
        intro same
        simp [kept.1, objects.2 m old, same, pid] at kept

theorem step_attended {capacity P : Nat} {s t : State} {a : Action} (sorted : Sorted s.region.protbl)
    (staffed : Staffed P s) (objects : Objects s) (before : Attended P s)
    (timely : WakesInTime P s a) (stepped : Stepped capacity s a t) : Attended P t := by
  intro p' w' entry runs is off quiet m queued
  rcases step_queue stepped queued with old | ⟨waking, _⟩
  · cases step_entry sorted stepped entry runs with
    | @kept p was ran same =>
      exact thread_attended before staffed objects timely stepped was ran (same ▸ is) off quiet old
        queued
    | started construct needs starts new =>
      subst construct
      intro pid
      have empty : ¬ s.region.queue.items.any (fun m => decide (m.pid = P)) = true := by
        simpa [WakesInTime, misses, starts, needs] using timely
      exact empty (List.any_eq_true.mpr ⟨m, old, by simp [pid]⟩)
  · exact fun pid => quiet (pid ▸ waking)

theorem attended_reached {capacity P : Nat} {s : State}
    (reached : (machine capacity).ReachableBy (WakesInTime P) s) : Attended P s := by
  apply invariant_along (fun s => Sorted s.region.protbl ∧ Staffed P s ∧ Objects s) (Attended P)
    _ _ _ reached
  · exact fun s reached => ⟨sorted_reached reached, staffed_reached reached, objects_reached reached⟩
  · rintro s ⟨protbl, payload, rfl⟩ p w _ _ _ _ _ m member
    simp [initial, initSharedRegion, FixVector.empty] at member
  · rintro s a t ⟨sorted, staffed, objects⟩ before timely stepped
    exact step_attended sorted staffed objects before timely (step_stepped stepped)

/-- As long as broadcasts reach their worker in time, no worker sleeps on its mail. -/
theorem no_sleeping_mail {capacity P : Nat} {s : State}
    (reached : (machine capacity).ReachableBy (WakesInTime P) s) : NoSleepingMail P s := by
  intro p w entry runs thread waits quiet
  exact attended_reached reached p w entry runs thread (by simp [waits, onItsWay]) quiet

def notifiedInTime : List Action :=
  [.construct 5 100 [7] [entrySeven], .construct 6 200 [] [entrySeven], .worker 0 .find,
    .worker 0 .test, .worker 0 .wait, .notify 200 ⟨6, 200, 7, none, 0⟩ (fun _ => 10), .broadcast,
    .worker 0 .retest, .worker 0 (.drain [mailAtomInit]), .worker 0 .next, .worker 0 .invoke,
    .worker 0 .comeBack, .worker 0 .next, .worker 0 .test, .worker 0 .wait]

theorem notified_in_time_awake :
    ∃ s, (machine 22).runBy (fun s a => decide (WakesInTime 5 s a)) zeroed notifiedInTime = some s ∧
      NoSleepingMail 5 s := by
  obtain ⟨s, executed, reached⟩ := guarded_ends (WakesInTime 5) notifiedInTime (zeroed_initial 22)
    (by decide +kernel)
  exact ⟨s, executed, no_sleeping_mail reached⟩

end SharedWakeup
