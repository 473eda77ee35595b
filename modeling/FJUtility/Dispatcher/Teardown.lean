import FJUtility.Dispatcher.Draining
import FJUtility.Dispatcher.Monitor

/- The destructor against the threads it stops: it comes to its end, and when it destroys the
   mutexes nobody is left to use them. -/
namespace DispatchTeardown
open LabelledMachine DispatchSteps DispatchView DispatchDraining DispatchMonitor AgentList
open DispatchPool hiding State Action step machine
variable {Obj : Type}

def workerLeft (w : Worker Obj) : Nat :=
  match w.pos with
  | .awake => 1
  | .blocked => 0
  | .taken _ _ => 4
  | .executing _ _ => 3
  | .ended _ _ => 2
  | .exited => 0

def monitorLeft : MonitorPos → Nat
  | .testing => 1
  | .scanning => 3
  | .sleeping => 2
  | .ended => 0

def closeLeft (n : Nat) : ClosePos → Nat
  | .alive => n + 3
  | .joiningMonitor => n + 2
  | .joining k => n + 1 - k
  | .closed => 0

def remaining (s : State Obj) : Nat :=
  (s.pool.workers.map workerLeft).sum + monitorLeft s.monitor +
    closeLeft s.pool.workers.length s.closing

def owns : Action Obj → Bool
  | .pool a => serves a
  | _ => true

def pushes (s : DispatchPool.State Obj) : DispatchPool.Action Obj → Bool
  | .postQueue obj _ _ isseq _ _ => !(s.instanceMap obj).running || !isseq
  | .postEvent obj _ _ _ _ | .enqueueTask obj _ _ _ => !(s.instanceMap obj).running
  | _ => false

/-- A post made after stop_ is set finds workers_ large enough, so that it starts no thread. -/
def Roomy (s : State Obj) : Action Obj → Prop
  | .pool a => posts a = true → s.pool.stop = true →
      s.pool.readyInstances.length + (if pushes s.pool a then 1 else 0) ≤ s.pool.numOfThreads ∨
        maxThreads ≤ s.pool.numOfThreads
  | _ => True

instance (s : State Obj) (a : Action Obj) :
    Decidable (Roomy s a) :=
  match a with
  | .pool _ => inferInstanceAs (Decidable (_ → _ → _ ∨ _))
  | .test | .scan _ | .wake | .destroy => isTrue trivial

def NoneBlocked (workers : List (Worker Obj)) : Prop := ∀ w ∈ workers, w.pos ≠ .blocked

theorem wake_none {workers : List (Worker Obj)} (awake : NoneBlocked workers) (woken : List Nat) :
    wake woken workers = workers := by
  apply List.ext_getElem?
  intro i
  rw [wake, List.getElem?_mapIdx]
  cases found : workers[i]? with
  | none => rfl
  | some w =>
    have unmoved : w.release = w := by
      unfold Worker.release
      split
      · rename_i blocked
        exact absurd blocked (awake w (List.mem_of_getElem? found))
      · rfl
    simp [unmoved]

theorem stop_releases (workers : List (Worker Obj)) :
    NoneBlocked (workers.map Worker.release) := by
  intro w member
  obtain ⟨v, _, rfl⟩ := List.mem_map.mp member
  unfold Worker.release
  split
  · simp
  · rename_i other
    exact other

theorem set_awake {workers : List (Worker Obj)} (i : Nat) {w' : Worker Obj}
    (awake : NoneBlocked workers) (stays : w'.pos ≠ .blocked) : NoneBlocked (workers.set i w') := by
  intro w member
  rcases List.mem_or_eq_of_mem_set member with before | rfl
  · exact awake w before
  · exact stays

theorem roomy_adjust {u : DispatchPool.State Obj} {now : Nat}
    (roomy : u.readyInstances.length ≤ u.numOfThreads ∨ maxThreads ≤ u.numOfThreads) :
    adjustWorkers now u = u := by
  unfold adjustWorkers
  rw [if_neg]
  omega

structure Winding (s t : DispatchPool.State Obj) : Prop where
  awake : NoneBlocked t.workers
  stopped : t.stop = true
  size : t.workers.length = s.workers.length
  untaken : logged .dequeued t.history = logged .dequeued s.history
  exited : ∀ (j : Nat) v, s.workers[j]? = some v → v.pos = .exited → t.workers[j]? = some v

theorem replaced_winding {s t : DispatchPool.State Obj} {i : Nat} {w w' : Worker Obj}
    (found : s.workers[i]? = some w) (stopped : s.stop = true) (awake : NoneBlocked s.workers)
    (going : w.pos ≠ .exited) (stays : w'.pos ≠ .blocked) (workers : t.workers = s.workers.set i w')
    (stop : t.stop = s.stop)
    (untaken : logged .dequeued t.history = logged .dequeued s.history) : Winding s t := by
  constructor
  case awake => exact workers ▸ set_awake i awake stays
  case stopped => exact stop.trans stopped
  case size => rw [workers, List.length_set]
  case untaken => exact untaken
  case exited =>
    intro j v there ended
    have other : i ≠ j := by
      rintro rfl
      rw [found] at there
      exact going (Option.some.inj there ▸ ended)
    rw [workers, List.getElem?_set_ne other]
    exact there

/-- Each of the workers' own steps leaves one less. -/
theorem worker_winding [DecidableEq Obj] {s t : DispatchPool.State Obj} {i : Nat} {w : Worker Obj}
    {a : DispatchPool.Action Obj} (found : s.workers[i]? = some w) (stopped : s.stop = true)
    (awake : NoneBlocked s.workers) (moved : WorkerMoved i w s a t) :
    Winding s t ∧ (t.workers.map workerLeft).sum + 1 ≤ (s.workers.map workerLeft).sum := by
  have sums := sum_map_set_at workerLeft found
  have goes : ∀ {u : DispatchPool.State Obj} {w' : Worker Obj}, w.pos ≠ .exited →
      w'.pos ≠ .blocked → u.workers = s.workers.set i w' → u.stop = s.stop →
      logged .dequeued u.history = logged .dequeued s.history → workerLeft w' < workerLeft w →
      Winding s u ∧ (u.workers.map workerLeft).sum + 1 ≤ (s.workers.map workerLeft).sum := by
    intro u w' going stays workers stop untaken less
    refine ⟨replaced_winding found stopped awake going stays workers stop untaken, ?_⟩
    have sum := sums w'
    rw [workers]
    omega
  have quiet : ∀ {stage : Stage} {inst : Obj} {task : Task} {ret : Option Int},
      stage ≠ .dequeued → logged .dequeued (s.history ++ [⟨stage, inst, task, ret⟩]) =
        logged .dequeued s.history := by
    intro stage inst task ret other
    simp [logged_append, other]
  cases moved with
  | exited here => exact goes (by simp [here]) (by simp) rfl rfl rfl (by simp [workerLeft, here])
  | slept here runs | passed here runs | took here runs => simp [stopped] at runs
  | spurious here => exact absurd here (awake w (List.mem_of_getElem? found))
  | started here =>
    exact goes (by simp [here]) (by simp) rfl rfl (quiet (by simp)) (by simp [workerLeft, here])
  | ended here =>
    exact goes (by simp [here]) (by simp) rfl rfl (quiet (by simp)) (by simp [workerLeft, here])
  | @readied _ now woken _ _ here =>
    have workers : (wake woken s.workers).set i
        { w with lastActiveMs := now, taskSrcfunc := "", pos := .awake } = s.workers.set i
        { w with lastActiveMs := now, taskSrcfunc := "", pos := .awake } := by
      rw [wake_none awake woken]
    exact goes (by simp [here]) (by simp) workers rfl rfl (by simp [workerLeft, here])
  | drained here => exact goes (by simp [here]) (by simp) rfl rfl rfl (by simp [workerLeft, here])

def joinedCount (s : State Obj) : Nat :=
  match s.closing with
  | .joining k => k
  | .closed => s.pool.workers.length
  | _ => 0

/-- stop_ is set by the destructor, no worker sleeps afterwards, and what has been joined has
    ended. -/
structure Orderly (s : State Obj) : Prop where
  begun : s.closing = .alive ↔ s.pool.stop = false
  awake : s.pool.stop = true → NoneBlocked s.pool.workers
  monitor : s.closing = .alive ∨ s.closing = .joiningMonitor ∨ s.monitor = .ended
  within : joinedCount s ≤ s.pool.workers.length
  joined : ∀ j, j < joinedCount s → ∃ w, s.pool.workers[j]? = some w ∧ w.pos = .exited

theorem closed_exited {s : State Obj} (orderly : Orderly s) (closed : s.closing = .closed) :
    s.monitor = .ended ∧ ∀ w ∈ s.pool.workers, w.pos = .exited := by
  refine ⟨by simpa [closed] using orderly.monitor, ?_⟩
  intro w member
  obtain ⟨j, there⟩ := List.mem_iff_getElem?.mp member
  obtain ⟨inside, _⟩ := List.getElem?_eq_some_iff.mp there
  obtain ⟨v, found, exited⟩ := orderly.joined j (by simpa [joinedCount, closed] using inside)
  rw [there] at found
  exact Option.some.inj found ▸ exited

theorem remaining_le {s : State Obj} (orderly : Orderly s) (stopped : s.pool.stop = true) :
    remaining s ≤ 5 * (s.pool.workers.length + 1) := by
  have workers : ∀ l : List (Worker Obj), (l.map workerLeft).sum ≤ 4 * l.length := by
    intro l
    induction l with
    | nil => exact Nat.le_refl _
    | cons w rest ih =>
      have one : workerLeft w ≤ 4 := by
        unfold workerLeft
        split <;> omega
      simp only [List.map_cons, List.sum_cons, List.length_cons]
      omega
  have monitor : monitorLeft s.monitor ≤ 3 := by
    cases s.monitor <;> simp [monitorLeft]
  have close : closeLeft s.pool.workers.length s.closing ≤ s.pool.workers.length + 2 := by
    cases here : s.closing with
    | alive => simp [orderly.begun.mp here] at stopped
    | joiningMonitor | closed => simp [closeLeft]
    | joining k =>
      simp only [closeLeft]
      omega
  have sum := workers s.pool.workers
  unfold remaining
  omega

section Steps
variable [DecidableEq Obj]

/-- A post after the stop starts no thread and wakes nobody. -/
theorem posted_winding {obj : Obj} {parallel : Bool} {task : Task} {woken : List Nat} {now : Nat}
    {s t : DispatchPool.State Obj} (stopped : s.stop = true) (awake : NoneBlocked s.workers)
    (roomy : s.readyInstances.length + (if !(s.instanceMap obj).running || parallel then 1 else 0) ≤
      s.numOfThreads ∨ maxThreads ≤ s.numOfThreads)
    (posted : postSection parallel obj task woken now s = some t) :
    Winding s t ∧ t.workers = s.workers := by
  obtain ⟨u, entered, rfl⟩ := postSection_posted posted
  obtain ⟨workers, stop, room, untaken⟩ : u.workers = s.workers ∧ u.stop = s.stop ∧
      (u.readyInstances.length ≤ u.numOfThreads ∨ maxThreads ≤ u.numOfThreads) ∧
      logged .dequeued u.history = logged .dequeued s.history := by
    cases entered with
    | readied granted =>
      rw [granted] at roomy
      exact ⟨wake_none awake woken, rfl, by simpa using roomy, by simp [logged_append]⟩
    | queued running sequential =>
      have quiet : s.readyInstances.length ≤ s.numOfThreads ∨ maxThreads ≤ s.numOfThreads := by
        simpa [running, sequential] using roomy
      exact ⟨rfl, rfl, quiet, by simp [logged_append]⟩
  rw [roomy_adjust room]
  refine ⟨⟨workers ▸ awake, stop.trans stopped, by rw [workers], untaken, ?_⟩, workers⟩
  rw [workers]
  exact fun _ _ found _ => found

theorem pool_winding {s : State Obj} {a : DispatchPool.Action Obj} {pool : DispatchPool.State Obj}
    (roomy : Roomy s (.pool a)) (opened : open_ s a = true) (stopped : s.pool.stop = true)
    (awake : NoneBlocked s.pool.workers) (moved : DispatchPool.machine.step s.pool a = some pool) :
    Winding s.pool pool ∧ (pool.workers.map workerLeft).sum + (if serves a then 1 else 0) ≤
      (s.pool.workers.map workerLeft).sum := by
  change DispatchPool.step s.pool a = some pool at moved
  cases a with
  | postQueue =>
    obtain ⟨winding, workers⟩ := posted_winding stopped awake (roomy rfl stopped) moved
    exact ⟨winding, by rw [workers]; simp [serves]⟩
  | postEvent | enqueueTask =>
    obtain ⟨winding, workers⟩ :=
      posted_winding stopped awake (by simpa [pushes] using roomy rfl stopped) moved
    exact ⟨winding, by rw [workers]; simp [serves]⟩
  | getHandle =>
    simp only [DispatchPool.step, Option.some.injEq] at moved
    subst moved
    exact ⟨⟨awake, stopped, rfl, rfl, fun _ _ found _ => found⟩, by simp [getHandle, serves]⟩
  | stop => simp [open_] at opened
  | spurious i =>
    obtain ⟨w, found, stepped⟩ := Option.bind_eq_some_iff.mp moved
    obtain ⟨winding, left⟩ := worker_winding found stopped awake (workerStep_moved stepped)
    exact ⟨winding, by simp [serves]; omega⟩
  | enter i | start i | finishTask i | finish i =>
    obtain ⟨w, found, stepped⟩ := Option.bind_eq_some_iff.mp moved
    obtain ⟨winding, left⟩ := worker_winding found stopped awake (workerStep_moved stepped)
    exact ⟨winding, by simpa [serves] using left⟩

theorem pool_keeps_stop {s : State Obj} {a : DispatchPool.Action Obj}
    {pool : DispatchPool.State Obj} (opened : open_ s a = true)
    (moved : DispatchPool.machine.step s.pool a = some pool) : pool.stop = s.pool.stop := by
  have adjusted : ∀ (now : Nat) (u : DispatchPool.State Obj), (adjustWorkers now u).stop = u.stop := by
    intro now u
    unfold adjustWorkers
    split
    · rfl
    · rfl
  change DispatchPool.step s.pool a = some pool at moved
  cases a with
  | postQueue | postEvent | enqueueTask =>
    obtain ⟨u, entered, rfl⟩ := postSection_posted moved
    rw [adjusted]
    cases entered with
    | readied | queued => rfl
  | getHandle =>
    simp only [DispatchPool.step, Option.some.injEq] at moved
    exact moved ▸ rfl
  | stop => simp [open_] at opened
  | enter | spurious | start | finishTask | finish =>
    obtain ⟨w, found, stepped⟩ := Option.bind_eq_some_iff.mp moved
    cases workerStep_moved stepped <;> rfl

theorem pool_orderly {s : State Obj} {a : DispatchPool.Action Obj} {pool : DispatchPool.State Obj}
    (orderly : Orderly s) (roomy : Roomy s (.pool a)) (opened : open_ s a = true)
    (moved : DispatchPool.machine.step s.pool a = some pool) :
    Orderly { s with
      pool, clock := readClock (reading a) s.clock, since := noteStart a s.since } := by
  obtain ⟨begun, awake, monitor, within, joined⟩ := orderly
  have stop := pool_keeps_stop opened moved
  cases stopped : s.pool.stop with
  | false =>
    have alive : s.closing = .alive := begun.mpr stopped
    constructor
    case begun => simp [alive, stop, stopped]
    case awake => simp [stop, stopped]
    case monitor => exact Or.inl alive
    case within => simp [joinedCount, alive]
    case joined => simp [joinedCount, alive]
  | true =>
    obtain ⟨winding, _⟩ := pool_winding roomy opened stopped (awake stopped) moved
    have same : joinedCount { s with
        pool, clock := readClock (reading a) s.clock, since := noteStart a s.since } =
        joinedCount s := by
      simp only [joinedCount, winding.size]
    constructor
    case begun => simpa [stop] using begun
    case awake => exact fun _ => winding.awake
    case monitor => exact monitor
    case within => rw [same, winding.size]; exact within
    case joined =>
      intro j before
      obtain ⟨w, found, exited⟩ := joined j (same ▸ before)
      exact ⟨w, winding.exited j w found exited, exited⟩

theorem step_orderly {s t : State Obj} {a : Action Obj} (orderly : Orderly s) (roomy : Roomy s a)
    (stepped : machine.step s a = some t) : Orderly t := by
  have before := orderly
  obtain ⟨begun, awake, monitor, within, joined⟩ := before
  cases step_moved stepped with
  | pool opened moved => exact pool_orderly orderly roomy opened moved
  | tested here =>
    have unjoined : s.closing = .alive ∨ s.closing = .joiningMonitor := by
      simpa [here] using monitor
    exact ⟨begun, awake, unjoined.imp_right Or.inl, within, joined⟩
  | scanned here | woken here =>
    have unjoined : s.closing = .alive ∨ s.closing = .joiningMonitor := by
      simpa [here] using monitor
    exact ⟨begun, awake, unjoined.imp_right Or.inl, within, joined⟩
  | stopped here =>
    exact ⟨by simp [stopSection], fun _ => stop_releases _, Or.inr (Or.inl rfl), Nat.zero_le _,
      by simp [joinedCount]⟩
  | joinedMonitor here ended =>
    have stopped : s.pool.stop = true := by simpa [here] using begun
    exact ⟨by simp [stopped], awake, Or.inr (Or.inr ended), Nat.zero_le _, by simp [joinedCount]⟩
  | @joined k w here found exited =>
    have stopped : s.pool.stop = true := by simpa [here] using begun
    have ended : s.monitor = .ended := by simpa [here] using monitor
    obtain ⟨inside, _⟩ := List.getElem?_eq_some_iff.mp found
    refine ⟨by simp [stopped], awake, Or.inr (Or.inr ended), inside, ?_⟩
    intro j upTo
    simp only [joinedCount] at upTo
    rcases Nat.lt_succ_iff_lt_or_eq.mp upTo with earlier | rfl
    · exact joined j (by simpa [joinedCount, here] using earlier)
    · exact ⟨w, found, exited⟩
  | @closed k here past =>
    have stopped : s.pool.stop = true := by simpa [here] using begun
    have ended : s.monitor = .ended := by simpa [here] using monitor
    have all : s.pool.workers.length ≤ k := List.getElem?_eq_none_iff.mp past
    refine ⟨by simp [stopped], awake, Or.inr (Or.inr ended), Nat.le_refl _, ?_⟩
    intro j inside
    have before : j < k := Nat.lt_of_lt_of_le inside all
    exact joined j (by simpa [joinedCount, here] using before)

theorem orderly_reached {s : State Obj} (reached : machine.ReachableBy Roomy s) : Orderly s := by
  apply invariant_of_steps Orderly _ _ reached
  · rintro s ⟨now, n, rfl⟩
    have runs : (create now n : DispatchPool.State Obj).stop = false := by
      induction n with
      | zero => rfl
      | succ n ih => exact ih
    constructor
    case begun => simp [initial, runs]
    case awake => simp [initial, runs]
    case monitor => exact Or.inl rfl
    case within => exact Nat.zero_le _
    case joined => simp [joinedCount, initial]
  · intro s a t orderly roomy stepped
    exact step_orderly orderly roomy stepped

/-- Once the destructor has destroyed the mutexes no thread is left, and nothing can happen. -/
theorem closed_threads_gone {s : State Obj} (reached : machine.ReachableBy Roomy s)
    (closed : s.closing = .closed) :
    (s.monitor = .ended ∧ ∀ w ∈ s.pool.workers, w.pos = .exited) ∧
      ∀ a, machine.step s a = none := by
  obtain ⟨ended, exited⟩ := closed_exited (orderly_reached reached) closed
  refine ⟨⟨ended, exited⟩, ?_⟩
  intro a
  have idle : ∀ i b, workerAt s.pool i b = none := by
    intro i b
    apply Option.bind_eq_none_iff.mpr
    intro w found
    rw [exited w (List.mem_of_getElem? found)]
    cases b <;> rfl
  cases a with
  | pool b =>
    change step s (.pool b) = none
    cases b with
    | postQueue | postEvent | enqueueTask | getHandle | stop =>
      simp [step, open_, posts, closed]
    | enter | spurious | start | finishTask | finish =>
      simp [step, DispatchPool.step, idle]
  | test | scan | wake =>
    simp [machine, step, ended]
  | destroy => simp [machine, step, destroy, closed]

def stoppedInTask : List (Action Nat) :=
  [.pool (.enter 0), .pool (.postQueue 7 1 "main" true [0] 0), .pool (.postEvent 7 2 "main" [] 0),
    .pool (.enter 0), .pool (.start 0 1), .test, .scan 2, .destroy]

def woundUp : List (Action Nat) :=
  [.pool (.postEvent 7 3 "task" [] 3), .wake, .test, .destroy, .pool (.finishTask 0 (some 0)),
    .pool (.finish 0 [] 4), .pool (.enter 0), .destroy, .destroy]

theorem wound_up_gone :
    ∃ s : State Nat, machine.ReachableBy Roomy s ∧ s.closing = .closed ∧
      ∀ a, machine.step s a = none := by
  obtain ⟨s, _, closed, reached⟩ := guarded_shows (m := machine) (s := initial (create 0 1) 0) Roomy
    (stoppedInTask ++ woundUp) ⟨0, 1, rfl⟩ (fun s => decide (s.closing = .closed)) (by decide)
  have closed := of_decide_eq_true closed
  exact ⟨s, reached, closed, (closed_threads_gone reached closed).2⟩

structure Stopping (first s : State Obj) : Prop where
  orderly : Orderly s
  stopped : s.pool.stop = true
  untaken : logged .dequeued s.pool.history = logged .dequeued first.pool.history

theorem step_remaining {first s t : State Obj} {a : Action Obj} (stopping : Stopping first s)
    (roomy : Roomy s a) (stepped : machine.step s a = some t) :
    Stopping first t ∧ remaining t + (if owns a then 1 else 0) ≤ remaining s := by
  obtain ⟨orderly, stopped, untaken⟩ := stopping
  have next := step_orderly orderly roomy stepped
  cases step_moved stepped with
  | @pool b pool opened moved =>
    obtain ⟨winding, left⟩ := pool_winding roomy opened stopped (orderly.awake stopped) moved
    refine ⟨⟨next, winding.stopped, winding.untaken.trans untaken⟩, ?_⟩
    change _ + (if serves b then 1 else 0) ≤ _
    simp only [remaining, winding.size]
    omega
  | tested here =>
    refine ⟨⟨next, stopped, untaken⟩, ?_⟩
    simp only [remaining, owns, here, stopped, monitorLeft, reduceIte]
    omega
  | scanned here | woken here =>
    refine ⟨⟨next, stopped, untaken⟩, ?_⟩
    simp only [remaining, owns, here, monitorLeft, reduceIte]
    omega
  | stopped here => simp [orderly.begun.mp here] at stopped
  | joinedMonitor here ended =>
    refine ⟨⟨next, stopped, untaken⟩, ?_⟩
    simp only [remaining, owns, here, closeLeft, reduceIte]
    omega
  | joined here found exited =>
    obtain ⟨inside, _⟩ := List.getElem?_eq_some_iff.mp found
    refine ⟨⟨next, stopped, untaken⟩, ?_⟩
    simp only [remaining, owns, here, closeLeft, reduceIte]
    omega
  | closed here past =>
    have within := orderly.within
    simp only [joinedCount, here] at within
    refine ⟨⟨next, stopped, untaken⟩, ?_⟩
    simp only [remaining, owns, here, closeLeft, reduceIte]
    omega

/-- Threads without a step of their own are gone, and the destructor with them. -/
theorem stuck_closed {s : State Obj} (orderly : Orderly s) (stopped : s.pool.stop = true)
    (stuck : ∀ a, owns a = true → machine.step s a = none) : s.closing = .closed := by
  have exited : ∀ w ∈ s.pool.workers, w.pos = .exited := by
    intro w member
    have rests := stuck_rests (s := s.pool) (by
      intro a own
      have none_moves := stuck (.pool a) own
      have opened : open_ s a = true := by
        cases a with
        | postQueue | postEvent | enqueueTask | getHandle | spurious | stop => simp [serves] at own
        | enter | start | finishTask | finish => rfl
      simp only [machine, step, opened, reduceIte, Option.map_eq_none_iff] at none_moves
      exact none_moves) w member
    exact rests.resolve_left (orderly.awake stopped w member)
  have ended : s.monitor = .ended := by
    cases here : s.monitor with
    | ended => rfl
    | testing => simpa [machine, step, here] using stuck .test rfl
    | scanning => simpa [machine, step, here] using stuck (.scan 0) rfl
    | sleeping => simpa [machine, step, here] using stuck .wake rfl
  have waits := stuck .destroy rfl
  simp only [machine, step, destroy] at waits
  split at waits
  · simp at waits
  · simp [ended] at waits
  · split at waits
    · rename_i w found
      simp [exited w (List.mem_of_getElem? found)] at waits
    · simp at waits
  · assumption

/-- However the threads interleave, and whatever tasks in execution still post, the workers, the
    monitor and the destructor go through at most 5 sections for each worker and 5 more, take no
    task from a queue, and where they come to rest the destructor has returned. -/
theorem teardown_ends {s t : State Obj} (reached : machine.ReachableBy Roomy s)
    (stopped : s.pool.stop = true) (actions : List (Action Obj))
    (executed : machine.runBy (fun s a => decide (Roomy s a)) s actions = some t) :
    actions.countP owns + remaining t ≤ 5 * (s.pool.workers.length + 1) ∧
      logged .dequeued t.pool.history = logged .dequeued s.pool.history ∧
      ((∀ a, owns a = true → machine.step t a = none) → t.closing = .closed) := by
  have orderly := orderly_reached reached
  have kept := runBy_bounded (Stopping s) remaining owns
    (fun u a v stopping accepted stepped =>
      step_remaining stopping (of_decide_eq_true accepted) stepped)
    actions ⟨orderly, stopped, rfl⟩ executed
  obtain ⟨⟨last, stopped', untaken⟩, bound⟩ := kept
  exact ⟨Nat.le_trans bound (remaining_le orderly stopped), untaken, stuck_closed last stopped'⟩

def windsUp (s : State Nat) : Bool :=
  s.pool.stop && (machine.runBy (fun s a => decide (Roomy s a)) s woundUp).isSome

theorem wound_up_bounded :
    ∃ s t : State Nat, machine.ReachableBy Roomy s ∧ s.pool.stop = true ∧
      machine.runBy (fun s a => decide (Roomy s a)) s woundUp = some t ∧
      woundUp.countP owns + remaining t ≤ 5 * (s.pool.workers.length + 1) := by
  obtain ⟨s, _, winds, reached⟩ := guarded_shows (m := machine) (s := initial (create 0 1) 0) Roomy
    stoppedInTask ⟨0, 1, rfl⟩ windsUp (by decide)
  obtain ⟨stopped, ends⟩ := (Bool.and_eq_true ..).mp winds
  obtain ⟨t, executed⟩ := Option.isSome_iff_exists.mp ends
  exact ⟨s, t, reached, stopped, executed, (teardown_ends reached stopped woundUp executed).1⟩

end Steps

end DispatchTeardown
