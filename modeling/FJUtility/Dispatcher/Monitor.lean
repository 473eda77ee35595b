import FJUtility.Dispatcher.Guarantees

/- The pool with the two other parties of FJDispatchLite: monitorFunc, which reports tasks that
   run for too long, and the destructor, which stops the threads and joins them. -/
namespace DispatchMonitor
open LabelledMachine DispatchPool DispatchSteps
variable {Obj : Type}

def hungTimeoutMsec : Nat := 15000

/-- Control points of monitorFunc: it reads stop_ without mutex_. -/
inductive MonitorPos where
  | testing
  | scanning
  | sleeping
  | ended
  deriving DecidableEq, Repr

inductive ClosePos where
  | alive
  | joiningMonitor
  | joining (k : Nat)
  | closed
  deriving DecidableEq, Repr

/-- reports is what monitorFunc has printed. clock bounds the readings taken so far, since is the
    reading with which the worker at an index entered its last task; no step reads the two. -/
structure State (Obj : Type) where
  pool : DispatchPool.State Obj
  monitor : MonitorPos
  closing : ClosePos
  reports : List (String × Nat)
  clock : Nat
  since : Nat → Nat

/-- now - w.task_start_ms in uint64_t. -/
def elapsed (now : Nat) (w : Worker Obj) : Nat := (now + 2 ^ 64 - w.taskStartMs) % 2 ^ 64

def hungReports (now : Nat) (workers : List (Worker Obj)) : List (String × Nat) :=
  workers.filterMap fun w =>
    if w.taskSrcfunc ≠ "" ∧ elapsed now w ≥ hungTimeoutMsec then some (w.taskSrcfunc, elapsed now w)
    else none

def reading : DispatchPool.Action Obj → Option Nat
  | .postQueue _ _ _ _ _ now => some now
  | .postEvent _ _ _ _ now => some now
  | .enqueueTask _ _ _ now => some now
  | .start _ now => some now
  | .finish _ _ now => some now
  | _ => none

def posts : DispatchPool.Action Obj → Bool
  | .postQueue .. => true
  | .postEvent .. => true
  | .enqueueTask .. => true
  | _ => false

inductive Action (Obj : Type) where
  | pool (a : DispatchPool.Action Obj)
  | test
  | scan (now : Nat)
  | wake
  | destroy

def readClock (now : Option Nat) (clock : Nat) : Nat := max clock (now.getD clock)

def noteStart (a : DispatchPool.Action Obj) (since : Nat → Nat) : Nat → Nat :=
  match a with
  | .start i now => Function.update since i now
  | _ => since

/-- The next action of the destructor; pthread_join blocks until the thread has ended. -/
def destroy (s : State Obj) : Option (State Obj) :=
  match s.closing with
  | .alive => some { s with pool := stopSection s.pool, closing := .joiningMonitor }
  | .joiningMonitor =>
    if s.monitor = .ended then some { s with closing := .joining 0 } else none
  | .joining k =>
    match s.pool.workers[k]? with
    | some w =>
      match w.pos with
      | .exited => some { s with closing := .joining (k + 1) }
      | _ => none
    | none => some { s with closing := .closed }
  | .closed => none

def open_ (s : State Obj) : DispatchPool.Action Obj → Bool
  | .stop => false
  | .getHandle => decide (s.closing ≠ .closed)
  | a => !posts a || decide (s.closing ≠ .closed)

/-- What a worker can be reported for: a lambda of postQueue or postEvent that it has entered and
    not yet given back. -/
def monitored (w : Worker Obj) : Option String :=
  match w.pos with
  | .executing _ task => if task.kind.reports then some task.srcfunc else none
  | .ended _ task => if task.kind.reports then some task.srcfunc else none
  | _ => none

def overdue (now : Nat) (s : State Obj) : List (String × Nat) :=
  s.pool.workers.zipIdx.filterMap fun (w, i) =>
    (monitored w).bind fun name =>
      if name ≠ "" ∧ s.since i + hungTimeoutMsec ≤ now then some (name, now - s.since i) else none

structure Tracked (since : Nat) (w : Worker Obj) : Prop where
  named : w.taskSrcfunc = (monitored w).getD ""
  start : monitored w ≠ none → w.taskStartMs = since

structure Watched (s : State Obj) : Prop where
  tracked : ∀ (i : Nat) w, s.pool.workers[i]? = some w → Tracked (s.since i) w
  past : ∀ i, s.since i ≤ s.clock

theorem release_tracked {since : Nat} {w : Worker Obj} (tracked : Tracked since w) :
    Tracked since w.release := by
  unfold Worker.release
  split
  · rename_i blocked
    obtain ⟨named, _⟩ := tracked
    have unseen : monitored w = none := by simp [monitored, blocked]
    exact ⟨by rw [named, unseen]; rfl, by simp [monitored]⟩
  · exact tracked

theorem unseen_tracked {since : Nat} {w : Worker Obj} (nameless : w.taskSrcfunc = "")
    (unseen : monitored w = none) : Tracked since w :=
  ⟨by rw [nameless, unseen]; rfl, fun seen => absurd unseen seen⟩

theorem tracked_nameless {since : Nat} {w : Worker Obj} (tracked : Tracked since w)
    (unseen : monitored w = none) : w.taskSrcfunc = "" := by
  rw [tracked.named, unseen]
  rfl

theorem wake_tracked {since : Nat → Nat} {workers : List (Worker Obj)} (woken : List Nat)
    (tracked : ∀ (j : Nat) v, workers[j]? = some v → Tracked (since j) v) :
    ∀ (j : Nat) v, (wake woken workers)[j]? = some v → Tracked (since j) v := by
  intro j v found
  rw [wake, List.getElem?_mapIdx] at found
  obtain ⟨u, before, rfl⟩ := Option.map_eq_some_iff.mp found
  split
  · exact release_tracked (tracked j u before)
  · exact tracked j u before

theorem set_tracked {since : Nat → Nat} {workers : List (Worker Obj)} {i : Nat} {w' : Worker Obj}
    (tracked : ∀ (j : Nat) v, workers[j]? = some v → Tracked (since j) v)
    (new : Tracked (since i) w') :
    ∀ (j : Nat) v, (workers.set i w')[j]? = some v → Tracked (since j) v := by
  intro j v found
  rw [List.getElem?_set] at found
  split at found
  · rename_i here
    subst here
    split at found
    · exact Option.some.inj found ▸ new
    · simp at found
  · exact tracked j v found

theorem adjust_tracked {since : Nat → Nat} {s : DispatchPool.State Obj} (now : Nat)
    (tracked : ∀ (j : Nat) v, s.workers[j]? = some v → Tracked (since j) v) :
    ∀ (j : Nat) v, (adjustWorkers now s).workers[j]? = some v → Tracked (since j) v := by
  unfold adjustWorkers
  split
  · intro j v found
    by_cases inside : j < s.workers.length
    · exact tracked j v (by simpa [spawnWorker, List.getElem?_append_left inside] using found)
    · simp only [spawnWorker, List.getElem?_append_right (Nat.le_of_not_lt inside)] at found
      rw [List.mem_singleton.mp (List.mem_of_getElem? found)]
      exact unseen_tracked rfl rfl
  · exact tracked

theorem noteStart_past {a : DispatchPool.Action Obj} {since : Nat → Nat} {clock : Nat}
    (past : ∀ i, since i ≤ clock) (i : Nat) :
    noteStart a since i ≤ readClock (reading a) clock := by
  have grown : since i ≤ readClock (reading a) clock := Nat.le_trans (past i) (Nat.le_max_left ..)
  unfold noteStart
  split
  · rename_i j now
    by_cases here : i = j
    · rw [here, Function.update_self]
      exact Nat.le_max_right ..
    · rw [Function.update_of_ne here]
      exact grown
  · exact grown

theorem create_nameless (now n : Nat) (since : Nat → Nat) :
    ∀ (i : Nat) w, (create now n : DispatchPool.State Obj).workers[i]? = some w →
      Tracked (since i) w := by
  have members : ∀ w ∈ (create now n : DispatchPool.State Obj).workers,
      w.taskSrcfunc = "" ∧ monitored w = none := by
    induction n with
    | zero => simp [create]
    | succ n ih =>
      intro w member
      rcases List.mem_append.mp member with before | new
      · exact ih w before
      · rw [List.mem_singleton.mp new]
        exact ⟨rfl, rfl⟩
  intro i w found
  obtain ⟨nameless, unseen⟩ := members w (List.mem_of_getElem? found)
  exact unseen_tracked nameless unseen

theorem elapsed_of_past {now : Nat} {w : Worker Obj} (past : w.taskStartMs ≤ now)
    (bounded : now ≤ int64Max) : elapsed now w = now - w.taskStartMs := by
  unfold elapsed
  unfold int64Max at bounded
  omega

section Steps
variable [DecidableEq Obj]

def step (s : State Obj) : Action Obj → Option (State Obj)
  | .pool a =>
    if open_ s a then
      (DispatchPool.step s.pool a).map fun pool =>
        { s with pool, clock := readClock (reading a) s.clock, since := noteStart a s.since }
    else none
  | .test =>
    if s.monitor = .testing then
      some { s with monitor := if s.pool.stop then .ended else .scanning }
    else none
  | .scan now =>
    if s.monitor = .scanning then
      some { s with
        monitor := .sleeping
        reports := s.reports ++ hungReports now s.pool.workers
        clock := readClock (some now) s.clock }
    else none
  | .wake => if s.monitor = .sleeping then some { s with monitor := .testing } else none
  | .destroy => destroy s

def initial (pool : DispatchPool.State Obj) (now : Nat) : State Obj :=
  ⟨pool, .testing, .alive, [], now, fun _ => 0⟩

def machine : Machine (State Obj) (Action Obj) where
  init s := ∃ now n, s = initial (create now n) now
  step := step

inductive Moved (s : State Obj) : Action Obj → State Obj → Prop where
  | pool {a : DispatchPool.Action Obj} {pool : DispatchPool.State Obj} (opened : open_ s a = true)
      (moved : DispatchPool.machine.step s.pool a = some pool) :
      Moved s (.pool a)
        { s with pool, clock := readClock (reading a) s.clock, since := noteStart a s.since }
  | tested (here : s.monitor = .testing) :
      Moved s .test { s with monitor := if s.pool.stop then .ended else .scanning }
  | scanned {now : Nat} (here : s.monitor = .scanning) :
      Moved s (.scan now)
        { s with
          monitor := .sleeping
          reports := s.reports ++ hungReports now s.pool.workers
          clock := readClock (some now) s.clock }
  | woken (here : s.monitor = .sleeping) : Moved s .wake { s with monitor := .testing }
  | stopped (here : s.closing = .alive) :
      Moved s .destroy { s with pool := stopSection s.pool, closing := .joiningMonitor }
  | joinedMonitor (here : s.closing = .joiningMonitor) (ended : s.monitor = .ended) :
      Moved s .destroy { s with closing := .joining 0 }
  | joined {k : Nat} {w : Worker Obj} (here : s.closing = .joining k)
      (found : s.pool.workers[k]? = some w) (exited : w.pos = .exited) :
      Moved s .destroy { s with closing := .joining (k + 1) }
  | closed {k : Nat} (here : s.closing = .joining k) (past : s.pool.workers[k]? = none) :
      Moved s .destroy { s with closing := .closed }

theorem destroy_moved {s t : State Obj} (destroyed : destroy s = some t) : Moved s .destroy t := by
  unfold destroy at destroyed
  split at destroyed
  · rename_i here
    exact Option.some.inj destroyed ▸ .stopped here
  · rename_i here
    split at destroyed
    · rename_i ended
      exact Option.some.inj destroyed ▸ .joinedMonitor here ended
    · simp at destroyed
  · rename_i k here
    split at destroyed
    · rename_i w found
      split at destroyed
      · rename_i exited
        exact Option.some.inj destroyed ▸ .joined here found exited
      · simp at destroyed
    · rename_i past
      exact Option.some.inj destroyed ▸ .closed here past
  · simp at destroyed

theorem step_moved {s t : State Obj} {a : Action Obj} (stepped : machine.step s a = some t) :
    Moved s a t := by
  change step s a = some t at stepped
  cases a with
  | pool b =>
    simp only [step] at stepped
    split at stepped
    · rename_i opened
      obtain ⟨pool, moved, rfl⟩ := Option.map_eq_some_iff.mp stepped
      exact .pool opened moved
    · simp at stepped
  | test =>
    simp only [step] at stepped
    split at stepped
    · rename_i here
      exact Option.some.inj stepped ▸ .tested here
    · simp at stepped
  | scan now =>
    simp only [step] at stepped
    split at stepped
    · rename_i here
      exact Option.some.inj stepped ▸ .scanned here
    · simp at stepped
  | wake =>
    simp only [step] at stepped
    split at stepped
    · rename_i here
      exact Option.some.inj stepped ▸ .woken here
    · simp at stepped
  | destroy => exact destroy_moved stepped

theorem pool_reached {guard : State Obj → Action Obj → Prop} {s : State Obj}
    (reached : machine.ReachableBy guard s) : DispatchPool.machine.Reachable s.pool := by
  apply reachableBy_project State.pool _ _ reached
  · rintro s ⟨now, n, rfl⟩
    exact ⟨now, n, rfl⟩
  · intro s a t _ stepped
    cases step_moved stepped with
    | pool opened moved => exact Or.inr ⟨_, trivial, moved⟩
    | stopped here => exact Or.inr ⟨.stop, trivial, rfl⟩
    | tested | scanned | woken | joinedMonitor | joined | closed => exact Or.inl rfl

theorem worker_tracked {since : Nat → Nat} {s t : DispatchPool.State Obj} {i : Nat}
    {w : Worker Obj} {a : DispatchPool.Action Obj} (found : s.workers[i]? = some w)
    (own : ∀ j now, a = .start j now → j = i)
    (tracked : ∀ (j : Nat) v, s.workers[j]? = some v → Tracked (since j) v)
    (moved : WorkerMoved i w s a t) :
    ∀ (j : Nat) v, t.workers[j]? = some v → Tracked (noteStart a since j) v := by
  have before := tracked i w found
  cases moved with
  | exited here | slept here | took here | spurious here =>
    have nameless := tracked_nameless before (by simp [monitored, here])
    exact set_tracked tracked (unseen_tracked nameless rfl)
  | passed => exact tracked
  | @started j now inst task here =>
    obtain rfl := own j now rfl
    have others : ∀ (k : Nat) v, s.workers[k]? = some v → k ≠ j →
        Tracked (Function.update since j now k) v := by
      intro k v there other
      rw [Function.update_of_ne other]
      exact tracked k v there
    have nameless := tracked_nameless before (by simp [monitored, here])
    intro k v there
    simp only [startTask, moveTo, List.getElem?_set] at there
    split at there
    · rename_i same
      subst same
      split at there
      · rw [noteStart, Function.update_self, ← Option.some.inj there]
        by_cases reports : task.kind.reports = true
        · exact ⟨by simp [monitored, reports], by simp [reports]⟩
        · exact unseen_tracked (by simp [reports, nameless]) (by simp [monitored, reports])
      · simp at there
    · rename_i other
      exact others k v there (Ne.symm other)
  | @ended j ret inst task here =>
    apply set_tracked tracked
    have same : monitored { w with pos := .ended inst task } = monitored w := by
      simp [monitored, here]
    exact ⟨by rw [same]; exact before.named, by rw [same]; exact before.start⟩
  | readied => exact set_tracked (wake_tracked _ tracked) (unseen_tracked rfl rfl)
  | drained => exact set_tracked tracked (unseen_tracked rfl rfl)

theorem pool_tracked {since : Nat → Nat} {s t : DispatchPool.State Obj}
    {a : DispatchPool.Action Obj}
    (tracked : ∀ (j : Nat) v, s.workers[j]? = some v → Tracked (since j) v)
    (stepped : DispatchPool.machine.step s a = some t) :
    ∀ (j : Nat) v, t.workers[j]? = some v → Tracked (noteStart a since j) v := by
  change DispatchPool.step s a = some t at stepped
  cases a with
  | postQueue | postEvent | enqueueTask =>
    obtain ⟨u, entered, rfl⟩ := postSection_posted stepped
    apply adjust_tracked
    cases entered with
    | readied => exact wake_tracked _ tracked
    | queued => exact tracked
  | getHandle =>
    simp only [DispatchPool.step, Option.some.injEq] at stepped
    exact stepped ▸ tracked
  | stop =>
    simp only [DispatchPool.step, Option.some.injEq] at stepped
    intro j v found
    rw [← stepped, stopSection, List.getElem?_map] at found
    obtain ⟨u, there, rfl⟩ := Option.map_eq_some_iff.mp found
    exact release_tracked (tracked j u there)
  | start i now =>
    obtain ⟨w, found, moved⟩ := Option.bind_eq_some_iff.mp stepped
    apply worker_tracked found _ tracked (workerStep_moved moved)
    intro j later same
    simp only [Action.start.injEq] at same
    exact same.1.symm
  | enter | spurious | finishTask | finish =>
    obtain ⟨w, found, moved⟩ := Option.bind_eq_some_iff.mp stepped
    exact worker_tracked found (by simp) tracked (workerStep_moved moved)

theorem step_watched {s t : State Obj} {a : Action Obj} (watched : Watched s)
    (stepped : machine.step s a = some t) : Watched t := by
  obtain ⟨tracked, past⟩ := watched
  cases step_moved stepped with
  | pool opened moved => exact ⟨pool_tracked tracked moved, noteStart_past past⟩
  | stopped here => exact ⟨pool_tracked (a := .stop) tracked rfl, past⟩
  | scanned here => exact ⟨tracked, fun i => Nat.le_trans (past i) (Nat.le_max_left ..)⟩
  | tested | woken | joinedMonitor | joined | closed => exact ⟨tracked, past⟩

theorem watched_reached {s : State Obj} {guard : State Obj → Action Obj → Prop}
    (reached : machine.ReachableBy guard s) : Watched s := by
  apply invariant_of_steps Watched _ _ reached
  · rintro s ⟨now, n, rfl⟩
    exact ⟨create_nameless now n _, fun _ => Nat.zero_le _⟩
  · intro s a t watched _ stepped
    exact step_watched watched stepped

/-- Whatever has been posted and run, a scan prints the name and the age of the tasks that have
    been with a worker for too long, and of no others. -/
theorem hung_reports_exact {s t : State Obj} {now : Nat} (reached : machine.Reachable s)
    (later : s.clock ≤ now) (bounded : now ≤ int64Max)
    (scanned : machine.step s (.scan now) = some t) : t.reports = s.reports ++ overdue now s := by
  obtain ⟨tracked, past⟩ := watched_reached reached
  have printed : hungReports now s.pool.workers = overdue now s := by
    rw [hungReports, overdue]
    nth_rewrite 1 [← List.zipIdx_map_fst 0 s.pool.workers]
    rw [List.filterMap_map]
    apply List.filterMap_congr
    rintro ⟨w, i⟩ member
    obtain ⟨named, start⟩ := tracked i w (List.mem_zipIdx_iff_getElem?.mp member)
    dsimp only [Function.comp]
    cases seen : monitored w with
    | none => simp [named, seen]
    | some name =>
      have began : w.taskStartMs = s.since i := start (by simp [seen])
      have early : s.since i ≤ now := Nat.le_trans (past i) later
      rw [elapsed_of_past (began ▸ early) bounded, named, seen, began]
      have same : (now - s.since i ≥ hungTimeoutMsec) = (s.since i + hungTimeoutMsec ≤ now) := by
        unfold hungTimeoutMsec
        simp only [eq_iff_iff]
        omega
      simp only [Option.getD_some, same, Option.bind_some]
  cases step_moved scanned with
  | scanned here => rw [printed]

def twoEntered : List (Action Nat) :=
  [.pool (.postQueue 7 1 "main" true [] 0), .pool (.enqueueTask 8 2 [] 0), .pool (.enter 0),
    .pool (.enter 1), .pool (.start 0 5), .pool (.start 1 6), .test]

def firstOverdue (s : State Nat) : Bool :=
  decide (s.clock ≤ 15005) && decide (s.reports = []) &&
    decide (overdue 15005 s = [("main", 15000)]) && (machine.step s (.scan 15005)).isSome

theorem first_hung_reported :
    ∃ s t : State Nat, machine.Reachable s ∧ machine.step s (.scan 15005) = some t ∧
      t.reports = [("main", 15000)] := by
  obtain ⟨s, reached, shown⟩ := run_shows (m := machine) (s := initial (create 0 2) 0) twoEntered
    ⟨0, 2, rfl⟩ firstOverdue (by decide)
  simp only [firstOverdue, Bool.and_eq_true, decide_eq_true_eq] at shown
  obtain ⟨⟨⟨later, silent⟩, printed⟩, enabled⟩ := shown
  obtain ⟨t, scanned⟩ := Option.isSome_iff_exists.mp enabled
  have exact_reports := hung_reports_exact reached later (by decide) scanned
  rw [silent, printed] at exact_reports
  exact ⟨s, t, reached, scanned, exact_reports⟩

end Steps

end DispatchMonitor
