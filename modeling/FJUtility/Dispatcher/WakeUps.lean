import FJUtility.Dispatcher.Steps
import FJUtility.Library.AgentList

/- Signals of cv_ against entries of ready_instances_: while some worker sleeps, the
   workers on their way to the test are at least as many as the entries they will find. -/
namespace DispatchWakeUps
open LabelledMachine DispatchPool DispatchSteps AgentList
variable {Obj : Type}

def isAwake (w : Worker Obj) : Bool :=
  match w.pos with
  | .awake => true
  | _ => false

def awakeCount (workers : List (Worker Obj)) : Nat := workers.countP isAwake

def blockedCount (workers : List (Worker Obj)) : Nat := workers.countP Worker.isBlocked

/-- A worker that sleeps unsignalled leaves no entry without a worker on its way to it. -/
def WorkConserving (s : State Obj) : Prop :=
  s.stop = false → 0 < blockedCount s.workers →
    s.readyInstances.length ≤ awakeCount s.workers

theorem release_awake (w : Worker Obj) :
    isAwake w.release = (isAwake w || w.isBlocked) ∧ w.release.isBlocked = false := by
  unfold Worker.release isAwake Worker.isBlocked
  cases position : w.pos <;> simp [position]

theorem awake_not_blocked (w : Worker Obj) : (isAwake w && w.isBlocked) = false := by
  unfold isAwake Worker.isBlocked
  cases w.pos <;> rfl

theorem released_counts (chosen : Nat → Bool) (workers : List (Worker Obj)) :
    awakeCount (workers.mapIdx fun i w => if chosen i then w.release else w) +
        blockedCount (workers.mapIdx fun i w => if chosen i then w.release else w) =
      awakeCount workers + blockedCount workers ∧
    blockedCount (workers.mapIdx fun i w => if chosen i then w.release else w) ≤
      blockedCount workers ∧
    ∀ i w, workers[i]? = some w → chosen i = true → w.isBlocked = true →
      blockedCount (workers.mapIdx fun i w => if chosen i then w.release else w) <
        blockedCount workers := by
  unfold awakeCount blockedCount
  induction workers generalizing chosen with
  | nil => simp
  | cons head rest ih =>
    obtain ⟨sum, fewer, strict⟩ := ih fun i => chosen (i + 1)
    obtain ⟨wakes, sleeps⟩ := release_awake head
    have apart := awake_not_blocked head
    simp only [List.mapIdx_cons, List.countP_cons]
    cases first : chosen 0 with
    | false =>
      refine ⟨by simp; omega, by simp; omega, ?_⟩
      intro i w found selected blocked
      cases i with
      | zero => simp [first] at selected
      | succ i =>
        have := strict i w (by simpa using found) selected blocked
        simp
        omega
    | true =>
      cases blocked : head.isBlocked with
      | false =>
        simp only [blocked, Bool.or_false] at wakes
        refine ⟨by simp [wakes, sleeps]; omega, by simp [sleeps]; omega, ?_⟩
        intro i w found selected asleep
        cases i with
        | zero =>
          simp only [List.getElem?_cons_zero, Option.some.injEq] at found
          rw [← found, blocked] at asleep
          simp at asleep
        | succ i =>
          have := strict i w (by simpa using found) selected asleep
          simp [sleeps]
          omega
      | true =>
        simp only [blocked, Bool.or_true] at wakes
        simp only [blocked, Bool.and_true] at apart
        refine ⟨by simp [wakes, sleeps, apart]; omega, by simp [sleeps]; omega, ?_⟩
        intro i w found selected asleep
        simp [sleeps]
        omega

theorem wake_counts {woken : List Nat} {workers : List (Worker Obj)}
    (releases : signalReleases woken workers = true) :
    awakeCount (wake woken workers) + blockedCount (wake woken workers) =
      awakeCount workers + blockedCount workers ∧
    blockedCount (wake woken workers) ≤ blockedCount workers ∧
    (0 < blockedCount workers → blockedCount (wake woken workers) < blockedCount workers) := by
  obtain ⟨sum, fewer, strict⟩ := released_counts (fun i => decide (i ∈ woken)) workers
  simp only [decide_eq_true_eq] at sum fewer strict
  refine ⟨sum, fewer, ?_⟩
  intro asleep
  simp only [signalReleases, Bool.or_eq_true, Bool.not_eq_true', List.any_eq_true] at releases
  rcases releases with none_asleep | ⟨i, selected, blocked⟩
  · obtain ⟨w, present, blocked⟩ := List.countP_pos_iff.mp asleep
    rw [List.any_eq_false] at none_asleep
    exact absurd blocked (none_asleep w present)
  · obtain ⟨w, found, blocked⟩ := (Option.any_eq_true ..).mp blocked
    exact strict i w found selected blocked

/-- A signal that leaves a worker asleep leaves one more on its way, for one more entry. -/
theorem signal_covers {s : State Obj} {woken : List Nat} (conserving : WorkConserving s)
    (running : s.stop = false) (releases : signalReleases woken s.workers = true)
    (asleep : 0 < blockedCount (wake woken s.workers)) :
    s.readyInstances.length + 1 ≤ awakeCount (wake woken s.workers) := by
  obtain ⟨sum, fewer, strict⟩ := wake_counts releases
  have asleepBefore : 0 < blockedCount s.workers := by omega
  have before := conserving running asleepBefore
  have released := strict asleepBefore
  omega

theorem moved_counts {workers : List (Worker Obj)} {i : Nat} {w : Worker Obj}
    (found : workers[i]? = some w) (w' : Worker Obj) :
    awakeCount (workers.set i w') + (if isAwake w then 1 else 0) =
        awakeCount workers + (if isAwake w' then 1 else 0) ∧
      blockedCount (workers.set i w') + (if w.isBlocked then 1 else 0) =
        blockedCount workers + if w'.isBlocked then 1 else 0 :=
  ⟨countP_set_at isAwake found w', countP_set_at Worker.isBlocked found w'⟩

theorem adjust_conserving {s : State Obj} (now : Nat) (conserving : WorkConserving s) :
    WorkConserving (adjustWorkers now s) := by
  unfold adjustWorkers
  split
  · intro running asleep
    have spawned := conserving running
    simp only [spawnWorker, awakeCount, blockedCount, List.countP_append, List.countP_singleton,
      isAwake, Worker.isBlocked, reduceIte] at asleep spawned ⊢
    have := spawned (by simpa using asleep)
    omega
  · exact conserving

theorem busy_conserving {s : State Obj} {i : Nat} {w w' : Worker Obj}
    (found : s.workers[i]? = some w) (before : isAwake w = false ∧ w.isBlocked = false)
    (after : w'.isBlocked = false) {instanceMap : Obj → InstanceInfo} {history : List (Event Obj)}
    (conserving : WorkConserving s) :
    WorkConserving { s with workers := s.workers.set i w', instanceMap, history } := by
  obtain ⟨going, sleeping⟩ := moved_counts found w'
  rw [before.1] at going
  rw [before.2, after] at sleeping
  simp only [Bool.false_eq_true, reduceIte, Nat.add_zero] at going sleeping
  intro running asleep
  have := conserving running (by dsimp only at asleep; omega)
  dsimp only
  omega

theorem take_conserving {s : State Obj} {i : Nat} {w : Worker Obj} {inst : Obj} {rest : List Obj}
    (task : Task) (found : s.workers[i]? = some w) (awake : w.pos = .awake)
    (entries : s.readyInstances = inst :: rest) (conserving : WorkConserving s)
    (instanceMap : Obj → InstanceInfo) (history : List (Event Obj)) :
    WorkConserving (moveTo { s with readyInstances := rest, instanceMap, history } i w
      (.taken inst task)) := by
  obtain ⟨going, sleeping⟩ := moved_counts found { w with pos := .taken inst task }
  simp only [isAwake, awake, Worker.isBlocked, reduceIte, Bool.false_eq_true,
    Nat.add_zero] at going sleeping
  intro running asleep
  dsimp only [moveTo] at running asleep ⊢
  have before := conserving running (by omega)
  rw [entries, List.length_cons] at before
  omega

theorem spurious_conserving {s : State Obj} {i : Nat} {w : Worker Obj}
    (found : s.workers[i]? = some w) (blocked : w.pos = .blocked) (conserving : WorkConserving s) :
    WorkConserving (moveTo s i w .awake) := by
  obtain ⟨going, sleeping⟩ := moved_counts found { w with pos := .awake }
  simp only [isAwake, Worker.isBlocked, blocked, reduceIte, Bool.false_eq_true,
    Nat.add_zero] at going sleeping
  intro running asleep
  dsimp only [moveTo] at running asleep ⊢
  have before := conserving running (by omega)
  omega

theorem again_conserving {s : State Obj} {i : Nat} {w : Worker Obj} {inst : Obj} {task : Task}
    {woken : List Nat} (now : Nat) (found : s.workers[i]? = some w)
    (ended : w.pos = .ended inst task) (releases : signalReleases woken s.workers = true)
    (conserving : WorkConserving s) :
    WorkConserving (moveTo
      { s with readyInstances := s.readyInstances ++ [inst], workers := wake woken s.workers }
      i { w with lastActiveMs := now, taskSrcfunc := "" } .awake) := by
  have awoken := wake_getElem? woken found (release_ended ended)
  obtain ⟨going, sleeping⟩ := moved_counts awoken
    { w with lastActiveMs := now, taskSrcfunc := "", pos := .awake }
  simp only [isAwake, Worker.isBlocked, ended, Bool.false_eq_true, reduceIte,
    Nat.add_zero] at going sleeping
  intro running asleep
  dsimp only [moveTo] at running asleep ⊢
  have covered := signal_covers conserving running releases (by omega)
  rw [List.length_append, List.length_singleton]
  omega

theorem create_entries (now n : Nat) : (create now n : State Obj).readyInstances = [] := by
  induction n with
  | zero => rfl
  | succ n ih => exact ih

section Steps
variable [DecidableEq Obj]

theorem post_conserving {obj : Obj} {parallel : Bool} {task : Task} {woken : List Nat} {now : Nat}
    {s t : State Obj} (conserving : WorkConserving s)
    (posted : postSection parallel obj task woken now s = some t) : WorkConserving t := by
  obtain ⟨u, entered, rfl⟩ := postSection_posted posted
  apply adjust_conserving
  cases entered with
  | readied granted releases =>
    intro running asleep
    dsimp only at running asleep ⊢
    rw [List.length_append, List.length_singleton]
    exact signal_covers conserving running releases asleep
  | queued => exact conserving

theorem worker_conserving {s t : State Obj} {i : Nat} {w : Worker Obj} {a : Action Obj}
    (found : s.workers[i]? = some w) (conserving : WorkConserving s)
    (moved : workerStep i w s a w.pos = some t) : WorkConserving t := by
  cases workerStep_moved moved with
  | exited here stopped =>
    intro running
    simp [moveTo, stopped] at running
  | slept here runs entries =>
    intro _ _
    simp [moveTo, entries]
  | passed here runs entries drained =>
    intro running asleep
    have before := conserving running asleep
    rw [entries, List.length_cons] at before
    dsimp only
    omega
  | took here runs entries queued => exact take_conserving _ found here entries conserving _ _
  | spurious here => exact spurious_conserving found here conserving
  | started here | ended here | drained here =>
    exact busy_conserving found (by simp [isAwake, Worker.isBlocked, here]) rfl conserving
  | readied here more releases => exact again_conserving _ found here releases conserving

theorem step_conserving {s t : State Obj} {a : Action Obj} (conserving : WorkConserving s)
    (stepped : machine.step s a = some t) : WorkConserving t := by
  change step s a = some t at stepped
  cases a with
  | postQueue | postEvent | enqueueTask => exact post_conserving conserving stepped
  | getHandle =>
    simp only [step, Option.some.injEq] at stepped
    exact stepped ▸ conserving
  | enter | spurious | start | finishTask | finish =>
    obtain ⟨w, found, moved⟩ := Option.bind_eq_some_iff.mp stepped
    exact worker_conserving found conserving moved
  | stop =>
    simp only [step, Option.some.injEq] at stepped
    intro running
    rw [← stepped] at running
    simp [stopSection] at running

/-- Whatever is posted, and however often workers wake for no reason. -/
theorem wakeups_work_conserving {s : State Obj} (reached : machine.Reachable s) :
    WorkConserving s := by
  apply invariant_of_steps WorkConserving _ _ reached
  · rintro s ⟨now, n, rfl⟩ _ _
    rw [create_entries]
    exact Nat.zero_le _
  · intro s a t conserving _ stepped
    exact step_conserving conserving stepped

def postsToSleepers : List (Action Nat) :=
  [.enter 0, .enter 1, .postQueue 7 1 "main" true [0] 0, .enter 0, .start 0 1,
    .postEvent 8 2 "main" [1] 1]

theorem posts_to_sleepers_conserving :
    ∃ s, machine.run (create 0 3) postsToSleepers = some s ∧ WorkConserving s := by
  obtain ⟨s, executed, reached⟩ := run_ends (m := machine) (s := create 0 3) postsToSleepers
    ⟨0, 3, rfl⟩ (by decide)
  exact ⟨s, executed, wakeups_work_conserving reached⟩

end Steps

end DispatchWakeUps
