import Mathlib.Data.List.Perm.Subperm
import FJUtility.Dispatcher.Guarantees
import FJUtility.Dispatcher.WakeUps

/- The workers left to themselves. The effort of a state bounds the sections that they can
   still go through, and when they have no section left they have done everything. -/
namespace DispatchDraining
open LabelledMachine DispatchPool DispatchSteps DispatchView DispatchGuarantees DispatchWakeUps
open TokenQueue AgentList
variable {Obj : Type}

def logged (stage : Stage) (history : List (Event Obj)) : List (Obj × Task) :=
  history.filterMap fun e => if e.stage = stage then some (e.obj, e.task) else none

def backlog (history : List (Event Obj)) : Nat :=
  (logged .posted history).length - (logged .dequeued history).length

/-- What a worker of a pool of n can still do without another entry; the section that ends a
    task may add an entry and release all the others. -/
def workerEffort (n : Nat) (w : Worker Obj) : Nat :=
  match w.pos with
  | .awake => 1
  | .blocked => 0
  | .taken _ _ => n + 5
  | .executing _ _ => n + 4
  | .ended _ _ => n + 3
  | .exited => 0

def effort (s : State Obj) : Nat :=
  (s.workers.length + 4) * backlog s.history + s.readyInstances.length +
    (s.workers.map (workerEffort s.workers.length)).sum

def serves : Action Obj → Bool
  | .enter _ => true
  | .start _ _ => true
  | .finishTask _ _ => true
  | .finish _ _ _ => true
  | _ => false

theorem logged_append (stage : Stage) (history : List (Event Obj)) (e : Event Obj) :
    logged stage (history ++ [e]) =
      logged stage history ++ if e.stage = stage then [(e.obj, e.task)] else [] := by
  simp only [logged, List.filterMap_append, List.filterMap_cons, List.filterMap_nil]
  split <;> simp_all

theorem backlog_other {history : List (Event Obj)} {e : Event Obj} (posts : e.stage ≠ .posted)
    (takes : e.stage ≠ .dequeued) : backlog (history ++ [e]) = backlog history := by
  simp [backlog, logged_append, posts, takes]

theorem backlog_take {history : List (Event Obj)} {inst : Obj} {task : Task}
    (waits : 0 < backlog history) :
    backlog (history ++ [{ stage := .dequeued, obj := inst, task }]) + 1 = backlog history := by
  simp only [backlog, logged_append, reduceCtorEq, reduceIte, List.append_nil,
    List.length_append, List.length_singleton] at *
  omega

theorem wake_length (woken : List Nat) (workers : List (Worker Obj)) :
    (wake woken workers).length = workers.length := by simp [wake]

theorem wake_effort (n : Nat) (woken : List Nat) (workers : List (Worker Obj)) :
    ((wake woken workers).map (workerEffort n)).sum ≤
      (workers.map (workerEffort n)).sum + workers.length := by
  have released : ∀ w : Worker Obj, workerEffort n w.release ≤ workerEffort n w + 1 := by
    intro w
    unfold Worker.release
    split
    · rename_i blocked
      simp [workerEffort]
    · exact Nat.le_succ _
  have general : ∀ (f : Nat → Worker Obj → Worker Obj),
      (∀ i w, workerEffort n (f i w) ≤ workerEffort n w + 1) →
      ((workers.mapIdx f).map (workerEffort n)).sum ≤
        (workers.map (workerEffort n)).sum + workers.length := by
    induction workers with
    | nil => simp
    | cons w rest ih =>
      intro f raised
      have head := raised 0 w
      have tail := ih (fun i => f (i + 1)) fun i => raised (i + 1)
      simp only [List.mapIdx_cons, List.map_cons, List.sum_cons, List.length_cons]
      omega
  apply general
  intro i w
  split
  · exact released w
  · exact Nat.le_succ _

def Staffed (s : State Obj) : Prop := s.stop = false → ∀ w ∈ s.workers, w.pos ≠ .exited

theorem release_exited {w : Worker Obj} (stays : w.pos ≠ .exited) : w.release.pos ≠ .exited := by
  unfold Worker.release
  split
  · simp
  · exact stays

theorem wake_staffed {woken : List Nat} {workers : List (Worker Obj)}
    (staffed : ∀ w ∈ workers, w.pos ≠ .exited) : ∀ w ∈ wake woken workers, w.pos ≠ .exited := by
  intro w member
  obtain ⟨i, bound, rfl⟩ := List.mem_mapIdx.mp member
  split
  · exact release_exited (staffed _ (List.getElem_mem bound))
  · exact staffed _ (List.getElem_mem bound)

theorem set_staffed {workers : List (Worker Obj)} (i : Nat) {w' : Worker Obj}
    (staffed : ∀ w ∈ workers, w.pos ≠ .exited) (stays : w'.pos ≠ .exited) :
    ∀ w ∈ workers.set i w', w.pos ≠ .exited := by
  intro w member
  rcases List.mem_or_eq_of_mem_set member with before | rfl
  · exact staffed w before
  · exact stays

theorem adjust_staffed {s : State Obj} (now : Nat) (staffed : Staffed s) :
    Staffed (adjustWorkers now s) := by
  unfold adjustWorkers
  split
  · intro runs w member
    rcases List.mem_append.mp member with before | new
    · exact staffed runs w before
    · rw [List.mem_singleton.mp new]
      simp
  · exact staffed

theorem create_staffed (now n : Nat) :
    ∀ w ∈ (create now n : State Obj).workers, w.pos ≠ .exited := by
  induction n with
  | zero => simp [create]
  | succ n ih =>
    intro w member
    rcases List.mem_append.mp member with before | new
    · exact ih w before
    · rw [List.mem_singleton.mp new]
      simp

theorem releases_all (workers : List (Worker Obj)) :
    signalReleases (List.range workers.length) workers = true := by
  simp only [signalReleases, Bool.or_eq_true, Bool.not_eq_true', List.any_eq_true]
  by_cases sleeps : workers.any Worker.isBlocked = true
  · obtain ⟨w, member, blocked⟩ := List.any_eq_true.mp sleeps
    obtain ⟨i, found⟩ := List.mem_iff_getElem?.mp member
    obtain ⟨bound, _⟩ := List.getElem?_eq_some_iff.mp found
    exact Or.inr ⟨i, List.mem_range.mpr bound, by simp [found, blocked]⟩
  · exact Or.inl (by simpa using sleeps)

section Logs
variable [DecidableEq Obj]

theorem count_logged (obj : Obj) (task : Task) (stage : Stage) (history : List (Event Obj)) :
    (logged stage history).count (obj, task) = (reachedBy obj stage history).count task := by
  induction history with
  | nil => rfl
  | cons e rest ih =>
    simp only [logged, reachedBy, List.filterMap_cons] at ih ⊢
    by_cases reached : e.stage = stage
    · by_cases here : e.obj = obj
      · simp [reached, here, ih, List.count_cons]
      · simp [reached, here, ih]
    · simp [reached, ih]

theorem queued_backlog {s : State Obj} (reached : machine.Reachable s) {inst : Obj}
    (queued : (s.instanceMap inst).taskQueue ≠ []) : 0 < backlog s.history := by
  have accounts : ∀ (obj : Obj) (task : Task), (logged .posted s.history).count (obj, task) =
      (logged .dequeued s.history).count (obj, task) +
        (s.instanceMap obj).taskQueue.count task := by
    intro obj task
    have posted : reachedBy obj .posted s.history =
        reachedBy obj .dequeued s.history ++ (s.instanceMap obj).taskQueue :=
      (accounted_reached obj reached).queued
    rw [count_logged, count_logged, posted, List.count_append]
  have within : (logged .dequeued s.history).Subperm (logged .posted s.history) := by
    apply List.subperm_ext_iff.mpr
    rintro ⟨obj, task⟩ _
    have := accounts obj task
    omega
  obtain ⟨task, rest, first⟩ := List.exists_cons_of_ne_nil queued
  apply Nat.sub_pos_of_lt
  apply Nat.lt_of_not_le
  intro full
  have same := (within.perm_of_length_le full).count_eq (inst, task)
  have more := accounts inst task
  rw [first, List.count_cons_self] at more
  omega

theorem enter_effort {s : State Obj} {i j : Nat} {w : Worker Obj} {t : State Obj}
    (reached : machine.Reachable s) (found : s.workers[i]? = some w) (runs : s.stop = false)
    (moved : WorkerMoved i w s (.enter j) t) : effort t < effort s := by
  have replaced := sum_map_set_at (workerEffort s.workers.length) found
  cases moved with
  | exited here stopped => simp [runs] at stopped
  | slept here _ entries =>
    have sums := replaced { w with pos := .blocked }
    simp only [workerEffort, here] at sums
    simp only [effort, moveTo, List.length_set]
    omega
  | passed here _ entries drained =>
    simp only [effort, entries, List.length_cons]
    omega
  | @took _ inst rest task tasks here _ entries queued =>
    have sums := replaced { w with pos := .taken inst task }
    have waits : (s.instanceMap inst).taskQueue ≠ [] := by simp [queued]
    have taken : backlog (s.history ++ [{ stage := .dequeued, obj := inst, task }]) + 1 =
        backlog s.history := backlog_take (queued_backlog reached waits)
    simp only [workerEffort, here] at sums
    simp only [effort, moveTo, List.length_set, entries, List.length_cons]
    rw [← taken, Nat.mul_add]
    omega

theorem holder_effort {s t : State Obj} {i : Nat} {w : Worker Obj} {a : Action Obj}
    (found : s.workers[i]? = some w) (enters : ∀ j, a ≠ .enter j) (own : serves a = true)
    (moved : WorkerMoved i w s a t) : effort t < effort s := by
  have replaced := sum_map_set_at (workerEffort s.workers.length) found
  cases moved with
  | exited | slept | passed | took => exact absurd rfl (enters _)
  | spurious => simp [serves] at own
  | @started _ now inst task here =>
    have same : backlog (startTask i w inst task now s).history = backlog s.history :=
      backlog_other (by simp) (by simp)
    obtain ⟨w', executing, moved⟩ : ∃ w' : Worker Obj, w'.pos = .executing inst task ∧
        (startTask i w inst task now s).workers = s.workers.set i w' := ⟨_, rfl, rfl⟩
    have sums := replaced w'
    simp only [workerEffort, here, executing] at sums
    simp only [effort, same, moved, List.length_set]
    simp only [startTask, moveTo]
    omega
  | @ended _ ret inst task here =>
    have same : backlog (endTask i w inst task ret s).history = backlog s.history :=
      backlog_other (by simp) (by simp)
    have sums := replaced { w with pos := .ended inst task }
    simp only [workerEffort, here] at sums
    simp only [effort, same]
    simp only [endTask, moveTo, List.length_set]
    omega
  | @readied _ now woken inst task here more releases =>
    have awoken := wake_getElem? woken found (release_ended here)
    have sums := sum_map_set_at (workerEffort s.workers.length) awoken
      { w with lastActiveMs := now, taskSrcfunc := "", pos := .awake }
    have raised := wake_effort s.workers.length woken s.workers
    simp only [workerEffort, here] at sums
    simp only [effort, moveTo, List.length_set, wake_length, List.length_append,
      List.length_singleton]
    omega
  | @drained _ now woken inst task here drained =>
    have sums := replaced { w with lastActiveMs := now, taskSrcfunc := "", pos := .awake }
    simp only [workerEffort, here] at sums
    simp only [effort, moveTo, List.length_set]
    omega

theorem serves_worker {a : Action Obj} {s t : State Obj} (own : serves a = true)
    (stepped : machine.step s a = some t) :
    ∃ i w, s.workers[i]? = some w ∧ WorkerMoved i w s a t := by
  change step s a = some t at stepped
  cases a with
  | postQueue | postEvent | enqueueTask | getHandle | spurious | stop => simp [serves] at own
  | enter i | start i | finishTask i | finish i =>
    obtain ⟨w, found, moved⟩ := Option.bind_eq_some_iff.mp stepped
    exact ⟨i, w, found, workerStep_moved moved⟩

theorem serves_effort {s t : State Obj} {a : Action Obj} (reached : machine.Reachable s)
    (runs : s.stop = false) (own : serves a = true) (stepped : machine.step s a = some t) :
    effort t < effort s := by
  obtain ⟨i, w, found, moved⟩ := serves_worker own stepped
  by_cases enters : ∃ j, a = .enter j
  · obtain ⟨j, rfl⟩ := enters
    exact enter_effort reached found runs moved
  · exact holder_effort found (fun j is => enters ⟨j, is⟩) own moved

theorem serves_keeps {s t : State Obj} {a : Action Obj} (own : serves a = true)
    (stepped : machine.step s a = some t) :
    t.stop = s.stop ∧ t.workers.length = s.workers.length ∧
      ∀ obj, reachedBy obj .posted t.history = reachedBy obj .posted s.history := by
  have posted : ∀ obj, reachedBy obj .posted t.history = reachedBy obj .posted s.history := by
    intro obj
    have move := step_move obj stepped
    have serving : labelOf obj a = .serve := by
      cases a with
      | postQueue | postEvent | enqueueTask => simp [serves] at own
      | _ => rfl
    rw [serving] at move
    exact serve_posted move
  obtain ⟨i, w, found, moved⟩ := serves_worker own stepped
  cases moved <;>
    exact ⟨rfl, by simp [moveTo, startTask, endTask, wake_length], posted⟩

structure Drained (s : State Obj) : Prop where
  asleep : ∀ w ∈ s.workers, w.pos = .blocked
  entries : s.readyInstances = []
  idle : ∀ obj, (s.instanceMap obj).taskQueue = [] ∧ (s.instanceMap obj).running = false
  ended : ∀ obj, (reachedBy obj .posted s.history).Perm (reachedBy obj .ended s.history)

theorem worker_staffed {s t : State Obj} {i : Nat} {w : Worker Obj} {a : Action Obj}
    (staffed : Staffed s) (moved : WorkerMoved i w s a t) : Staffed t := by
  intro runs
  cases moved with
  | exited here stopped => simp [moveTo, stopped] at runs
  | passed => exact staffed runs
  | slept | took | spurious | started | ended | drained =>
    exact set_staffed i (staffed runs) (by simp)
  | readied => exact set_staffed i (wake_staffed (staffed runs)) (by simp)

theorem step_staffed {s t : State Obj} {a : Action Obj} (staffed : Staffed s)
    (stepped : machine.step s a = some t) : Staffed t := by
  change step s a = some t at stepped
  cases a with
  | postQueue | postEvent | enqueueTask =>
    obtain ⟨u, entered, rfl⟩ := postSection_posted stepped
    apply adjust_staffed
    cases entered with
    | readied => exact fun runs => wake_staffed (staffed runs)
    | queued => exact staffed
  | getHandle =>
    simp only [step, Option.some.injEq] at stepped
    exact stepped ▸ staffed
  | stop =>
    simp only [step, Option.some.injEq] at stepped
    intro runs
    rw [← stepped] at runs
    simp [stopSection] at runs
  | enter | spurious | start | finishTask | finish =>
    obtain ⟨w, found, moved⟩ := Option.bind_eq_some_iff.mp stepped
    exact worker_staffed staffed (workerStep_moved moved)

theorem staffed_reached {s : State Obj} (reached : machine.Reachable s) : Staffed s := by
  apply invariant_of_steps Staffed _ _ reached
  · rintro s ⟨now, n, rfl⟩ _
    exact create_staffed now n
  · intro s a t staffed _ stepped
    exact step_staffed staffed stepped

/-- A worker without a section of its own sleeps or has left its loop. -/
theorem stuck_rests {s : State Obj} (stuck : ∀ a, serves a = true → machine.step s a = none) :
    ∀ w ∈ s.workers, w.pos = .blocked ∨ w.pos = .exited := by
  intro w member
  obtain ⟨i, found⟩ := List.mem_iff_getElem?.mp member
  have goes : ∀ a, workerStep i w s a w.pos ≠ none → workerAt s i a ≠ none := by
    intro a able
    simpa [workerAt, found] using able
  cases here : w.pos with
  | blocked => exact Or.inl rfl
  | exited => exact Or.inr rfl
  | awake => exact absurd (stuck (.enter i) rfl) (goes _ (by simp [workerStep, here]))
  | taken inst task => exact absurd (stuck (.start i 0) rfl) (goes _ (by simp [workerStep, here]))
  | executing inst task =>
    exact absurd (stuck (.finishTask i none) rfl) (goes _ (by simp [workerStep, here]))
  | ended inst task =>
    apply absurd (stuck (.finish i (List.range s.workers.length) 0) rfl)
    apply goes
    rw [here]
    simp only [workerStep, finishSection, releases_all]
    split
    · simp
    · simp

theorem asleep_stuck {s : State Obj} (asleep : ∀ w ∈ s.workers, w.pos = .blocked) (a : Action Obj)
    (own : serves a = true) : machine.step s a = none := by
  have waits : ∀ i, a ≠ .spurious i → workerAt s i a = none := by
    intro i wakes
    apply Option.bind_eq_none_iff.mpr
    intro w found
    rw [asleep w (List.mem_of_getElem? found)]
    cases a with
    | spurious j => simp [serves] at own
    | _ => rfl
  cases a with
  | postQueue | postEvent | enqueueTask | getHandle | spurious | stop => simp [serves] at own
  | enter i | start i | finishTask i | finish i => exact waits i (by simp)

theorem conserving_reached {s : State Obj} (reached : machine.Reachable s) : WorkConserving s := by
  apply invariant_of_steps WorkConserving _ _ reached
  · rintro s ⟨now, n, rfl⟩ _ _
    rw [create_entries]
    exact Nat.zero_le _
  · intro s a t before _ stepped
    exact step_conserving before stepped

/-- Workers that all sleep have left nothing undone. -/
theorem asleep_drained {s : State Obj} (reached : machine.Reachable s) (runs : s.stop = false)
    (manned : s.workers ≠ []) (asleep : ∀ w ∈ s.workers, w.pos = .blocked) : Drained s := by
  have none_awake : awakeCount s.workers = 0 := by
    apply List.countP_eq_zero.mpr
    intro w member
    simp [isAwake, asleep w member]
  have sleeps : 0 < blockedCount s.workers := by
    obtain ⟨w, rest, first⟩ := List.exists_cons_of_ne_nil manned
    have member : w ∈ s.workers := by simp [first]
    exact List.countP_pos_iff.mpr ⟨w, member, by simp [Worker.isBlocked, asleep w member]⟩
  have entries : s.readyInstances = [] := by
    have covered := conserving_reached reached runs sleeps
    exact List.length_eq_zero_iff.mp (by omega)
  have unheld : ∀ obj, (view obj s).held = [] := by
    intro obj
    apply List.filterMap_eq_nil_iff.mpr
    intro w member
    simp [heldBy, asleep w member]
  have no_token : ∀ obj, (view obj s).tokens = 0 := by
    intro obj
    rw [View.tokens, unheld]
    simp [view, entries]
  have idle : ∀ obj, (s.instanceMap obj).taskQueue = [] ∧ (s.instanceMap obj).running = false := by
    intro obj
    have backed := backed_reached obj reached
    constructor
    · apply Classical.byContradiction
      intro queued
      have := backed.queued queued
      rw [no_token] at this
      omega
    · apply Bool.eq_false_iff.mpr
      intro running
      have := backed.running running
      rw [no_token] at this
      omega
  refine ⟨asleep, entries, idle, ?_⟩
  intro obj
  have serving : ∀ w ∈ s.workers, ¬ Serves obj w := by
    intro w member
    simp [Serves, heldBy, asleep w member]
  exact (idle_ran_once (accounted_reached obj reached) (backed_reached obj reached) entries
    serving).2.symm

/-- However the workers are scheduled, they go through at most effort s sections of their own,
    and where they come to rest every task posted has ended. Spurious wake-ups are neither counted
    nor allowed. -/
theorem posts_drain {s t : State Obj} (reached : machine.Reachable s) (runs : s.stop = false)
    (manned : s.workers ≠ []) (actions : List (Action Obj))
    (executed : machine.runBy (fun _ a => serves a) s actions = some t) :
    actions.length + effort t ≤ effort s ∧
      ((∀ a, serves a = true → machine.step t a = none) → Drained t ∧
        ∀ obj, (reachedBy obj .posted s.history).Perm (reachedBy obj .ended t.history)) := by
  have kept := runBy_bounded
    (fun u : State Obj => machine.Reachable u ∧ u.stop = false ∧ u.workers.length = s.workers.length ∧
      ∀ obj, reachedBy obj .posted u.history = reachedBy obj .posted s.history) effort
    (fun _ => true)
    (by
      rintro u a v ⟨reached, runs, workers, posted⟩ own stepped
      obtain ⟨stop, length, same⟩ := serves_keeps own stepped
      refine ⟨⟨.next reached trivial stepped, stop ▸ runs, length ▸ workers, ?_⟩,
        serves_effort reached runs own stepped⟩
      intro obj
      rw [same, posted])
    actions ⟨reached, runs, rfl, fun _ => rfl⟩ executed
  obtain ⟨⟨reached', runs', workers, posted⟩, bound⟩ := kept
  rw [List.countP_true] at bound
  refine ⟨bound, ?_⟩
  intro stuck
  have manned' : t.workers ≠ [] := by
    intro empty
    rw [empty] at workers
    exact manned (List.length_eq_zero_iff.mp workers.symm)
  have asleep : ∀ w ∈ t.workers, w.pos = .blocked := by
    intro w member
    exact (stuck_rests stuck w member).resolve_right (staffed_reached reached' runs' w member)
  have drained := asleep_drained reached' runs' manned' asleep
  refine ⟨drained, ?_⟩
  intro obj
  rw [← posted]
  exact drained.ended obj

def threePosts : List (Action Nat) :=
  [.enter 0, .enter 1, .postQueue 7 1 "main" true [0] 0, .postEvent 7 2 "main" [] 1,
    .enqueueTask 8 3 [1] 2]

def threeServed : List (Action Nat) :=
  [.enter 0, .enter 1, .start 0 3, .start 1 3, .finishTask 0 (some 0), .finish 0 [] 4, .enter 0,
    .start 0 5, .finishTask 1 none, .finish 1 [] 6, .enter 1, .finishTask 0 (some 1),
    .finish 0 [] 7, .enter 0]

def servedAsleep (s : State Nat) : Bool :=
  !s.stop && !s.workers.isEmpty &&
    (machine.runBy (fun _ a => serves a) s threeServed).any fun t => t.workers.all Worker.isBlocked

theorem three_posts_drain :
    ∃ s t, machine.run (create 0 2) threePosts = some s ∧
      machine.runBy (fun _ a => serves a) s threeServed = some t ∧
      threeServed.length + effort t ≤ effort s ∧ Drained t := by
  have shown : (machine.run (create 0 2) threePosts).any servedAsleep = true := by decide
  obtain ⟨s, posted, holds⟩ := (Option.any_eq_true ..).mp shown
  simp only [servedAsleep, Bool.and_eq_true, Bool.not_eq_true', List.isEmpty_eq_false_iff] at holds
  obtain ⟨⟨runs, manned⟩, serving⟩ := holds
  obtain ⟨t, served, blocked⟩ := (Option.any_eq_true ..).mp serving
  have reached := run_reachable threePosts (m := machine) ⟨0, 2, rfl⟩ posted
  have asleep : ∀ w ∈ t.workers, w.pos = .blocked := by
    intro w member
    have sleeps := List.all_eq_true.mp blocked w member
    unfold Worker.isBlocked at sleeps
    split at sleeps
    · assumption
    · simp at sleeps
  obtain ⟨bound, rest⟩ := posts_drain reached runs manned threeServed served
  exact ⟨s, t, posted, served, bound, (rest (asleep_stuck asleep)).1⟩

end Logs

end DispatchDraining
