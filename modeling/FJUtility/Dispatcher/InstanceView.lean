import FJUtility.Dispatcher.Steps
import FJUtility.Library.AgentList
import FJUtility.Library.TokenQueue

/- What one instance sees of the pool is a token queue: ready entries are its entries in
   ready_instances_, agents are the workers between their two sections. -/
namespace DispatchView
open LabelledMachine DispatchPool DispatchSteps TokenQueue AgentList
variable {Obj : Type} [DecidableEq Obj]

def heldBy (obj : Obj) (w : Worker Obj) : Option (Phase × Task) :=
  match w.pos with
  | .taken inst task => if inst = obj then some (.taken, task) else none
  | .executing inst task => if inst = obj then some (.executing, task) else none
  | .ended inst task => if inst = obj then some (.ended, task) else none
  | _ => none

def reachedBy (obj : Obj) (stage : Stage) (history : List (Event Obj)) : List Task :=
  history.filterMap fun e => if e.stage = stage ∧ e.obj = obj then some e.task else none

def view (obj : Obj) (s : State Obj) : View Task where
  queue := (s.instanceMap obj).taskQueue
  running := (s.instanceMap obj).running
  ready := s.readyInstances.count obj
  held := s.workers.filterMap (heldBy obj)
  posted := reachedBy obj .posted s.history
  dequeued := reachedBy obj .dequeued s.history
  started := reachedBy obj .started s.history
  ended := reachedBy obj .ended s.history

/-- What an action is for obj; forced is the case that bypasses the running test. -/
def labelOf (obj : Obj) : Action Obj → Label Task
  | .postQueue inst handle srcfunc isseq _ _ =>
      if inst = obj then .post ⟨handle, srcfunc, .queue isseq⟩ (!isseq) else .serve
  | .postEvent inst handle srcfunc _ _ =>
      if inst = obj then .post ⟨handle, srcfunc, .event⟩ false else .serve
  | .enqueueTask inst handle _ _ =>
      if inst = obj then .post ⟨handle, "", .enqueue⟩ false else .serve
  | _ => .serve

theorem reachedBy_append (obj : Obj) (stage : Stage) (history : List (Event Obj)) (e : Event Obj) :
    reachedBy obj stage (history ++ [e]) =
      reachedBy obj stage history ++
        if e.stage = stage ∧ e.obj = obj then [e.task] else [] := by
  simp only [reachedBy, List.filterMap_append, List.filterMap_cons, List.filterMap_nil]
  split <;> simp_all

theorem heldBy_release (obj : Obj) (w : Worker Obj) : heldBy obj w.release = heldBy obj w := by
  unfold Worker.release
  split
  · rename_i blocked
    simp [heldBy, blocked]
  · rfl

theorem held_mapIdx (obj : Obj) (f : Nat → Worker Obj → Worker Obj)
    (same : ∀ i w, heldBy obj (f i w) = heldBy obj w) (workers : List (Worker Obj)) :
    (workers.mapIdx f).filterMap (heldBy obj) = workers.filterMap (heldBy obj) := by
  induction workers generalizing f with
  | nil => rfl
  | cons w rest ih =>
    simp only [List.mapIdx_cons, List.filterMap_cons, same]
    rw [ih (fun i => f (i + 1)) (fun i => same (i + 1))]

theorem held_wake (obj : Obj) (woken : List Nat) (workers : List (Worker Obj)) :
    (wake woken workers).filterMap (heldBy obj) = workers.filterMap (heldBy obj) := by
  apply held_mapIdx
  intro i w
  split
  · exact heldBy_release obj w
  · rfl

theorem view_adjustWorkers (obj : Obj) (now : Nat) (s : State Obj) :
    view obj (adjustWorkers now s) = view obj s := by
  unfold adjustWorkers
  split
  · simp [view, spawnWorker, heldBy]
  · rfl

theorem view_create (obj : Obj) (now n : Nat) : view obj (create now n) = View.empty := by
  induction n with
  | zero => simp [view, create, View.empty, reachedBy]
  | succ n ih =>
    simp only [view, View.empty, View.mk.injEq] at ih
    simp [create, spawnWorker, view, heldBy, View.empty, ih]

theorem postSection_move (obj inst : Obj) (parallel : Bool) (task : Task) (woken : List Nat)
    (now : Nat) {s t : State Obj}
    (posted : postSection parallel inst task woken now s = some t) :
    Move (view obj s) (if inst = obj then .post task parallel else .serve) (view obj t) := by
  have same : view obj t =
      if inst = obj then (view obj s).accept task parallel else view obj s := by
    obtain ⟨u, entered, rfl⟩ := postSection_posted posted
    rw [view_adjustWorkers]
    cases entered with
    | readied granted releases =>
      by_cases here : inst = obj
      · subst here
        simp only [reduceIte, View.accept, View.grants, view, Function.update_self,
          held_wake, reachedBy_append, granted]
        simp
      · have elsewhere : obj ≠ inst := fun h => here h.symm
        simp [view, held_wake, reachedBy_append, here, Function.update_of_ne elsewhere,
          List.count_append]
    | queued running sequential =>
      by_cases here : inst = obj
      · subst here
        simp [View.accept, View.grants, view, reachedBy_append, running, sequential]
      · have elsewhere : obj ≠ inst := fun h => here h.symm
        simp [view, reachedBy_append, here, Function.update_of_ne elsewhere]
  rw [same]
  split
  · exact .post task parallel
  · exact .stay

theorem held_set_same (obj : Obj) {workers : List (Worker Obj)} {i : Nat} {w : Worker Obj}
    (found : workers[i]? = some w) (w' : Worker Obj) (same : heldBy obj w' = heldBy obj w) :
    (workers.set i w').filterMap (heldBy obj) = workers.filterMap (heldBy obj) :=
  filterMap_set_same (heldBy obj) found same

theorem held_split (obj : Obj) {workers : List (Worker Obj)} {i : Nat} {w : Worker Obj}
    (found : workers[i]? = some w) :
    ∃ pre post, workers.filterMap (heldBy obj) = pre ++ (heldBy obj w).toList ++ post ∧
      ∀ w', (workers.set i w').filterMap (heldBy obj) = pre ++ (heldBy obj w').toList ++ post := by
  obtain ⟨front, back, split, replaced⟩ := split_at found
  refine ⟨front.filterMap (heldBy obj), back.filterMap (heldBy obj), ?_, ?_⟩
  · rw [split, List.filterMap_append, List.filterMap_cons]
    cases heldBy obj w <;> simp
  · intro w'
    rw [replaced, List.filterMap_append, List.filterMap_cons]
    cases heldBy obj w' <;> simp

theorem unseen_move (obj : Obj) {s : State Obj} {i : Nat} {w : Worker Obj}
    (found : s.workers[i]? = some w) (pos : WorkerPos Obj)
    (same : heldBy obj { w with pos } = heldBy obj w) :
    Move (view obj s) .serve (view obj (moveTo s i w pos)) := by
  have unchanged : view obj (moveTo s i w pos) = view obj s := by
    simp [view, moveTo, held_set_same obj found { w with pos } same]
  exact unchanged ▸ Move.stay

theorem pass_move (obj : Obj) {s : State Obj} {inst : Obj} {rest : List Obj}
    (entries : s.readyInstances = inst :: rest) (drained : (s.instanceMap inst).taskQueue = []) :
    Move (view obj s) .serve (view obj
      { s with
        readyInstances := rest
        instanceMap := Function.update s.instanceMap inst ⟨[], false⟩ }) := by
  by_cases here : inst = obj
  · subst here
    have entry : (view inst s).ready = rest.count inst + 1 := by simp [view, entries]
    have moved := Move.surplus entry (show (view inst s).queue = [] from drained)
    simpa [view, drained] using moved
  · have elsewhere : obj ≠ inst := fun h => here h.symm
    have same := Move.stay (v := view obj s)
    simpa [view, Function.update_of_ne elsewhere, entries, here] using same

theorem take_move (obj : Obj) {s : State Obj} {i : Nat} {w : Worker Obj} {inst : Obj}
    {rest : List Obj} {task : Task} {tasks : List Task} (found : s.workers[i]? = some w)
    (awake : w.pos = .awake) (entries : s.readyInstances = inst :: rest)
    (queued : (s.instanceMap inst).taskQueue = task :: tasks) :
    Move (view obj s) .serve (view obj
      (moveTo
        { s with
          readyInstances := rest
          instanceMap := Function.update s.instanceMap inst ⟨tasks, (s.instanceMap inst).running⟩
          history := s.history ++ [{ stage := .dequeued, obj := inst, task }] }
        i w (.taken inst task))) := by
  by_cases here : inst = obj
  · subst here
    have unseen : heldBy inst w = none := by simp [heldBy, awake]
    obtain ⟨pre, post, before, after⟩ := held_split inst found
    have entry : (view inst s).ready = rest.count inst + 1 := by simp [view, entries]
    have moved := Move.take entry (show (view inst s).queue = task :: tasks from queued)
      (show (view inst s).held = pre ++ post by simpa [view, unseen] using before)
    simpa [view, moveTo, reachedBy_append, after, heldBy] using moved
  · have elsewhere : obj ≠ inst := fun h => here h.symm
    have same := Move.stay (v := view obj s)
    have agents := held_set_same obj found { w with pos := .taken inst task }
      (by simp [heldBy, awake, here])
    simpa [view, moveTo, reachedBy_append, agents, Function.update_of_ne elsewhere,
      entries, here] using same

theorem startTask_move (obj : Obj) {s : State Obj} {i : Nat} {w : Worker Obj} {inst : Obj}
    {task : Task} (now : Nat) (found : s.workers[i]? = some w)
    (taken : w.pos = .taken inst task) :
    Move (view obj s) .serve (view obj (startTask i w inst task now s)) := by
  by_cases here : inst = obj
  · subst here
    obtain ⟨pre, post, before, after⟩ := held_split inst found
    have place : (view inst s).held = pre ++ (.taken, task) :: post := by
      simpa [view, heldBy, taken] using before
    have moved := Move.start place
    simpa [view, startTask, moveTo, reachedBy_append, after, heldBy] using moved
  · have same := Move.stay (v := view obj s)
    have agents : ∀ w' : Worker Obj, w'.pos = .executing inst task →
        (s.workers.set i w').filterMap (heldBy obj) = s.workers.filterMap (heldBy obj) := by
      intro w' moved
      exact held_set_same obj found w' (by simp [heldBy, taken, moved, here])
    simpa [view, startTask, moveTo, reachedBy_append, agents, here] using same

theorem endTask_move (obj : Obj) {s : State Obj} {i : Nat} {w : Worker Obj} {inst : Obj}
    {task : Task} (ret : Option Int) (found : s.workers[i]? = some w)
    (executing : w.pos = .executing inst task) :
    Move (view obj s) .serve (view obj (endTask i w inst task ret s)) := by
  by_cases here : inst = obj
  · subst here
    obtain ⟨pre, post, before, after⟩ := held_split inst found
    have place : (view inst s).held = pre ++ (.executing, task) :: post := by
      simpa [view, heldBy, executing] using before
    have moved := Move.finish place
    simpa [view, endTask, moveTo, reachedBy_append, after, heldBy] using moved
  · have same := Move.stay (v := view obj s)
    have agents := held_set_same obj found { w with pos := .ended inst task }
      (by simp [heldBy, executing, here])
    simpa [view, endTask, moveTo, reachedBy_append, agents, here] using same

theorem again_move (obj : Obj) {s : State Obj} {i : Nat} {w : Worker Obj} {inst : Obj}
    {task : Task} {woken : List Nat} (now : Nat) (found : s.workers[i]? = some w)
    (ended : w.pos = .ended inst task) (more : (s.instanceMap inst).taskQueue ≠ []) :
    Move (view obj s) .serve (view obj
      (moveTo
        { s with
          readyInstances := s.readyInstances ++ [inst]
          workers := wake woken s.workers }
        i { w with lastActiveMs := now, taskSrcfunc := "" } .awake)) := by
  have awoken := wake_getElem? woken found (release_ended ended)
  by_cases here : inst = obj
  · subst here
    obtain ⟨pre, post, before, after⟩ := held_split inst awoken
    rw [held_wake] at before
    have place : (view inst s).held = pre ++ (.ended, task) :: post := by
      simpa [view, heldBy, ended] using before
    have moved := Move.again place more
    simpa [view, moveTo, after, heldBy] using moved
  · have same := Move.stay (v := view obj s)
    have agents := held_set_same obj awoken
      { w with lastActiveMs := now, taskSrcfunc := "", pos := .awake }
      (by simp [heldBy, ended, here])
    simpa [view, moveTo, agents, held_wake, here, List.count_append] using same

theorem idle_move (obj : Obj) {s : State Obj} {i : Nat} {w : Worker Obj} {inst : Obj}
    {task : Task} (now : Nat) (found : s.workers[i]? = some w) (ended : w.pos = .ended inst task)
    (drained : (s.instanceMap inst).taskQueue = []) :
    Move (view obj s) .serve (view obj
      (moveTo
        { s with
          instanceMap := Function.update s.instanceMap inst
            ⟨(s.instanceMap inst).taskQueue, false⟩ }
        i { w with lastActiveMs := now, taskSrcfunc := "" } .awake)) := by
  by_cases here : inst = obj
  · subst here
    obtain ⟨pre, post, before, after⟩ := held_split inst found
    have place : (view inst s).held = pre ++ (.ended, task) :: post := by
      simpa [view, heldBy, ended] using before
    have moved := Move.idle place drained
    simpa [view, moveTo, after, heldBy] using moved
  · have elsewhere : obj ≠ inst := fun h => here h.symm
    have same := Move.stay (v := view obj s)
    have agents := held_set_same obj found
      { w with lastActiveMs := now, taskSrcfunc := "", pos := .awake }
      (by simp [heldBy, ended, here])
    simpa [view, moveTo, agents, Function.update_of_ne elsewhere] using same

theorem workerStep_move (obj : Obj) {s t : State Obj} {i : Nat} {w : Worker Obj}
    {a : Action Obj} (found : s.workers[i]? = some w) (moved : workerStep i w s a w.pos = some t) :
    Move (view obj s) .serve (view obj t) := by
  cases workerStep_moved moved with
  | exited here | slept here | spurious here =>
    exact unseen_move obj found _ (by simp [heldBy, here])
  | passed here runs entries drained => exact pass_move obj entries drained
  | took here runs entries queued => exact take_move obj found here entries queued
  | started here => exact startTask_move obj _ found here
  | ended here => exact endTask_move obj _ found here
  | readied here more releases => exact again_move obj _ found here more
  | drained here drained => exact idle_move obj _ found here drained

theorem workerAt_move (obj : Obj) {s t : State Obj} {i : Nat} {a : Action Obj}
    (moved : workerAt s i a = some t) : Move (view obj s) .serve (view obj t) := by
  obtain ⟨w, found, stepped⟩ := Option.bind_eq_some_iff.mp moved
  exact workerStep_move obj found stepped

/-- The pool refines the token queue of every instance. -/
theorem step_move (obj : Obj) {s t : State Obj} {a : Action Obj}
    (stepped : machine.step s a = some t) : Move (view obj s) (labelOf obj a) (view obj t) := by
  change step s a = some t at stepped
  cases a with
  | postQueue inst handle srcfunc isseq woken now => exact postSection_move obj inst _ _ _ _ stepped
  | postEvent inst handle srcfunc woken now => exact postSection_move obj inst _ _ _ _ stepped
  | enqueueTask inst handle woken now => exact postSection_move obj inst _ _ _ _ stepped
  | getHandle =>
    simp only [step, Option.some.injEq] at stepped
    exact stepped ▸ Move.stay
  | enter i => exact workerAt_move obj stepped
  | spurious i => exact workerAt_move obj stepped
  | start i now => exact workerAt_move obj stepped
  | finishTask i ret => exact workerAt_move obj stepped
  | finish i woken now => exact workerAt_move obj stepped
  | stop =>
    simp only [step, Option.some.injEq] at stepped
    have agents : (s.workers.map Worker.release).filterMap (heldBy obj) =
        s.workers.filterMap (heldBy obj) := by
      rw [List.filterMap_map]
      exact List.filterMap_congr fun w _ => heldBy_release obj w
    have same : view obj (stopSection s) = view obj s := by simp [view, stopSection, agents]
    exact stepped ▸ same ▸ Move.stay

end DispatchView
