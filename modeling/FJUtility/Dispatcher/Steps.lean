import FJUtility.Dispatcher.Pool

/- What the sections of the pool can be, one constructor for each outcome with the conditions
   under which it happens. -/
namespace DispatchSteps
open LabelledMachine DispatchPool
variable {Obj : Type} [DecidableEq Obj]

inductive Posted (parallel : Bool) (obj : Obj) (task : Task) (woken : List Nat) (s : State Obj) :
    State Obj → Prop where
  | readied (granted : (!(s.instanceMap obj).running || parallel) = true)
      (releases : signalReleases woken s.workers = true) :
      Posted parallel obj task woken s
        { s with
          instanceMap := Function.update s.instanceMap obj
            ⟨(s.instanceMap obj).taskQueue ++ [task], true⟩
          readyInstances := s.readyInstances ++ [obj]
          workers := wake woken s.workers
          history := s.history ++ [{ stage := .posted, obj, task }] }
  | queued (running : (s.instanceMap obj).running = true) (sequential : parallel = false) :
      Posted parallel obj task woken s
        { s with
          instanceMap := Function.update s.instanceMap obj
            ⟨(s.instanceMap obj).taskQueue ++ [task], (s.instanceMap obj).running⟩
          history := s.history ++ [{ stage := .posted, obj, task }] }

theorem postSection_posted {parallel : Bool} {obj : Obj} {task : Task} {woken : List Nat}
    {now : Nat} {s t : State Obj} (posted : postSection parallel obj task woken now s = some t) :
    ∃ u, Posted parallel obj task woken s u ∧ t = adjustWorkers now u := by
  unfold postSection at posted
  dsimp only at posted
  split at posted
  · rename_i granted
    split at posted
    · rename_i releases
      simp only [Option.some.injEq] at posted
      exact ⟨_, .readied granted releases, posted.symm⟩
    · simp at posted
  · rename_i refused
    simp only [Bool.or_eq_true, Bool.not_eq_true', not_or, Bool.not_eq_false,
      Bool.not_eq_true] at refused
    simp only [Option.some.injEq] at posted
    exact ⟨_, .queued refused.1 refused.2, posted.symm⟩

inductive WorkerMoved (i : Nat) (w : Worker Obj) (s : State Obj) : Action Obj → State Obj → Prop where
  | exited {j : Nat} (here : w.pos = .awake) (stopped : s.stop = true) :
      WorkerMoved i w s (.enter j) (moveTo s i w .exited)
  | slept {j : Nat} (here : w.pos = .awake) (runs : s.stop = false)
      (entries : s.readyInstances = []) : WorkerMoved i w s (.enter j) (moveTo s i w .blocked)
  | passed {j : Nat} {inst : Obj} {rest : List Obj} (here : w.pos = .awake) (runs : s.stop = false)
      (entries : s.readyInstances = inst :: rest)
      (drained : (s.instanceMap inst).taskQueue = []) :
      WorkerMoved i w s (.enter j)
        { s with
          readyInstances := rest
          instanceMap := Function.update s.instanceMap inst ⟨[], false⟩ }
  | took {j : Nat} {inst : Obj} {rest : List Obj} {task : Task} {tasks : List Task}
      (here : w.pos = .awake) (runs : s.stop = false) (entries : s.readyInstances = inst :: rest)
      (queued : (s.instanceMap inst).taskQueue = task :: tasks) :
      WorkerMoved i w s (.enter j)
        (moveTo
          { s with
            readyInstances := rest
            instanceMap := Function.update s.instanceMap inst
              ⟨tasks, (s.instanceMap inst).running⟩
            history := s.history ++ [{ stage := .dequeued, obj := inst, task }] }
          i w (.taken inst task))
  | spurious {j : Nat} (here : w.pos = .blocked) :
      WorkerMoved i w s (.spurious j) (moveTo s i w .awake)
  | started {j now : Nat} {inst : Obj} {task : Task} (here : w.pos = .taken inst task) :
      WorkerMoved i w s (.start j now) (startTask i w inst task now s)
  | ended {j : Nat} {ret : Option Int} {inst : Obj} {task : Task}
      (here : w.pos = .executing inst task) :
      WorkerMoved i w s (.finishTask j ret) (endTask i w inst task ret s)
  | readied {j now : Nat} {woken : List Nat} {inst : Obj} {task : Task}
      (here : w.pos = .ended inst task) (more : (s.instanceMap inst).taskQueue ≠ [])
      (releases : signalReleases woken s.workers = true) :
      WorkerMoved i w s (.finish j woken now)
        (moveTo
          { s with
            readyInstances := s.readyInstances ++ [inst]
            workers := wake woken s.workers }
          i { w with lastActiveMs := now, taskSrcfunc := "" } .awake)
  | drained {j now : Nat} {woken : List Nat} {inst : Obj} {task : Task}
      (here : w.pos = .ended inst task) (drained : (s.instanceMap inst).taskQueue = []) :
      WorkerMoved i w s (.finish j woken now)
        (moveTo
          { s with
            instanceMap := Function.update s.instanceMap inst
              ⟨(s.instanceMap inst).taskQueue, false⟩ }
          i { w with lastActiveMs := now, taskSrcfunc := "" } .awake)

theorem enterLoop_moved {i j : Nat} {w : Worker Obj} (s : State Obj) (here : w.pos = .awake) :
    WorkerMoved i w s (.enter j) (enterLoop i w s) := by
  unfold enterLoop
  split
  · rename_i stopped
    exact .exited here stopped
  · rename_i going
    have runs : s.stop = false := by simpa using going
    split
    · rename_i entries
      exact .slept here runs entries
    · rename_i inst rest entries
      dsimp only
      split
      · rename_i drained
        exact .passed here runs entries drained
      · rename_i task tasks queued
        exact .took here runs entries queued

theorem finishSection_moved {i j now : Nat} {w : Worker Obj} {inst : Obj} {task : Task}
    {woken : List Nat} {s t : State Obj} (here : w.pos = .ended inst task)
    (finished : finishSection i w inst woken now s = some t) :
    WorkerMoved i w s (.finish j woken now) t := by
  unfold finishSection at finished
  dsimp only at finished
  split at finished
  · rename_i more
    split at finished
    · rename_i releases
      simp only [Option.some.injEq] at finished
      exact finished ▸ .readied here more releases
    · simp at finished
  · rename_i drained
    simp only [Option.some.injEq] at finished
    exact finished ▸ .drained here (Classical.not_not.mp drained)

theorem workerStep_moved {i : Nat} {w : Worker Obj} {s t : State Obj} {a : Action Obj}
    (moved : workerStep i w s a w.pos = some t) : WorkerMoved i w s a t := by
  generalize here : w.pos = pos at moved
  unfold workerStep at moved
  split at moved
  · simp only [Option.some.injEq] at moved
    exact moved ▸ enterLoop_moved s here
  · simp only [Option.some.injEq] at moved
    exact moved ▸ .spurious here
  · simp only [Option.some.injEq] at moved
    exact moved ▸ .started here
  · simp only [Option.some.injEq] at moved
    exact moved ▸ .ended here
  · exact finishSection_moved here moved
  · simp at moved

end DispatchSteps
