import Mathlib.Algebra.Group.Nat.Defs
import Mathlib.Data.List.Basic
import Mathlib.Logic.Function.Basic
import FJUtility.Library.LabelledMachine

/- The mutex_ side of FJDispatchLite: one step is one section under mutex_, or the
   entry to or return from a task. Times and the threads a signal releases are
   supplied by the label. The history is an observer; no section reads it. -/
namespace DispatchPool
open LabelledMachine
variable {Obj : Type}

def maxThreads : Nat := 8
def int64Max : Nat := 2 ^ 63 - 1

inductive PostKind where
  | queue (isseq : Bool)
  | event
  | enqueue
  deriving DecidableEq, Repr

def PostKind.isseq : PostKind → Bool
  | .queue isseq => isseq
  | .event => true
  | .enqueue => true

/-- postQueue and postEvent wrap the method in a lambda that first reports to workers_;
    enqueueTask takes over the caller's packaged_task as it is. -/
def PostKind.reports : PostKind → Bool
  | .queue _ => true
  | .event => true
  | .enqueue => false

structure Task where
  handle : Nat
  srcfunc : String
  kind : PostKind
  deriving DecidableEq, Repr

structure InstanceInfo where
  taskQueue : List Task := []
  running : Bool := false

/-- Control points of workerThread. An awake worker is about to lock mutex_ and test
    ready_instances_; between taken and ended it holds the task it has popped. -/
inductive WorkerPos (Obj : Type) where
  | awake
  | blocked
  | taken (inst : Obj) (task : Task)
  | executing (inst : Obj) (task : Task)
  | ended (inst : Obj) (task : Task)
  | exited
  deriving DecidableEq

structure Worker (Obj : Type) where
  thread : Nat
  lastActiveMs : Nat
  taskStartMs : Nat := 0
  taskSrcfunc : String := ""
  pos : WorkerPos Obj := .awake

inductive Stage where
  | posted
  | dequeued
  | started
  | ended
  deriving DecidableEq, Repr

/-- A task returning r is observed with ret = some r, a throwing one with ret = none. -/
structure Event (Obj : Type) where
  stage : Stage
  obj : Obj
  task : Task
  ret : Option Int := none

structure State (Obj : Type) where
  stop : Bool
  workers : List (Worker Obj)
  numOfThreads : Nat
  instanceMap : Obj → InstanceInfo
  readyInstances : List Obj
  handleCounter : Nat
  threadSupply : Nat
  history : List (Event Obj)

def Worker.release (w : Worker Obj) : Worker Obj :=
  match w.pos with
  | .blocked => { w with pos := .awake }
  | _ => w

def Worker.isBlocked (w : Worker Obj) : Bool :=
  match w.pos with
  | .blocked => true
  | _ => false

def wake (woken : List Nat) (workers : List (Worker Obj)) : List (Worker Obj) :=
  workers.mapIdx fun i w => if i ∈ woken then w.release else w

/-- pthread_cond_signal releases at least one of the blocked threads, if there is one. -/
def signalReleases (woken : List Nat) (workers : List (Worker Obj)) : Bool :=
  !workers.any Worker.isBlocked || woken.any fun i => workers[i]?.any Worker.isBlocked

theorem release_ended {w : Worker Obj} {inst : Obj} {task : Task}
    (ended : w.pos = .ended inst task) : w.release = w := by
  simp [Worker.release, ended]

theorem wake_getElem? (woken : List Nat) {workers : List (Worker Obj)} {i : Nat} {w : Worker Obj}
    (found : workers[i]? = some w) (unmoved : w.release = w) :
    (wake woken workers)[i]? = some w := by
  simp only [wake, List.getElem?_mapIdx, found, Option.map_some, Option.some.injEq]
  split
  · exact unmoved
  · rfl

def spawnWorker (now : Nat) (s : State Obj) : State Obj :=
  { s with
    workers := s.workers ++ [{ thread := s.threadSupply, lastActiveMs := now }]
    threadSupply := s.threadSupply + 1 }

def adjustWorkers (now : Nat) (s : State Obj) : State Obj :=
  if s.readyInstances.length > s.numOfThreads ∧ s.numOfThreads < maxThreads then
    { spawnWorker now s with numOfThreads := s.numOfThreads + 1 }
  else s

def create (now : Nat) : Nat → State Obj
  | 0 => ⟨false, [], 0, fun _ => {}, [], 0, 0, []⟩
  | n + 1 => let s := spawnWorker now (create now n); { s with numOfThreads := n + 1 }

def getHandle (s : State Obj) : State Obj × Nat :=
  let handle := s.handleCounter + 1
  ({ s with handleCounter := if handle ≥ int64Max then 1 else handle }, handle)

section Sections
variable [DecidableEq Obj]

/-- The section of the three posting functions: push the task, add an entry to
    ready_instances_ unless the instance is running, and adjust the pool. -/
def postSection (parallel : Bool) (obj : Obj) (task : Task) (woken : List Nat) (now : Nat)
    (s : State Obj) : Option (State Obj) :=
  let info := s.instanceMap obj
  let queue := info.taskQueue ++ [task]
  let history := s.history ++ [{ stage := .posted, obj, task }]
  if !info.running || parallel then
    if signalReleases woken s.workers then
      some (adjustWorkers now
        { s with
          instanceMap := Function.update s.instanceMap obj ⟨queue, true⟩
          readyInstances := s.readyInstances ++ [obj]
          workers := wake woken s.workers
          history })
    else none
  else
    some (adjustWorkers now
      { s with instanceMap := Function.update s.instanceMap obj ⟨queue, info.running⟩, history })

def postQueue (obj : Obj) (handle : Nat) (srcfunc : String) (isseq : Bool) :
    List Nat → Nat → State Obj → Option (State Obj) :=
  postSection (!isseq) obj ⟨handle, srcfunc, .queue isseq⟩

def postEvent (obj : Obj) (handle : Nat) (srcfunc : String) :
    List Nat → Nat → State Obj → Option (State Obj) :=
  postSection false obj ⟨handle, srcfunc, .event⟩

def enqueueTask (obj : Obj) (handle : Nat) : List Nat → Nat → State Obj → Option (State Obj) :=
  postSection false obj ⟨handle, "", .enqueue⟩

def moveTo (s : State Obj) (i : Nat) (w : Worker Obj) (pos : WorkerPos Obj) : State Obj :=
  { s with workers := s.workers.set i { w with pos } }

/-- First section of workerThread's loop, up to the wait or the unlock. -/
def enterLoop (i : Nat) (w : Worker Obj) (s : State Obj) : State Obj :=
  if s.stop then moveTo s i w .exited
  else match s.readyInstances with
  | [] => moveTo s i w .blocked
  | inst :: rest =>
    let info := s.instanceMap inst
    match info.taskQueue with
    | [] =>
      { s with
        readyInstances := rest
        instanceMap := Function.update s.instanceMap inst ⟨[], false⟩ }
    | task :: tasks =>
      moveTo
        { s with
          readyInstances := rest
          instanceMap := Function.update s.instanceMap inst ⟨tasks, info.running⟩
          history := s.history ++ [{ stage := .dequeued, obj := inst, task }] }
        i w (.taken inst task)

def startTask (i : Nat) (w : Worker Obj) (inst : Obj) (task : Task) (now : Nat)
    (s : State Obj) : State Obj :=
  let w' := if task.kind.reports then
    { w with taskStartMs := now, taskSrcfunc := task.srcfunc } else w
  moveTo { s with history := s.history ++ [{ stage := .started, obj := inst, task }] }
    i w' (.executing inst task)

def endTask (i : Nat) (w : Worker Obj) (inst : Obj) (task : Task) (ret : Option Int)
    (s : State Obj) : State Obj :=
  moveTo { s with history := s.history ++ [{ stage := .ended, obj := inst, task, ret }] }
    i w (.ended inst task)

def finishSection (i : Nat) (w : Worker Obj) (inst : Obj) (woken : List Nat) (now : Nat)
    (s : State Obj) : Option (State Obj) :=
  let info := s.instanceMap inst
  let w' := { w with lastActiveMs := now, taskSrcfunc := "" }
  if info.taskQueue ≠ [] then
    if signalReleases woken s.workers then
      some (moveTo
        { s with
          readyInstances := s.readyInstances ++ [inst]
          workers := wake woken s.workers }
        i w' .awake)
    else none
  else
    some (moveTo
      { s with instanceMap := Function.update s.instanceMap inst ⟨info.taskQueue, false⟩ }
      i w' .awake)

def stopSection (s : State Obj) : State Obj :=
  { s with stop := true, workers := s.workers.map Worker.release }

inductive Action (Obj : Type) where
  | postQueue (obj : Obj) (handle : Nat) (srcfunc : String) (isseq : Bool)
      (woken : List Nat) (now : Nat)
  | postEvent (obj : Obj) (handle : Nat) (srcfunc : String) (woken : List Nat) (now : Nat)
  | enqueueTask (obj : Obj) (handle : Nat) (woken : List Nat) (now : Nat)
  | getHandle
  | enter (i : Nat)
  | spurious (i : Nat)
  | start (i now : Nat)
  | finishTask (i : Nat) (ret : Option Int)
  | finish (i : Nat) (woken : List Nat) (now : Nat)
  | stop

def workerStep (i : Nat) (w : Worker Obj) (s : State Obj) :
    Action Obj → WorkerPos Obj → Option (State Obj)
  | .enter _, .awake => some (enterLoop i w s)
  | .spurious _, .blocked => some (moveTo s i w .awake)
  | .start _ now, .taken inst task => some (startTask i w inst task now s)
  | .finishTask _ ret, .executing inst task => some (endTask i w inst task ret s)
  | .finish _ woken now, .ended inst _ => finishSection i w inst woken now s
  | _, _ => none

def workerAt (s : State Obj) (i : Nat) (a : Action Obj) : Option (State Obj) :=
  s.workers[i]?.bind fun w => workerStep i w s a w.pos

def step (s : State Obj) : Action Obj → Option (State Obj)
  | .postQueue obj handle srcfunc isseq woken now =>
      postQueue obj handle srcfunc isseq woken now s
  | .postEvent obj handle srcfunc woken now => postEvent obj handle srcfunc woken now s
  | .enqueueTask obj handle woken now => enqueueTask obj handle woken now s
  | .getHandle => some (getHandle s).1
  | .enter i => workerAt s i (.enter i)
  | .spurious i => workerAt s i (.spurious i)
  | .start i now => workerAt s i (.start i now)
  | .finishTask i ret => workerAt s i (.finishTask i ret)
  | .finish i woken now => workerAt s i (.finish i woken now)
  | .stop => some (stopSection s)

/-- Any number of workers; the source's constructor starts two. -/
def machine : Machine (State Obj) (Action Obj) where
  init s := ∃ now n, s = create now n
  step := step

end Sections

end DispatchPool
