import FJUtility.Library.BlockHeap
import FJUtility.Dispatcher.Answers

/- The copies that postQueue and postEvent make of what the caller passes. The lambda of a task
   reads them when it starts and deletes them when its method has returned. -/
namespace DispatchMessages
open LabelledMachine BlockHeap TokenQueue DispatchPool DispatchView DispatchGuarantees
open DispatchResults DispatchResultGuarantees DispatchSteps DispatchAnswers
variable {Obj : Type}

inductive Block where
  | data (bytes : List UInt8)
  | text (name : String)
  deriving DecidableEq

/-- What a lambda has captured; of the copies it has the addresses. srcfunc and buf are what the
    caller has passed, for the observer. -/
structure Lambda where
  handle : Nat
  msg : Nat
  bufCopy : Option Nat
  srcfuncCopy : Nat
  srcfunc : String
  buf : Option (List UInt8)

/-- The copies, in the order in which the lambda deletes them. -/
def Lambda.blocks (l : Lambda) : List Nat := l.srcfuncCopy :: l.bufCopy.toList

structure Invocation where
  handle : Nat
  srcfunc : String
  msg : Nat
  buf : Option (List UInt8)
  deriving DecidableEq

def Lambda.passed (l : Lambda) : Invocation := ⟨l.handle, l.srcfunc, l.msg, l.buf⟩

/-- Handles tell the lambdas apart as long as they do not come round. invoked is an observer. -/
structure State (Obj : Type) where
  base : DispatchResults.State Obj
  heap : Nat → Option Block
  lambdas : List Lambda
  invoked : List Invocation

def create (now n : Nat) : State Obj := ⟨DispatchResults.create now n, fun _ => none, [], []⟩

def lambdaOf (handle : Nat) (lambdas : List Lambda) : Option Lambda :=
  lambdas.find? fun l => decide (l.handle = handle)

/-- The call of the method with what the lambda reads; a copy that is gone is a fault. -/
def invoke (l : Lambda) (heap : Nat → Option Block) : Option Invocation :=
  match heap l.srcfuncCopy with
  | some (.text srcfunc) =>
    match l.bufCopy with
    | none => some ⟨l.handle, srcfunc, l.msg, none⟩
    | some a =>
      match heap a with
      | some (.data bytes) => some ⟨l.handle, srcfunc, l.msg, some bytes⟩
      | _ => none
  | _ => none

inductive Action (Obj : Type) where
  | postQueue (obj : Obj) (srcfunc : String) (isseq : Bool) (msg : Nat) (buf : List UInt8)
      (bufCopy srcfuncCopy : Nat)
  | postEvent (obj : Obj) (srcfunc : String) (msg srcfuncCopy : Nat)
  | write (i : Nat) (bytes : List UInt8)
  | other (a : DispatchResults.Action Obj)

section Sections
variable [DecidableEq Obj]

/-- postQueue and postEvent up to the handle: the copies, and the lambda that captures them. -/
def capture (obj : Obj) (kind : PostKind) (l : Lambda) (copies : List (Nat × Block))
    (s : State Obj) : Option (State Obj) :=
  (allocateAll copies s.heap).bind fun heap =>
    (DispatchResults.step s.base (.call obj kind l.srcfunc)).map fun base =>
      { s with base, heap, lambdas := s.lambdas ++ [l] }

def postQueue (obj : Obj) (srcfunc : String) (isseq : Bool) (msg : Nat) (buf : List UInt8)
    (bufCopy srcfuncCopy : Nat) (s : State Obj) : Option (State Obj) :=
  capture obj (.queue isseq)
    ⟨(drawHandle s.base).2, msg, some bufCopy, srcfuncCopy, srcfunc, some buf⟩
    [(bufCopy, .data buf), (srcfuncCopy, .text srcfunc)] s

def postEvent (obj : Obj) (srcfunc : String) (msg srcfuncCopy : Nat) (s : State Obj) :
    Option (State Obj) :=
  capture obj .event ⟨(drawHandle s.base).2, msg, none, srcfuncCopy, srcfunc, none⟩
    [(srcfuncCopy, .text srcfunc)] s

def runBase (a : DispatchResults.Action Obj) (s : State Obj) : Option (State Obj) :=
  (DispatchResults.step s.base a).map fun base => { s with base }

/-- The lambda takes its copies and calls the method; a caller's packaged_task has no copies. -/
def startLambda (i now : Nat) (task : Task) (s : State Obj) : Option (State Obj) :=
  if task.kind.reports then
    (lambdaOf task.handle s.lambdas).bind fun l => (invoke l s.heap).bind fun called =>
      (runBase (.start i now) s).map fun t => { t with invoked := t.invoked ++ [called] }
  else runBase (.start i now) s

/-- Behind the call the lambda deletes its copies; a method that throws does not come back. -/
def endLambda (i : Nat) (ret : Option Int) (task : Task) (s : State Obj) : Option (State Obj) :=
  if task.kind.reports && ret.isSome then
    (lambdaOf task.handle s.lambdas).bind fun l => (releaseAll l.blocks s.heap).bind fun heap =>
      (runBase (.finishTask i ret) s).map fun t => { t with heap }
  else runBase (.finishTask i ret) s

def writeBuf (bytes : List UInt8) (task : Task) (s : State Obj) : Option (State Obj) :=
  if task.kind.reports then
    (lambdaOf task.handle s.lambdas).bind fun l => l.bufCopy.bind fun a =>
      (store a (.data bytes) s.heap).map fun heap => { s with heap }
  else none

def step (s : State Obj) : Action Obj → Option (State Obj)
  | .postQueue obj srcfunc isseq msg buf bufCopy srcfuncCopy =>
    postQueue obj srcfunc isseq msg buf bufCopy srcfuncCopy s
  | .postEvent obj srcfunc msg srcfuncCopy => postEvent obj srcfunc msg srcfuncCopy s
  | .write i bytes => s.base.pool.workers[i]?.bind fun w =>
    match w.pos with
    | .executing _ task => writeBuf bytes task s
    | _ => none
  | .other (.call obj kind srcfunc) =>
    if kind.reports then none else runBase (.call obj kind srcfunc) s
  | .other (.start i now) => s.base.pool.workers[i]?.bind fun w =>
    match w.pos with
    | .taken _ task => startLambda i now task s
    | _ => none
  | .other (.finishTask i ret) => s.base.pool.workers[i]?.bind fun w =>
    match w.pos with
    | .executing _ task => endLambda i ret task s
    | _ => none
  | .other a => runBase a s

def machine : Machine (State Obj) (Action Obj) where
  init s := ∃ now n, s = create now n
  step := step

end Sections

def startedHandles (history : List (Event Obj)) : List Nat :=
  ((eventsOf .started history).filter fun e => e.task.kind.reports).map fun e => e.task.handle

def Returned (history : List (Event Obj)) (handle : Nat) : Prop :=
  ∃ value, Finished history handle value

theorem startedHandles_append (history : List (Event Obj)) (e : Event Obj) :
    startedHandles (history ++ [e]) = startedHandles history ++
      if e.stage = .started ∧ e.task.kind.reports = true then [e.task.handle] else [] := by
  unfold startedHandles
  rw [eventsOf_append]
  by_cases starts : e.stage = .started
  · by_cases reports : e.task.kind.reports = true
    · simp [starts, reports]
    · simp [starts, reports]
  · simp [starts]

theorem returned_append {history : List (Event Obj)} {e : Event Obj} {handle : Nat} :
    Returned (history ++ [e]) handle ↔ Returned history handle ∨
      e.stage = .ended ∧ e.task.handle = handle ∧ e.task.kind.reports = true ∧
        e.ret.isSome = true := by
  unfold Returned
  simp only [finished_append, exists_or, exists_and_left, Option.isSome_iff_exists]

def turns : DispatchResults.Action Obj → Bool
  | .start _ _ => true
  | .finishTask _ _ => true
  | _ => false

inductive Logged (s t : DispatchResults.State Obj) : DispatchResults.Action Obj → Prop where
  | started {i now : Nat} {w : Worker Obj} {inst : Obj} {task : Task}
      (found : s.pool.workers[i]? = some w) (here : w.pos = .taken inst task)
      (starts : startedHandles t.pool.history = startedHandles s.pool.history ++
        if task.kind.reports = true then [task.handle] else [])
      (returns : ∀ h, Returned t.pool.history h ↔ Returned s.pool.history h) :
      Logged s t (.start i now)
  | ended {i : Nat} {ret : Option Int} {w : Worker Obj} {inst : Obj} {task : Task}
      (found : s.pool.workers[i]? = some w) (here : w.pos = .executing inst task)
      (starts : startedHandles t.pool.history = startedHandles s.pool.history)
      (returns : ∀ h, Returned t.pool.history h ↔ Returned s.pool.history h ∨
        task.handle = h ∧ task.kind.reports = true ∧ ret.isSome = true) :
      Logged s t (.finishTask i ret)
  | quiet {a : DispatchResults.Action Obj} (other : turns a = false)
      (starts : startedHandles t.pool.history = startedHandles s.pool.history)
      (returns : ∀ h, Returned t.pool.history h ↔ Returned s.pool.history h) : Logged s t a

theorem quiet_logged {s t : DispatchResults.State Obj} {a : DispatchResults.Action Obj}
    (other : turns a = false) (history : t.pool.history = s.pool.history) : Logged s t a := by
  apply Logged.quiet other
  · rw [history]
  · intro h
    rw [history]

theorem silent_logged {s t : DispatchResults.State Obj} {a : DispatchResults.Action Obj}
    {e : Event Obj} (other : turns a = false) (history : t.pool.history = s.pool.history ++ [e])
    (starts : e.stage ≠ .started) (ends : e.stage ≠ .ended) : Logged s t a := by
  apply Logged.quiet other
  · simp [history, startedHandles_append, starts]
  · intro h
    simp [history, returned_append, ends]

section Steps
variable [DecidableEq Obj]

theorem step_logged {s t : DispatchResults.State Obj} {a : DispatchResults.Action Obj}
    (stepped : DispatchResults.machine.step s a = some t) : Logged s t a := by
  cases step_stepped stepped with
  | drew | called | registered | asked | inspected => exact quiet_logged rfl rfl
  | posted found may posts =>
    obtain ⟨e, appended, stage, _⟩ := post_logs posts
    exact silent_logged rfl appended (by simp [stage]) (by simp [stage])
  | stopped moved =>
    simp only [DispatchPool.step, Option.some.injEq] at moved
    subst moved
    exact quiet_logged rfl rfl
  | entered moved =>
    obtain ⟨w, found, run⟩ := Option.bind_eq_some_iff.mp moved
    cases workerStep_moved run with
    | exited | slept | passed => exact quiet_logged rfl rfl
    | took => exact silent_logged rfl rfl (by simp) (by simp)
  | woke moved =>
    obtain ⟨w, found, run⟩ := Option.bind_eq_some_iff.mp moved
    cases workerStep_moved run with
    | spurious => exact quiet_logged rfl rfl
  | finished moved =>
    obtain ⟨w, found, run⟩ := Option.bind_eq_some_iff.mp moved
    cases workerStep_moved run with
    | readied | drained => exact quiet_logged rfl rfl
  | started moved =>
    obtain ⟨w, found, run⟩ := Option.bind_eq_some_iff.mp moved
    cases workerStep_moved run with
    | @started _ _ inst task here =>
      apply Logged.started found here
      · simp only [startTask, moveTo, startedHandles_append, true_and]
      · intro h
        simp only [startTask, moveTo, returned_append, reduceCtorEq, false_and, or_false]
  | ended found here moved =>
    obtain ⟨w, found, run⟩ := Option.bind_eq_some_iff.mp moved
    cases workerStep_moved run with
    | @ended _ _ inst task here =>
      apply Logged.ended found here
      · simp only [endTask, moveTo, startedHandles_append, reduceCtorEq, false_and, reduceIte,
          List.append_nil]
      · intro h
        simp only [endTask, moveTo, returned_append, true_and]

inductive Moved (s t : State Obj) : Prop where
  | captured {obj : Obj} {kind : PostKind} {l : Lambda} {copies : List (Nat × Block)}
      (base : DispatchResults.machine.step s.base (.call obj kind l.srcfunc) = some t.base)
      (handle : l.handle = (drawHandle s.base).2) (allocated : Allocated copies s.heap t.heap)
      (blocks : l.blocks.Perm (copies.map Prod.fst)) (reads : invoke l t.heap = some l.passed)
      (lambdas : t.lambdas = s.lambdas ++ [l]) (invoked : t.invoked = s.invoked)
  | began {i now : Nat} {w : Worker Obj} {inst : Obj} {task : Task} {l : Lambda}
      {called : Invocation} (base : DispatchResults.machine.step s.base (.start i now) = some t.base)
      (found : s.base.pool.workers[i]? = some w) (here : w.pos = .taken inst task)
      (reports : task.kind.reports = true) (captured : lambdaOf task.handle s.lambdas = some l)
      (reads : invoke l s.heap = some called) (heap : t.heap = s.heap)
      (lambdas : t.lambdas = s.lambdas) (invoked : t.invoked = s.invoked ++ [called])
  | freed {i : Nat} {ret : Option Int} {w : Worker Obj} {inst : Obj} {task : Task} {l : Lambda}
      (base : DispatchResults.machine.step s.base (.finishTask i ret) = some t.base)
      (found : s.base.pool.workers[i]? = some w) (here : w.pos = .executing inst task)
      (reports : task.kind.reports = true) (returned : ret.isSome = true)
      (captured : lambdaOf task.handle s.lambdas = some l)
      (released : releaseAll l.blocks s.heap = some t.heap) (lambdas : t.lambdas = s.lambdas)
      (invoked : t.invoked = s.invoked)
  | wrote {i a : Nat} {bytes : List UInt8} {w : Worker Obj} {inst : Obj} {task : Task} {l : Lambda}
      (found : s.base.pool.workers[i]? = some w) (here : w.pos = .executing inst task)
      (reports : task.kind.reports = true) (captured : lambdaOf task.handle s.lambdas = some l)
      (copy : l.bufCopy = some a) (stored : store a (.data bytes) s.heap = some t.heap)
      (base : t.base = s.base) (lambdas : t.lambdas = s.lambdas) (invoked : t.invoked = s.invoked)
  | plain {a : DispatchResults.Action Obj}
      (base : DispatchResults.machine.step s.base a = some t.base)
      (calls : ∀ obj kind srcfunc, a = .call obj kind srcfunc → kind.reports = false)
      (starts : startedHandles t.base.pool.history = startedHandles s.base.pool.history)
      (returns : ∀ h, Returned t.base.pool.history h ↔ Returned s.base.pool.history h)
      (heap : t.heap = s.heap) (lambdas : t.lambdas = s.lambdas) (invoked : t.invoked = s.invoked)

theorem capture_moved {s t : State Obj} {obj : Obj} {kind : PostKind} {l : Lambda}
    {copies : List (Nat × Block)} (handle : l.handle = (drawHandle s.base).2)
    (blocks : l.blocks.Perm (copies.map Prod.fst))
    (reads : ∀ heap, Allocated copies s.heap heap → invoke l heap = some l.passed)
    (captured : capture obj kind l copies s = some t) : Moved s t := by
  obtain ⟨heap, done, called⟩ := Option.bind_eq_some_iff.mp captured
  obtain ⟨base, moved, rfl⟩ := Option.map_eq_some_iff.mp called
  have allocated := allocateAll_some done
  exact .captured moved handle allocated blocks (reads heap allocated) rfl rfl

theorem base_moved {s t : State Obj} {a : DispatchResults.Action Obj}
    (calls : ∀ obj kind srcfunc, a = .call obj kind srcfunc → kind.reports = false)
    (starts : ∀ i now w inst task, a = .start i now → s.base.pool.workers[i]? = some w →
      w.pos = .taken inst task → task.kind.reports = false)
    (ends : ∀ i ret w inst task, a = .finishTask i ret → s.base.pool.workers[i]? = some w →
      w.pos = .executing inst task → (task.kind.reports && ret.isSome) = false)
    (ran : runBase a s = some t) : Moved s t := by
  obtain ⟨base, moved, rfl⟩ := Option.map_eq_some_iff.mp ran
  cases step_logged (a := a) moved with
  | @started i now w inst task found here started returns =>
    have unchanged : startedHandles base.pool.history = startedHandles s.base.pool.history := by
      rw [started, starts i now w inst task rfl found here]
      simp
    exact .plain (a := .start i now) moved calls unchanged returns rfl rfl rfl
  | @ended i ret w inst task found here started returns =>
    have unchanged : ∀ h, Returned base.pool.history h ↔ Returned s.base.pool.history h := by
      intro h
      have thrown := ends i ret w inst task rfl found here
      rw [returns h]
      constructor
      · rintro (before | ⟨_, reports, back⟩)
        · exact before
        · rw [reports, back] at thrown
          exact absurd thrown (by simp)
      · exact Or.inl
    exact .plain (a := .finishTask i ret) moved calls started unchanged rfl rfl rfl
  | quiet _ started returns => exact .plain moved calls started returns rfl rfl rfl

theorem step_moved {s t : State Obj} {a : Action Obj} (stepped : machine.step s a = some t) :
    Moved s t := by
  change step s a = some t at stepped
  cases a with
  | postQueue obj srcfunc isseq msg buf bufCopy srcfuncCopy =>
    apply capture_moved rfl _ _ stepped
    · exact List.Perm.swap _ _ _
    · intro heap allocated
      have data := allocated.filled (bufCopy, .data buf) (by simp)
      have text := allocated.filled (srcfuncCopy, .text srcfunc) (by simp)
      simp only at data text
      simp [invoke, text, data, Lambda.passed]
  | postEvent obj srcfunc msg srcfuncCopy =>
    apply capture_moved rfl _ _ stepped
    · exact List.Perm.refl _
    · intro heap allocated
      have text := allocated.filled (srcfuncCopy, .text srcfunc) (by simp)
      simp only at text
      simp [invoke, text, Lambda.passed]
  | write i bytes =>
    obtain ⟨w, found, written⟩ := Option.bind_eq_some_iff.mp stepped
    split at written
    · rename_i inst task here
      unfold writeBuf at written
      split at written
      · rename_i reports
        obtain ⟨l, captured, written⟩ := Option.bind_eq_some_iff.mp written
        obtain ⟨address, copy, written⟩ := Option.bind_eq_some_iff.mp written
        obtain ⟨heap, stored, rfl⟩ := Option.map_eq_some_iff.mp written
        exact .wrote found here reports captured copy stored rfl rfl rfl
      · simp at written
    · simp at written
  | other b =>
    cases b with
    | call obj kind srcfunc =>
      simp only [step] at stepped
      split at stepped
      · simp at stepped
      · rename_i silent
        apply base_moved _ (by simp) (by simp) stepped
        intro obj' kind' srcfunc' same
        simp only [DispatchResults.Action.call.injEq] at same
        exact same.2.1 ▸ Bool.eq_false_iff.mpr silent
    | start i now =>
      obtain ⟨w, found, started⟩ := Option.bind_eq_some_iff.mp stepped
      split at started
      · rename_i inst task here
        unfold startLambda at started
        split at started
        · rename_i reports
          obtain ⟨l, captured, started⟩ := Option.bind_eq_some_iff.mp started
          obtain ⟨called, reads, started⟩ := Option.bind_eq_some_iff.mp started
          obtain ⟨u, ran, rfl⟩ := Option.map_eq_some_iff.mp started
          obtain ⟨base, moved, rfl⟩ := Option.map_eq_some_iff.mp ran
          exact .began moved found here reports captured reads rfl rfl rfl
        · rename_i silent
          apply base_moved (by simp) _ (by simp) started
          intro i' now' w' inst' task' same found' here'
          simp only [DispatchResults.Action.start.injEq] at same
          rw [← same.1, found, Option.some.injEq] at found'
          rw [← found', here, WorkerPos.taken.injEq] at here'
          exact here'.2 ▸ Bool.eq_false_iff.mpr silent
      · simp at started
    | finishTask i ret =>
      obtain ⟨w, found, ended⟩ := Option.bind_eq_some_iff.mp stepped
      split at ended
      · rename_i inst task here
        unfold endLambda at ended
        split at ended
        · rename_i returns
          rw [Bool.and_eq_true] at returns
          obtain ⟨l, captured, ended⟩ := Option.bind_eq_some_iff.mp ended
          obtain ⟨heap, released, ended⟩ := Option.bind_eq_some_iff.mp ended
          obtain ⟨u, ran, rfl⟩ := Option.map_eq_some_iff.mp ended
          obtain ⟨base, moved, rfl⟩ := Option.map_eq_some_iff.mp ran
          exact .freed moved found here returns.1 returns.2 captured released rfl rfl
        · rename_i thrown
          apply base_moved (by simp) (by simp) _ ended
          intro i' ret' w' inst' task' same found' here'
          simp only [DispatchResults.Action.finishTask.injEq] at same
          rw [← same.1, found, Option.some.injEq] at found'
          rw [← found', here, WorkerPos.executing.injEq] at here'
          rw [← here'.2, ← same.2]
          exact Bool.eq_false_iff.mpr thrown
      · simp at ended
    | draw | register | post | enter | spurious | finish | stop | waitResult | inspect =>
      exact base_moved (by simp) (by simp) (by simp) stepped

end Steps

section Pool
variable [DecidableEq Obj]

theorem posted_count {s : DispatchPool.State Obj} (reached : DispatchPool.machine.Reachable s)
    (obj : Obj) (task : Task) :
    (reachedBy obj .started s.history).count task + ((view obj s).holding .taken).count task ≤
        (reachedBy obj .posted s.history).count task ∧
      (reachedBy obj .started s.history).count task =
        (reachedBy obj .ended s.history).count task +
          ((view obj s).holding .executing).count task := by
  have accounted := accounted_reached obj reached
  have queued := congrArg (List.count task) accounted.queued
  have taken := accounted.taken.count_eq task
  have served := accounted.served.count_eq task
  simp only [List.count_append, view] at queued taken served ⊢
  omega

/-- Tasks with different handles are not posted twice. -/
theorem posted_once {s : DispatchPool.State Obj}
    (once : ((eventsOf .posted s.history).map fun e => e.task.handle).Nodup) (obj : Obj)
    (task : Task) : (reachedBy obj .posted s.history).count task ≤ 1 := by
  rw [← count_marks]
  apply List.nodup_iff_count_le_one.mp
  have handles : ((marks .posted s.history).map fun m => m.2.handle).Nodup := by
    rw [marks, List.map_map]
    exact once
  exact handles.of_map _

theorem same_task {s : DispatchPool.State Obj}
    (once : ((eventsOf .posted s.history).map fun e => e.task.handle).Nodup) {obj obj' : Obj}
    {task task' : Task} (first : task ∈ reachedBy obj .posted s.history)
    (second : task' ∈ reachedBy obj' .posted s.history) (same : task.handle = task'.handle) :
    obj = obj' ∧ task = task' := by
  obtain ⟨e, logged, rfl, rfl⟩ := mem_reachedBy.mp first
  obtain ⟨f, logged', rfl, rfl⟩ := mem_reachedBy.mp second
  rw [List.inj_on_of_nodup_map once logged logged' same]
  exact ⟨rfl, rfl⟩

/-- What a worker holds was posted, and has not been through the later stages. -/
theorem held_once {s : DispatchPool.State Obj} (reached : DispatchPool.machine.Reachable s)
    (once : ((eventsOf .posted s.history).map fun e => e.task.handle).Nodup) {w : Worker Obj}
    (member : w ∈ s.workers) {inst : Obj} {task : Task} {phase : Phase}
    (held : heldBy inst w = some (phase, task)) (serving : phase ≠ .ended) :
    task ∈ reachedBy inst .posted s.history ∧
      task.handle ∉ (eventsOf .ended s.history).map (fun e => e.task.handle) ∧
      (phase = .taken → task.handle ∉ (eventsOf .started s.history).map fun e => e.task.handle) := by
  have holding : 0 < ((view inst s).holding phase).count task := by
    apply List.count_pos_iff.mpr
    exact List.mem_filterMap.mpr ⟨(phase, task), List.mem_filterMap.mpr ⟨w, member, held⟩, by
      simp [phaseIs]⟩
  obtain ⟨before, after⟩ := posted_count reached inst task
  have single := posted_once once inst task
  have posted : task ∈ reachedBy inst .posted s.history := by
    apply List.count_pos_iff.mp
    cases phase with
    | taken => omega
    | executing => omega
    | ended => exact absurd rfl serving
  have later : ∀ stage, stage = .started ∨ stage = .ended →
      task.handle ∈ (eventsOf stage s.history).map (fun e => e.task.handle) →
        0 < (reachedBy inst stage s.history).count task := by
    intro stage which again
    obtain ⟨f, logged, same⟩ := List.mem_map.mp again
    have there : f.task ∈ reachedBy f.obj stage s.history :=
      mem_reachedBy.mpr ⟨f, logged, rfl, rfl⟩
    have counted := List.count_pos_iff.mpr there
    obtain ⟨before', after'⟩ := posted_count reached f.obj f.task
    have posted' : f.task ∈ reachedBy f.obj .posted s.history := by
      apply List.count_pos_iff.mp
      rcases which with rfl | rfl
      · omega
      · omega
    obtain ⟨obj, one⟩ := same_task once posted' posted same
    rw [obj, one] at counted
    exact counted
  refine ⟨posted, ?_, ?_⟩
  · intro again
    have counted := later .ended (Or.inr rfl) again
    cases phase with
    | taken => omega
    | executing => omega
    | ended => exact serving rfl
  · rintro rfl again
    have counted := later .started (Or.inl rfl) again
    omega

theorem executing_started {s : DispatchPool.State Obj}
    (reached : DispatchPool.machine.Reachable s) {w : Worker Obj} (member : w ∈ s.workers)
    {inst : Obj} {task : Task} (here : w.pos = .executing inst task)
    (reports : task.kind.reports = true) : task.handle ∈ startedHandles s.history := by
  have holding : 0 < ((view inst s).holding .executing).count task := by
    apply List.count_pos_iff.mpr
    refine List.mem_filterMap.mpr ⟨(.executing, task), List.mem_filterMap.mpr ⟨w, member, ?_⟩, ?_⟩
    · simp [heldBy, here]
    · simp [phaseIs]
  obtain ⟨_, after⟩ := posted_count reached inst task
  have there : task ∈ reachedBy inst .started s.history := List.count_pos_iff.mp (by omega)
  obtain ⟨e, logged, _, rfl⟩ := mem_reachedBy.mp there
  exact List.mem_map.mpr ⟨e, List.mem_filter.mpr ⟨logged, reports⟩, rfl⟩

theorem returned_started {s : DispatchPool.State Obj}
    (reached : DispatchPool.machine.Reachable s) {handle : Nat}
    (returned : Returned s.history handle) : handle ∈ startedHandles s.history := by
  obtain ⟨value, e, logged, rfl, reports, _⟩ := returned
  have counted := List.count_pos_iff.mpr (mem_reachedBy.mpr ⟨e, logged, rfl, rfl⟩)
  obtain ⟨_, after⟩ := posted_count reached e.obj e.task
  have there : e.task ∈ reachedBy e.obj .started s.history := List.count_pos_iff.mp (by omega)
  obtain ⟨f, logged', _, same⟩ := mem_reachedBy.mp there
  exact List.mem_map.mpr ⟨f, List.mem_filter.mpr ⟨logged', by rw [same]; exact reports⟩, by rw [same]⟩

end Pool

theorem lambdaOf_some {handle : Nat} {lambdas : List Lambda} {l : Lambda}
    (found : lambdaOf handle lambdas = some l) : l ∈ lambdas ∧ l.handle = handle := by
  unfold lambdaOf at found
  have same := List.find?_some found
  exact ⟨List.mem_of_find?_eq_some found, of_decide_eq_true same⟩

theorem lambdaOf_member {lambdas : List Lambda} (once : (lambdas.map Lambda.handle).Nodup)
    {l : Lambda} (member : l ∈ lambdas) : lambdaOf l.handle lambdas = some l := by
  cases found : lambdaOf l.handle lambdas with
  | none =>
    have other := List.find?_eq_none.mp found l member
    exact absurd rfl (of_decide_eq_false (Bool.eq_false_iff.mpr other))
  | some l' =>
    obtain ⟨member', same⟩ := lambdaOf_some found
    rw [List.inj_on_of_nodup_map once member' member same]

def blocksOf (lambdas : List Lambda) (handle : Nat) : List Nat :=
  match lambdaOf handle lambdas with
  | some l => l.blocks
  | none => []

theorem blocksOf_member {lambdas : List Lambda} (once : (lambdas.map Lambda.handle).Nodup)
    {l : Lambda} (member : l ∈ lambdas) : blocksOf lambdas l.handle = l.blocks := by
  rw [blocksOf, lambdaOf_member once member]

theorem invoke_congr {l : Lambda} {heap heap' : Nat → Option Block}
    (same : ∀ a ∈ l.blocks, heap' a = heap a) : invoke l heap' = invoke l heap := by
  unfold invoke
  rw [same l.srcfuncCopy List.mem_cons_self]
  cases copy : l.bufCopy with
  | none => rfl
  | some a =>
    have copied := same a (List.mem_cons_of_mem _ (by simp [copy]))
    simp only [copied]

theorem invoke_handle {l : Lambda} {heap : Nat → Option Block} {called : Invocation}
    (reads : invoke l heap = some called) : called.handle = l.handle := by
  unfold invoke at reads
  split at reads
  · split at reads
    · exact (Option.some.inj reads) ▸ rfl
    · split at reads
      · exact (Option.some.inj reads) ▸ rfl
      · simp at reads
  · simp at reads

def Holds (s : State Obj) (handle : Nat) : Prop :=
  (∃ l ∈ s.lambdas, l.handle = handle) ∧ ¬ Returned s.base.pool.history handle

/-- The copies in use are those of the lambdas that have not come to their end, and a lambda that
    has not started finds what the caller passed. -/
structure Kept (s : State Obj) : Prop where
  once : (s.lambdas.map Lambda.handle).Nodup
  drawn : ∀ l ∈ s.lambdas, l.handle ≤ s.base.draws
  known : ∀ c ∈ s.base.calls, c.kind.reports = true → ∃ l ∈ s.lambdas, l.handle = c.handle
  owned : Owned s.heap (blocksOf s.lambdas) (Holds s)
  unread : ∀ l ∈ s.lambdas, l.handle ∉ startedHandles s.base.pool.history →
    invoke l s.heap = some l.passed
  invoked : s.invoked.map Invocation.handle = startedHandles s.base.pool.history
  intact : ∀ called ∈ s.invoked, ∃ l ∈ s.lambdas, called = l.passed

section Runs
variable [DecidableEq Obj]

structure Known (s : State Obj) : Prop where
  reached : DispatchResults.machine.Reachable s.base
  small : s.base.draws < int64Max

theorem Known.pool {s : State Obj} (known : Known s) :
    DispatchPool.machine.Reachable s.base.pool := pool_reached known.reached

theorem Known.consistent {s : State Obj} (known : Known s) : Consistent s.base :=
  consistent_reached known.reached known.small

theorem lambda_held {s : State Obj} (known : Known s) (kept : Kept s) {w : Worker Obj}
    (member : w ∈ s.base.pool.workers) {inst : Obj} {task : Task} {phase : Phase}
    (held : heldBy inst w = some (phase, task)) (serving : phase ≠ .ended)
    (reports : task.kind.reports = true) :
    ∃ l ∈ s.lambdas, lambdaOf task.handle s.lambdas = some l ∧ l.handle = task.handle ∧
      Holds s task.handle := by
  obtain ⟨posted, unended, _⟩ := held_once known.pool known.consistent.once member held serving
  obtain ⟨e, logged, _, rfl⟩ := mem_reachedBy.mp posted
  obtain ⟨c, called, handle, kind, _⟩ := known.consistent.poster e logged
  obtain ⟨l, present, own⟩ := kept.known c called (by rw [kind]; exact reports)
  have same : l.handle = e.task.handle := own.trans handle
  refine ⟨l, present, ?_, same, ⟨l, present, same⟩, ?_⟩
  · rw [← same]
    exact lambdaOf_member kept.once present
  · rintro ⟨value, f, ended, again, _⟩
    exact unended (List.mem_map.mpr ⟨f, ended, again⟩)

theorem taken_unstarted {s : State Obj} (known : Known s) {w : Worker Obj}
    (member : w ∈ s.base.pool.workers) {inst : Obj} {task : Task}
    (here : w.pos = .taken inst task) : task.handle ∉ startedHandles s.base.pool.history := by
  have held : heldBy inst w = some (.taken, task) := by simp [heldBy, here]
  have fresh := (held_once known.pool known.consistent.once member held (by simp)).2.2 rfl
  intro again
  obtain ⟨e, logged, same⟩ := List.mem_map.mp again
  exact fresh (List.mem_map.mpr ⟨e, (List.mem_filter.mp logged).1, same⟩)

theorem unread_holds {s : State Obj} (known : Known s) {l : Lambda} (member : l ∈ s.lambdas)
    (unstarted : l.handle ∉ startedHandles s.base.pool.history) : Holds s l.handle :=
  ⟨⟨l, member, rfl⟩, fun returned => unstarted (returned_started known.pool returned)⟩

theorem lambda_executing {s : State Obj} (known : Known s) (kept : Kept s) {i : Nat}
    {w : Worker Obj} {inst : Obj} {task : Task} {l : Lambda}
    (found : s.base.pool.workers[i]? = some w) (here : w.pos = .executing inst task)
    (reports : task.kind.reports = true) (captured : lambdaOf task.handle s.lambdas = some l) :
    Holds s task.handle ∧ blocksOf s.lambdas task.handle = l.blocks ∧
      task.handle ∈ startedHandles s.base.pool.history := by
  have member := List.mem_of_getElem? found
  have held : heldBy inst w = some (.executing, task) := by simp [heldBy, here]
  obtain ⟨_, _, _, _, holds⟩ := lambda_held known kept member held (by simp) reports
  exact ⟨holds, by rw [blocksOf, captured], executing_started known.pool member here reports⟩

theorem captured_kept {s t : State Obj} {obj : Obj} {kind : PostKind} {l : Lambda}
    {copies : List (Nat × Block)} (known : Known s) (kept : Kept s)
    (small : s.base.draws + 1 < int64Max)
    (base : DispatchResults.machine.step s.base (.call obj kind l.srcfunc) = some t.base)
    (handle : l.handle = (drawHandle s.base).2) (allocated : Allocated copies s.heap t.heap)
    (blocks : l.blocks.Perm (copies.map Prod.fst)) (reads : invoke l t.heap = some l.passed)
    (lambdas : t.lambdas = s.lambdas ++ [l]) (invoked : t.invoked = s.invoked) : Kept t := by
  have consistent := known.consistent
  have fresh : l.handle = s.base.draws + 1 := handle.trans (draw_handle consistent small).1
  have called : { (drawHandle s.base).1 with
      calls := s.base.calls ++ [{ obj, kind, srcfunc := l.srcfunc, handle := l.handle }] } =
        t.base := by
    rw [handle]
    exact Option.some.inj base
  have history : t.base.pool.history = s.base.pool.history := by rw [← called]; rfl
  have unposted : ∀ e ∈ eventsOf .posted s.base.pool.history, e.task.handle ≠ l.handle := by
    intro e logged same
    obtain ⟨c, present, own, _⟩ := consistent.poster e logged
    have below := consistent.drawn c present
    omega
  have unreturned : ¬ Returned s.base.pool.history l.handle := by
    rintro ⟨value, finished⟩
    obtain ⟨e, logged, same, _⟩ := finished_posted known.pool finished
    exact unposted e logged same
  have apart : ∀ l' ∈ s.lambdas, l'.handle ≠ l.handle := by
    intro l' member same
    have below := kept.drawn l' member
    omega
  have once : (t.lambdas.map Lambda.handle).Nodup := by
    rw [lambdas, List.map_append, List.map_singleton]
    apply nodup_snoc.mpr ⟨_, kept.once⟩
    intro again
    obtain ⟨l', member, same⟩ := List.mem_map.mp again
    exact apart l' member same
  have own : l ∈ t.lambdas := by simp [lambdas]
  have old : ∀ l' ∈ s.lambdas, l' ∈ t.lambdas := by
    intro l' member
    simp [lambdas, member]
  have before : Owned s.heap (blocksOf t.lambdas) (Holds s) := by
    apply owned_congr kept.owned (fun _ => Iff.rfl)
    rintro h ⟨⟨l', member, rfl⟩, _⟩
    rw [blocksOf_member once (old l' member), blocksOf_member kept.once member]
  constructor
  case once => exact once
  case drawn =>
    intro l' member
    have more : t.base.draws = s.base.draws + 1 := by rw [← called]; rfl
    rw [lambdas] at member
    rcases List.mem_append.mp member with before | new
    · have below := kept.drawn l' before
      omega
    · rw [List.mem_singleton.mp new]
      omega
  case known =>
    intro c member reports
    rw [← called] at member
    rcases List.mem_append.mp member with before | new
    · obtain ⟨l', present, same⟩ := kept.known c before reports
      exact ⟨l', old l' present, same⟩
    · exact ⟨l, own, by rw [List.mem_singleton.mp new]⟩
  case owned =>
    have has : (blocksOf t.lambdas l.handle).Perm (copies.map Prod.fst) := by
      rw [blocksOf_member once own]
      exact blocks
    apply owned_congr (owned_allocate before allocated has) _ (fun _ _ => rfl)
    intro h
    unfold Holds
    rw [history, lambdas]
    constructor
    · rintro ⟨⟨l', member, rfl⟩, waits⟩
      rcases List.mem_append.mp member with before | new
      · exact Or.inr ⟨⟨l', before, rfl⟩, waits⟩
      · exact Or.inl (by rw [List.mem_singleton.mp new])
    · rintro (rfl | ⟨⟨l', member, rfl⟩, waits⟩)
      · exact ⟨⟨l, by simp, rfl⟩, unreturned⟩
      · exact ⟨⟨l', by simp [member], rfl⟩, waits⟩
  case unread =>
    intro l' member unstarted
    rw [history] at unstarted
    rw [lambdas] at member
    rcases List.mem_append.mp member with before | new
    · rw [← kept.unread l' before unstarted]
      apply invoke_congr
      intro a mine
      apply allocated.others
      intro taken
      obtain ⟨b, there, rfl⟩ := List.mem_map.mp taken
      have holds := unread_holds known before unstarted
      have used := kept.owned.held l'.handle holds b.1
        (by rw [blocksOf_member kept.once before]; exact mine)
      exact used (allocated.fresh b there)
    · rw [List.mem_singleton.mp new]
      exact reads
  case invoked =>
    rw [history, invoked]
    exact kept.invoked
  case intact =>
    intro given member
    obtain ⟨l', present, same⟩ := kept.intact given (invoked ▸ member)
    exact ⟨l', old l' present, same⟩

theorem calls_kept {s t : State Obj} {a : DispatchResults.Action Obj} (kept : Kept s)
    (base : DispatchResults.machine.step s.base a = some t.base)
    (calls : ∀ obj kind srcfunc, a = .call obj kind srcfunc → kind.reports = false) :
    (∀ l ∈ s.lambdas, l.handle ≤ t.base.draws) ∧
      ∀ c ∈ t.base.calls, c.kind.reports = true → ∃ l ∈ s.lambdas, l.handle = c.handle := by
  obtain ⟨moved, more⟩ := step_calls base
  refine ⟨fun l member => Nat.le_trans (kept.drawn l member) more, ?_⟩
  have staged : ∀ {p : Nat} {c : Call Obj} {stage : CallStage}, s.base.calls[p]? = some c →
      t.base.calls = s.base.calls.set p { c with stage } → ∀ d ∈ t.base.calls,
        d.kind.reports = true → ∃ l ∈ s.lambdas, l.handle = d.handle := by
    intro p c stage found set d member reports
    rw [set] at member
    rcases List.mem_or_eq_of_mem_set member with old | rfl
    · exact kept.known d old reports
    · exact kept.known c (List.mem_of_getElem? found) reports
  generalize t.base = u at moved staged ⊢
  cases moved with
  | @called obj kind srcfunc handle _ appended =>
    intro c member reports
    rw [appended] at member
    rcases List.mem_append.mp member with old | new
    · exact kept.known c old reports
    · rw [List.mem_singleton.mp new] at reports
      exact absurd (reports.symm.trans (calls obj kind srcfunc rfl)) (by simp)
  | entered found _ set => exact staged found set
  | posted found _ _ _ _ set => exact staged found set
  | kept same => exact same ▸ kept.known

theorem began_kept {s t : State Obj} {i now : Nat} {w : Worker Obj} {inst : Obj} {task : Task}
    {l : Lambda} {called : Invocation} (known : Known s) (kept : Kept s)
    (base : DispatchResults.machine.step s.base (.start i now) = some t.base)
    (found : s.base.pool.workers[i]? = some w) (here : w.pos = .taken inst task)
    (reports : task.kind.reports = true) (captured : lambdaOf task.handle s.lambdas = some l)
    (reads : invoke l s.heap = some called) (heap : t.heap = s.heap)
    (lambdas : t.lambdas = s.lambdas) (invoked : t.invoked = s.invoked ++ [called]) : Kept t := by
  obtain ⟨draws, calls⟩ := calls_kept kept base (by simp)
  obtain ⟨starts, returns⟩ : startedHandles t.base.pool.history =
      startedHandles s.base.pool.history ++ [task.handle] ∧
        ∀ h, Returned t.base.pool.history h ↔ Returned s.base.pool.history h := by
    cases step_logged base with
    | started found' here' starts returns =>
      rw [found, Option.some.injEq] at found'
      rw [← found', here, WorkerPos.taken.injEq] at here'
      rw [← here'.2, if_pos reports] at starts
      exact ⟨starts, returns⟩
    | quiet other => exact absurd other (by simp [turns])
  obtain ⟨member, own⟩ := lambdaOf_some captured
  constructor
  case once => exact lambdas ▸ kept.once
  case drawn => exact lambdas ▸ draws
  case known => exact lambdas ▸ calls
  case owned =>
    rw [heap, lambdas]
    apply owned_congr kept.owned _ (fun _ _ => rfl)
    intro h
    rw [Holds, Holds, lambdas, returns]
  case unread =>
    intro l' present unstarted
    rw [starts, List.mem_append, not_or] at unstarted
    rw [heap]
    exact kept.unread l' (lambdas ▸ present) unstarted.1
  case invoked =>
    rw [invoked, starts, List.map_append, List.map_singleton, kept.invoked,
      invoke_handle reads, own]
  case intact =>
    intro given present
    rw [invoked] at present
    rw [lambdas]
    rcases List.mem_append.mp present with old | new
    · exact kept.intact given old
    · have unstarted := taken_unstarted known (List.mem_of_getElem? found) here
      rw [← own] at unstarted
      rw [kept.unread l member unstarted, Option.some.injEq] at reads
      exact ⟨l, member, by rw [List.mem_singleton.mp new, reads]⟩

theorem freed_kept {s t : State Obj} {i : Nat} {ret : Option Int} {w : Worker Obj} {inst : Obj}
    {task : Task} {l : Lambda} (known : Known s) (kept : Kept s)
    (base : DispatchResults.machine.step s.base (.finishTask i ret) = some t.base)
    (found : s.base.pool.workers[i]? = some w) (here : w.pos = .executing inst task)
    (reports : task.kind.reports = true) (returned : ret.isSome = true)
    (captured : lambdaOf task.handle s.lambdas = some l)
    (released : releaseAll l.blocks s.heap = some t.heap) (lambdas : t.lambdas = s.lambdas)
    (invoked : t.invoked = s.invoked) : Kept t := by
  obtain ⟨draws, calls⟩ := calls_kept kept base (by simp)
  obtain ⟨starts, returns⟩ : startedHandles t.base.pool.history =
      startedHandles s.base.pool.history ∧ ∀ h, Returned t.base.pool.history h ↔
        Returned s.base.pool.history h ∨ h = task.handle := by
    cases step_logged base with
    | ended found' here' starts returns =>
      rw [found, Option.some.injEq] at found'
      rw [← found', here, WorkerPos.executing.injEq] at here'
      refine ⟨starts, fun h => ?_⟩
      rw [returns h, ← here'.2]
      simp only [reports, returned, and_true, eq_comm]
    | quiet other => exact absurd other (by simp [turns])
  obtain ⟨holds, blocks, started⟩ := lambda_executing known kept found here reports captured
  obtain ⟨heap, done, others, owned⟩ := owned_release kept.owned holds (List.Perm.of_eq blocks.symm)
  rw [released, Option.some.injEq] at done
  subst done
  constructor
  case once => exact lambdas ▸ kept.once
  case drawn => exact lambdas ▸ draws
  case known => exact lambdas ▸ calls
  case owned =>
    rw [lambdas]
    apply owned_congr owned _ (fun _ _ => rfl)
    intro h
    rw [Holds, Holds, lambdas, returns, not_or, and_assoc]
  case unread =>
    intro l' present' unstarted
    rw [starts] at unstarted
    rw [lambdas] at present'
    have other : l'.handle ≠ task.handle := by
      intro again
      exact unstarted (again ▸ started)
    rw [← kept.unread l' present' unstarted]
    apply invoke_congr
    intro a mine
    apply others l'.handle other (unread_holds known present' unstarted)
    rw [blocksOf_member kept.once present']
    exact mine
  case invoked =>
    rw [invoked, starts]
    exact kept.invoked
  case intact =>
    rw [invoked, lambdas]
    exact kept.intact

theorem wrote_kept {s t : State Obj} {i a : Nat} {bytes : List UInt8} {w : Worker Obj} {inst : Obj}
    {task : Task} {l : Lambda} (known : Known s) (kept : Kept s)
    (found : s.base.pool.workers[i]? = some w) (here : w.pos = .executing inst task)
    (reports : task.kind.reports = true) (captured : lambdaOf task.handle s.lambdas = some l)
    (copy : l.bufCopy = some a) (stored : store a (.data bytes) s.heap = some t.heap)
    (base : t.base = s.base) (lambdas : t.lambdas = s.lambdas) (invoked : t.invoked = s.invoked) :
    Kept t := by
  obtain ⟨holds, blocks, started⟩ := lambda_executing known kept found here reports captured
  have mine : a ∈ blocksOf s.lambdas task.handle := by
    rw [blocks]
    simp [Lambda.blocks, copy]
  constructor
  case once => exact lambdas ▸ kept.once
  case drawn => rw [lambdas, base]; exact kept.drawn
  case known => rw [lambdas, base]; exact kept.known
  case owned =>
    rw [lambdas]
    apply owned_congr (owned_store kept.owned stored) _ (fun _ _ => rfl)
    intro h
    rw [Holds, Holds, lambdas, base]
  case unread =>
    intro l' present' unstarted
    rw [base] at unstarted
    rw [lambdas] at present'
    rw [← kept.unread l' present' unstarted]
    apply invoke_congr
    intro b theirs
    have apart : b ≠ a := by
      rintro rfl
      have one := kept.owned.apart l'.handle task.handle (unread_holds known present' unstarted)
        holds b (by rw [blocksOf_member kept.once present']; exact theirs) mine
      exact unstarted (one ▸ started)
    unfold store at stored
    split at stored
    · exact (congrFun (Option.some.inj stored).symm b).trans (Function.update_of_ne apart _ _)
    · simp at stored
  case invoked =>
    rw [invoked, base]
    exact kept.invoked
  case intact =>
    rw [invoked, lambdas]
    exact kept.intact

theorem step_kept {s t : State Obj} (known : Known s) (kept : Kept s)
    (small : t.base.draws < int64Max) (moved : Moved s t) : Kept t := by
  cases moved with
  | captured base handle allocated blocks reads lambdas invoked =>
    have more : s.base.draws + 1 < int64Max := by
      have called := Option.some.inj base
      rw [← called] at small
      exact small
    exact captured_kept known kept more base handle allocated blocks reads lambdas invoked
  | began base found here reports captured reads heap lambdas invoked =>
    exact began_kept known kept base found here reports captured reads heap lambdas invoked
  | freed base found here reports returned captured released lambdas invoked =>
    exact freed_kept known kept base found here reports returned captured released lambdas invoked
  | wrote found here reports captured copy stored base lambdas invoked =>
    exact wrote_kept known kept found here reports captured copy stored base lambdas invoked
  | plain base calls starts returns heap lambdas invoked =>
    obtain ⟨draws, called⟩ := calls_kept kept base calls
    constructor
    case once => exact lambdas ▸ kept.once
    case drawn => exact lambdas ▸ draws
    case known => exact lambdas ▸ called
    case owned =>
      rw [heap, lambdas]
      apply owned_congr kept.owned _ (fun _ _ => rfl)
      intro h
      rw [Holds, Holds, lambdas, returns]
    case unread =>
      rw [heap, lambdas, starts]
      exact kept.unread
    case invoked =>
      rw [invoked, starts]
      exact kept.invoked
    case intact =>
      rw [invoked, lambdas]
      exact kept.intact

omit [DecidableEq Obj] in
theorem create_kept (now n : Nat) : Kept (create now n : State Obj) := by
  have history : (create now n : State Obj).base.pool.history = [] := by
    induction n with
    | zero => rfl
    | succ n ih => exact ih
  constructor
  case owned => exact owned_empty _ fun h holds => by simp [Holds, create] at holds
  case invoked => rw [history]; rfl
  all_goals simp [create, DispatchResults.create]

theorem kept_reached {s : State Obj} (reached : machine.Reachable s)
    (small : s.base.draws < int64Max) : Known s ∧ Kept s := by
  have both : DispatchResults.machine.Reachable s.base ∧ (s.base.draws < int64Max → Kept s) := by
    apply invariant_of_steps (fun s => DispatchResults.machine.Reachable s.base ∧
      (s.base.draws < int64Max → Kept s)) _ _ reached
    · rintro s ⟨now, n, rfl⟩
      exact ⟨.start ⟨now, n, rfl⟩, fun _ => create_kept now n⟩
    · rintro s a t ⟨before, kept⟩ _ stepped
      have moved := step_moved stepped
      have next : DispatchResults.machine.Reachable t.base ∧ s.base.draws ≤ t.base.draws := by
        cases moved with
        | captured base | began base | freed base | plain base =>
          exact ⟨before.next trivial base, (step_calls base).2⟩
        | wrote _ _ _ _ _ _ base => exact ⟨by rw [base]; exact before, Nat.le_of_eq (by rw [base])⟩
      refine ⟨next.1, fun within => ?_⟩
      have less := Nat.lt_of_le_of_lt next.2 within
      exact step_kept ⟨before, less⟩ (kept less) within moved
  exact ⟨⟨both.1, small⟩, both.2 small⟩

/-- What becomes of the copies: every method that is called gets what was passed to the post of its
    task, no lambda ever reads or deletes a copy that is gone, and the copies that are left are
    those of the tasks that have not returned a value. -/
structure CopiesKept (s : State Obj) : Prop where
  once : (s.lambdas.map Lambda.handle).Nodup
  captured : ∀ c ∈ s.base.calls, c.kind.reports = true → ∃ l ∈ s.lambdas, l.handle = c.handle
  called : s.invoked.map Invocation.handle = startedHandles s.base.pool.history
  intact : ∀ given ∈ s.invoked, ∃ l ∈ s.lambdas, given = l.passed
  used : ∀ a, s.heap a ≠ none ↔
    ∃ l ∈ s.lambdas, a ∈ l.blocks ∧ ¬ Returned s.base.pool.history l.handle
  faultless : ∀ b base, turns b = true → DispatchResults.machine.step s.base b = some base →
    ∃ t, machine.step s (.other b) = some t ∧ t.base = base
  writable : ∀ (i : Nat) (bytes : List UInt8) (w : Worker Obj) (inst : Obj) (task : Task)
    (l : Lambda), s.base.pool.workers[i]? = some w → w.pos = .executing inst task →
      task.kind.reports = true → lambdaOf task.handle s.lambdas = some l → l.bufCopy.isSome = true →
        (machine.step s (.write i bytes)).isSome = true

theorem start_faultless {s : State Obj} (known : Known s) (kept : Kept s) {i now : Nat}
    {base : DispatchResults.State Obj}
    (moved : DispatchResults.machine.step s.base (.start i now) = some base) :
    ∃ t, machine.step s (.other (.start i now)) = some t ∧ t.base = base := by
  have ran : runBase (.start i now) s = some { s with base } := congrArg (Option.map _) moved
  obtain ⟨pool, entered, _⟩ := poolStep_fields moved
  obtain ⟨w, found, run⟩ := Option.bind_eq_some_iff.mp entered
  cases workerStep_moved run with
  | @started _ _ inst task here =>
    have member := List.mem_of_getElem? found
    change ∃ t, step s (.other (.start i now)) = some t ∧ t.base = base
    simp only [step, found, Option.bind_some, here, startLambda]
    split
    · rename_i reports
      have held : heldBy inst w = some (.taken, task) := by simp [heldBy, here]
      obtain ⟨l, present, captured, own, _⟩ := lambda_held known kept member held (by simp) reports
      have unstarted := taken_unstarted known member here
      rw [← own] at unstarted
      rw [captured, Option.bind_some, kept.unread l present unstarted, Option.bind_some, ran]
      exact ⟨_, rfl, rfl⟩
    · exact ⟨_, ran, rfl⟩

theorem finish_faultless {s : State Obj} (known : Known s) (kept : Kept s) {i : Nat}
    {ret : Option Int} {base : DispatchResults.State Obj}
    (moved : DispatchResults.machine.step s.base (.finishTask i ret) = some base) :
    ∃ t, machine.step s (.other (.finishTask i ret)) = some t ∧ t.base = base := by
  have ran : runBase (.finishTask i ret) s = some { s with base } := congrArg (Option.map _) moved
  obtain ⟨w, found, run⟩ := Option.bind_eq_some_iff.mp moved
  split at run
  · rename_i inst task here
    have member := List.mem_of_getElem? found
    change ∃ t, step s (.other (.finishTask i ret)) = some t ∧ t.base = base
    simp only [step, found, Option.bind_some, here, endLambda]
    split
    · rename_i returns
      rw [Bool.and_eq_true] at returns
      have held : heldBy inst w = some (.executing, task) := by simp [heldBy, here]
      obtain ⟨l, _, captured, _, holds⟩ := lambda_held known kept member held (by simp) returns.1
      have blocks := (lambda_executing known kept found here returns.1 captured).2.1
      obtain ⟨heap, released, _⟩ :=
        owned_release kept.owned holds (List.Perm.of_eq blocks.symm)
      rw [captured, Option.bind_some, released, Option.bind_some, ran]
      exact ⟨_, rfl, rfl⟩
    · exact ⟨_, ran, rfl⟩
  · simp at run

/-- Over every run in which handles do not come round again. -/
theorem copies_kept {s : State Obj} (reached : machine.Reachable s)
    (small : s.base.draws < int64Max) : CopiesKept s := by
  obtain ⟨known, kept⟩ := kept_reached reached small
  constructor
  case once => exact kept.once
  case captured => exact kept.known
  case called => exact kept.invoked
  case intact => exact kept.intact
  case used =>
    intro a
    constructor
    · intro there
      obtain ⟨h, ⟨⟨l, member, rfl⟩, waits⟩, mine⟩ := kept.owned.accounted a there
      rw [blocksOf_member kept.once member] at mine
      exact ⟨l, member, mine, waits⟩
    · rintro ⟨l, member, mine, waits⟩
      apply kept.owned.held l.handle ⟨⟨l, member, rfl⟩, waits⟩ a
      rw [blocksOf_member kept.once member]
      exact mine
  case faultless =>
    intro b base turn moved
    cases b with
    | start i now => exact start_faultless known kept moved
    | finishTask i ret => exact finish_faultless known kept moved
    | _ => simp [turns] at turn
  case writable =>
    intro i bytes w inst task l found here reports captured has
    obtain ⟨a, copy⟩ := Option.isSome_iff_exists.mp has
    obtain ⟨holds, blocks, _⟩ := lambda_executing known kept found here reports captured
    have mine : a ∈ blocksOf s.lambdas task.handle := by
      rw [blocks]
      simp [Lambda.blocks, copy]
    have used := kept.owned.held task.handle holds a mine
    change (step s (.write i bytes)).isSome = true
    simp [step, found, here, writeBuf, reports, captured, copy, store,
      Option.isSome_iff_ne_none.mpr used]

/-- Two posts. The method of the first writes to its message and returns, that of the other
    throws, so that the name that was copied for it stays. -/
def twoMessages : List (Action Nat) :=
  [.postQueue 7 "main" true 1 [10, 20] 100 200, .postEvent 8 "init" 2 300, .other (.register 0),
    .other (.register 1), .other (.enter 0), .other (.enter 1), .other (.post 0 [0] 1),
    .other (.post 1 [1] 1), .other (.enter 0), .other (.enter 1), .other (.start 0 2),
    .other (.start 1 2), .write 0 [30, 40], .other (.finishTask 1 none),
    .other (.finishTask 0 (some 5))]

theorem two_messages_kept :
    ∃ s, machine.run (create 0 2) twoMessages = some s ∧ CopiesKept s ∧
      s.invoked = [⟨1, "main", 1, some [10, 20]⟩, ⟨2, "init", 2, none⟩] ∧
      [100, 200, 300].map s.heap = [none, none, some (.text "init")] := by
  have shown : (machine.run (create 0 2) twoMessages).any (fun s => decide (s.base.draws = 2 ∧
      s.invoked = [⟨1, "main", 1, some [10, 20]⟩, ⟨2, "init", 2, none⟩] ∧
        [100, 200, 300].map s.heap = [none, none, some (.text "init")])) = true := by
    decide +kernel
  obtain ⟨s, executed, holds⟩ := (Option.any_eq_true ..).mp shown
  obtain ⟨draws, invoked, left⟩ := of_decide_eq_true holds
  have reached := run_reachable twoMessages (m := machine) ⟨0, 2, rfl⟩ executed
  exact ⟨s, executed, copies_kept reached (by rw [draws]; decide), invoked, left⟩

end Runs

end DispatchMessages
