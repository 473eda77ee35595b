import FJUtility.Dispatcher.InstanceView

/- The pool together with _shrink_workers, which has no caller yet: a call is made at any time,
   by a thread that holds mutex_ or by one that does not. pthread_cancel only marks a worker. It
   ends at its next cancellation point, the wait on cv_ or one inside the task that it executes;
   the wait hands mutex_ back to it before it ends, and no cleanup handler unlocks it. -/
namespace DispatchShrinking
open LabelledMachine DispatchPool DispatchSteps DispatchView TokenQueue AgentList
variable {Obj : Type}

def minThreads : Nat := 1
def defaultThreads : Nat := 2
def idleTimeoutMsec : Nat := 60000

/-- now - last_active_ms in uint64_t. -/
def stale (now : Nat) (w : Worker Obj) : Bool :=
  decide ((now + 2 ^ 64 - w.lastActiveMs) % 2 ^ 64 ≥ idleTimeoutMsec)

/-- A call under way. place is where its iterator stands, joining holds between pthread_cancel
    and the return of pthread_join, and locked says that the caller keeps mutex_. -/
structure Call where
  now : Nat
  locked : Bool
  place : Nat := 0
  joining : Bool := false

/-- lost: mutex_ is owned by a thread that has ended. cancelled and ended are observers, with the
    workers as they were at their pthread_cancel and at their end. -/
structure State (Obj : Type) where
  pool : DispatchPool.State Obj
  call : Option Call := none
  lost : Bool := false
  cancelled : List (Worker Obj) := []
  ended : List (Worker Obj) := []

def mutexFree (s : State Obj) : Bool := !s.lost && !s.call.any Call.locked

/-- A lambda locks mutex_ before it calls the method, a task of enqueueTask does not. -/
def needsMutex (s : DispatchPool.State Obj) : DispatchPool.Action Obj → Bool
  | .spurious _ | .finishTask _ _ => false
  | .start i _ => s.workers[i]?.any fun w => match w.pos with
    | .taken _ task => task.kind.reports
    | _ => false
  | _ => true

def hasExited (w : Worker Obj) : Bool :=
  match w.pos with
  | .exited => true
  | _ => false

def hasTask (w : Worker Obj) : Bool :=
  match w.pos with
  | .taken .. | .executing .. => true
  | _ => false

def cancels (c : Call) (w : Worker Obj) (s : State Obj) : Bool :=
  decide (¬ s.pool.workers.length ≤ minThreads) && stale c.now w

/-- One test of the loop: it ends the call, cancels the worker of the entry or passes it. -/
def shrinkNext (c : Call) (s : State Obj) : State Obj :=
  match s.pool.workers[c.place]? with
  | none => { s with call := none }
  | some w =>
    if s.pool.workers.length ≤ minThreads then { s with call := none }
    else if stale c.now w then
      { s with call := some { c with joining := true }, cancelled := s.cancelled ++ [w] }
    else { s with call := some { c with place := c.place + 1 } }

/-- The marked worker ends: in the wait, once it has mutex_ again, or inside its task. -/
def deliver (c : Call) (w : Worker Obj) (s : State Obj) : Option (State Obj) :=
  let pool := moveTo s.pool c.place w .exited
  match w.pos with
  | .blocked =>
    if mutexFree s then some { s with pool, lost := true, ended := s.ended ++ [w] } else none
  | .executing _ _ => some { s with pool, ended := s.ended ++ [w] }
  | _ => none

/-- pthread_join has returned; the entry is erased and the loop tests the one that follows. -/
def shrinkErase (c : Call) (s : State Obj) : State Obj :=
  { s with
    pool := { s.pool with
      workers := s.pool.workers.eraseIdx c.place
      numOfThreads := s.pool.numOfThreads - 1 }
    call := some { c with joining := false } }

inductive Action (Obj : Type) where
  | pool (a : DispatchPool.Action Obj)
  | shrink (now : Nat) (locked : Bool)
  | next
  | deliver
  | join

def idle (pool : DispatchPool.State Obj) : Bool := pool.workers.all fun w => !hasTask w

section Steps
variable [DecidableEq Obj]

/-- Calls do not overlap. -/
def step (s : State Obj) : Action Obj → Option (State Obj)
  | .pool a =>
    if needsMutex s.pool a && !mutexFree s then none
    else (DispatchPool.step s.pool a).map fun pool => { s with pool }
  | .shrink now locked =>
    if s.call.isNone && !(locked && s.lost) then some { s with call := some { now, locked } }
    else none
  | .next => s.call.bind fun c => if c.joining then none else some (shrinkNext c s)
  | .deliver => s.call.bind fun c =>
    if c.joining then s.pool.workers[c.place]?.bind fun w => deliver c w s else none
  | .join => s.call.bind fun c =>
    if c.joining && s.pool.workers[c.place]?.any hasExited then some (shrinkErase c s) else none

def machine : Machine (State Obj) (Action Obj) where
  init s := ∃ now, s = { pool := create now defaultThreads }
  step := step

/-- A stale entry whose worker holds a task is met only as the last one left, and a worker that is
    marked takes no task before it ends. Where the caller keeps mutex_, or the marked worker ends
    in the wait with it, no worker holds a task. And no post enlarges workers_ under the iterator
    of a call made without mutex_. -/
def spares (s : State Obj) : Action Obj → Bool
  | .pool a => s.call.all fun c => (DispatchPool.step s.pool a).all fun t =>
      (c.locked || decide (t.workers.length = s.pool.workers.length)) &&
        !(c.joining && t.workers[c.place]?.any hasTask)
  | .next => s.call.all fun c => c.joining || s.pool.workers[c.place]?.all fun w =>
      !cancels c w s || !hasTask w && (!c.locked || hasExited w || idle s.pool)
  | .deliver => idle s.pool
  | .shrink _ _ | .join => true

def SparesBusy (s : State Obj) (a : Action Obj) : Prop := spares s a = true

instance (s : State Obj) (a : Action Obj) : Decidable (SparesBusy s a) :=
  inferInstanceAs (Decidable (_ = _))

/-- mutex_ is never given back: its owner has ended, or joins a worker that waits for it. -/
def Stranded (s : State Obj) : Prop :=
  s.lost = true ∨ ∃ c w, s.call = some c ∧ c.locked = true ∧ c.joining = true ∧
    s.pool.workers[c.place]? = some w ∧ hasExited w = false

end Steps

structure Sized (pool : DispatchPool.State Obj) : Prop where
  same : pool.numOfThreads = pool.workers.length
  least : minThreads ≤ pool.workers.length
  most : pool.workers.length ≤ maxThreads

inductive Grown (s t : DispatchPool.State Obj) : Prop where
  | same (length : t.workers.length = s.workers.length) (threads : t.numOfThreads = s.numOfThreads)
  | more (length : t.workers.length = s.workers.length + 1)
      (threads : t.numOfThreads = s.numOfThreads + 1) (below : s.numOfThreads < maxThreads)

theorem grown_sized {s t : DispatchPool.State Obj} (grown : Grown s t) (sized : Sized s) :
    Sized t := by
  obtain ⟨same, least, most⟩ := sized
  cases grown with
  | same length threads => exact ⟨by omega, by omega, by omega⟩
  | more length threads below => exact ⟨by omega, by omega, by omega⟩

theorem grown_length {s t : DispatchPool.State Obj} (grown : Grown s t) :
    s.workers.length ≤ t.workers.length := by
  cases grown with
  | same length => omega
  | more length => omega

theorem adjustWorkers_grown (now : Nat) (s : DispatchPool.State Obj) :
    Grown s (adjustWorkers now s) := by
  unfold adjustWorkers
  split
  · rename_i grows
    exact .more (by simp [spawnWorker]) rfl grows.2
  · exact .same rfl rfl

theorem create_sized (now : Nat) : Sized (create now defaultThreads : DispatchPool.State Obj) :=
  ⟨rfl, Nat.le_add_left 1 1, (by decide : 2 ≤ maxThreads)⟩

structure Bounded (s : State Obj) : Prop where
  sized : Sized s.pool
  joins : ∀ c, s.call = some c → c.joining = true → minThreads < s.pool.workers.length

theorem grown_bounded {s t : State Obj} (bounded : Bounded s) (grown : Grown s.pool t.pool)
    (call : t.call = s.call) : Bounded t where
  sized := grown_sized grown bounded.sized
  joins c here joining :=
    Nat.lt_of_lt_of_le (bounded.joins c (call ▸ here) joining) (grown_length grown)

theorem idle_iff {pool : DispatchPool.State Obj} :
    idle pool = true ↔ ∀ w ∈ pool.workers, hasTask w = false := by
  simp [idle]

theorem stranded_kept {s : State Obj} (stranded : Stranded s) : mutexFree s = false := by
  rcases stranded with lost | ⟨c, w, call, locked, _⟩
  · simp [mutexFree, lost]
  · simp [mutexFree, call, locked]

section Runs
variable [DecidableEq Obj]

theorem postSection_grown {parallel : Bool} {obj : Obj} {task : Task} {woken : List Nat} {now : Nat}
    {s t : DispatchPool.State Obj}
    (posted : postSection parallel obj task woken now s = some t) : Grown s t := by
  obtain ⟨u, entered, rfl⟩ := postSection_posted posted
  have before : u.workers.length = s.workers.length ∧ u.numOfThreads = s.numOfThreads := by
    cases entered with
    | readied => exact ⟨by simp [wake], rfl⟩
    | queued => exact ⟨rfl, rfl⟩
  cases adjustWorkers_grown now u with
  | same length threads => exact .same (length.trans before.1) (threads.trans before.2)
  | more length threads below =>
    rw [before.1] at length
    rw [before.2] at threads below
    exact .more length threads below

theorem workerStep_grown {s t : DispatchPool.State Obj} {i : Nat} {w : Worker Obj}
    {a : DispatchPool.Action Obj} (moved : workerStep i w s a w.pos = some t) : Grown s t := by
  cases workerStep_moved moved with
  | passed => exact .same rfl rfl
  | readied => exact .same (by simp [moveTo, wake]) rfl
  | exited | slept | took | spurious | started | ended | drained => exact .same List.length_set rfl

theorem pool_grown {s t : DispatchPool.State Obj} {a : DispatchPool.Action Obj}
    (stepped : DispatchPool.step s a = some t) : Grown s t := by
  cases a with
  | postQueue | postEvent | enqueueTask => exact postSection_grown stepped
  | getHandle =>
    rw [← Option.some.inj stepped]
    exact .same rfl rfl
  | stop =>
    rw [← Option.some.inj stepped]
    exact .same (by simp [stopSection]) rfl
  | enter | spurious | start | finishTask | finish =>
    obtain ⟨w, _, moved⟩ := Option.bind_eq_some_iff.mp stepped
    exact workerStep_grown moved

inductive Stepped (s : State Obj) : Action Obj → State Obj → Prop where
  | pool {a : DispatchPool.Action Obj} {pool : DispatchPool.State Obj}
      (moved : DispatchPool.step s.pool a = some pool)
      (allowed : mutexFree s = true ∨ needsMutex s.pool a = false) :
      Stepped s (.pool a) { s with pool }
  | begun {now : Nat} {locked : Bool} (alone : s.call = none)
      (owned : locked = true → s.lost = false) :
      Stepped s (.shrink now locked) { s with call := some { now, locked } }
  | finished {c : Call} (call : s.call = some c) (tests : c.joining = false) :
      Stepped s .next { s with call := none }
  | cancelled {c : Call} {w : Worker Obj} (call : s.call = some c) (tests : c.joining = false)
      (entry : s.pool.workers[c.place]? = some w) (marks : cancels c w s = true) :
      Stepped s .next
        { s with call := some { c with joining := true }, cancelled := s.cancelled ++ [w] }
  | passed {c : Call} (call : s.call = some c) (tests : c.joining = false) :
      Stepped s .next { s with call := some { c with place := c.place + 1 } }
  | waiting {c : Call} {w : Worker Obj} (call : s.call = some c) (joins : c.joining = true)
      (entry : s.pool.workers[c.place]? = some w) (here : w.pos = .blocked)
      (free : mutexFree s = true) :
      Stepped s .deliver
        { s with pool := moveTo s.pool c.place w .exited, lost := true, ended := s.ended ++ [w] }
  | executing {c : Call} {w : Worker Obj} {inst : Obj} {task : Task} (call : s.call = some c)
      (joins : c.joining = true) (entry : s.pool.workers[c.place]? = some w)
      (here : w.pos = .executing inst task) :
      Stepped s .deliver
        { s with pool := moveTo s.pool c.place w .exited, ended := s.ended ++ [w] }
  | joined {c : Call} {w : Worker Obj} (call : s.call = some c) (joins : c.joining = true)
      (entry : s.pool.workers[c.place]? = some w) (here : w.pos = .exited) :
      Stepped s .join (shrinkErase c s)

theorem shrinkNext_stepped {s : State Obj} {c : Call} (call : s.call = some c)
    (tests : c.joining = false) : Stepped s .next (shrinkNext c s) := by
  unfold shrinkNext
  split
  · exact .finished call tests
  · rename_i w entry
    split
    · exact .finished call tests
    · rename_i large
      split
      · rename_i old
        exact .cancelled call tests entry (by simp [cancels, large, old])
      · exact .passed call tests

theorem deliver_stepped {s t : State Obj} {c : Call} {w : Worker Obj} (call : s.call = some c)
    (joins : c.joining = true) (entry : s.pool.workers[c.place]? = some w)
    (delivered : deliver c w s = some t) : Stepped s .deliver t := by
  simp only [deliver] at delivered
  split at delivered
  · rename_i here
    split at delivered
    · rename_i free
      exact Option.some.inj delivered ▸ .waiting call joins entry here free
    · simp at delivered
  · rename_i inst task here
    exact Option.some.inj delivered ▸ .executing call joins entry here
  · simp at delivered

theorem step_stepped {s t : State Obj} {a : Action Obj} (stepped : step s a = some t) :
    Stepped s a t := by
  cases a with
  | pool a =>
    simp only [step] at stepped
    split at stepped
    · simp at stepped
    · rename_i allowed
      obtain ⟨pool, moved, rfl⟩ := Option.map_eq_some_iff.mp stepped
      refine .pool moved ?_
      cases free : mutexFree s <;> simp_all
  | shrink now locked =>
    simp only [step] at stepped
    split at stepped
    · rename_i starts
      simp only [Bool.and_eq_true, Option.isNone_iff_eq_none, Bool.not_eq_true',
        Bool.and_eq_false_iff] at starts
      refine Option.some.inj stepped ▸ .begun starts.1 fun owned => ?_
      exact starts.2.resolve_left (by simp [owned])
    · simp at stepped
  | next =>
    obtain ⟨c, call, tested⟩ := Option.bind_eq_some_iff.mp stepped
    split at tested
    · simp at tested
    · rename_i tests
      exact Option.some.inj tested ▸ shrinkNext_stepped call (by simpa using tests)
  | deliver =>
    obtain ⟨c, call, rest⟩ := Option.bind_eq_some_iff.mp stepped
    split at rest
    · rename_i joins
      obtain ⟨w, entry, delivered⟩ := Option.bind_eq_some_iff.mp rest
      exact deliver_stepped call joins entry delivered
    · simp at rest
  | join =>
    obtain ⟨c, call, rest⟩ := Option.bind_eq_some_iff.mp stepped
    split at rest
    · rename_i returns
      simp only [Bool.and_eq_true, Option.any_eq_true] at returns
      obtain ⟨joins, w, entry, gone⟩ := returns
      have here : w.pos = .exited := by
        unfold hasExited at gone
        split at gone
        · assumption
        · simp at gone
      exact Option.some.inj rest ▸ .joined call joins entry here
    · simp at rest

theorem step_bounded {s t : State Obj} {a : Action Obj} (bounded : Bounded s)
    (stepped : Stepped s a t) : Bounded t := by
  obtain ⟨sized, joins⟩ := bounded
  cases stepped with
  | pool moved allowed => exact grown_bounded ⟨sized, joins⟩ (pool_grown moved) rfl
  | begun alone owned =>
    refine ⟨sized, fun c call joining => ?_⟩
    obtain rfl := Option.some.inj call
    simp at joining
  | finished call tests => exact ⟨sized, fun c none => by simp at none⟩
  | cancelled call tests entry marks =>
    simp only [cancels, Bool.and_eq_true, decide_eq_true_eq, Nat.not_le] at marks
    exact ⟨sized, fun _ _ _ => marks.1⟩
  | passed call tests =>
    refine ⟨sized, fun c' call' joining => ?_⟩
    obtain rfl := Option.some.inj call'
    simp [tests] at joining
  | waiting | executing => exact grown_bounded ⟨sized, joins⟩ (.same List.length_set rfl) rfl
  | joined call joining entry here =>
    have more := joins _ call joining
    have length := List.length_eraseIdx_of_lt (List.getElem?_eq_some_iff.mp entry).1
    obtain ⟨same, least, most⟩ := sized
    simp only [minThreads] at more
    refine ⟨⟨?_, ?_, ?_⟩, fun c' call' joining' => ?_⟩
    · simp only [shrinkErase, same, length]
    · simp only [shrinkErase, length, minThreads]
      omega
    · simp only [shrinkErase, length]
      omega
    · obtain rfl := Option.some.inj call'
      simp at joining'

/-- The size is right over every run, whatever _shrink_workers cancels and whenever it does. -/
theorem pool_sized_reached {guard : State Obj → Action Obj → Prop} {s : State Obj}
    (reached : machine.ReachableBy guard s) : Sized s.pool := by
  have bounded : Bounded s := by
    refine invariant_of_steps Bounded ?_ ?_ reached
    · rintro s ⟨now, rfl⟩
      exact ⟨create_sized now, fun c none => by simp at none⟩
    · exact fun s a t before _ stepped => step_bounded before (step_stepped stepped)
  exact bounded.sized

theorem unlocked_moved {s t : DispatchPool.State Obj} {a : DispatchPool.Action Obj}
    (unlocked : needsMutex s a = false) (stepped : DispatchPool.step s a = some t) :
    ∃ (i : Nat) (w w' : Worker Obj), s.workers[i]? = some w ∧ t.workers = s.workers.set i w' ∧
      hasExited w = false ∧ (hasTask w' = true → hasTask w = true) := by
  cases a with
  | postQueue | postEvent | enqueueTask | getHandle | enter | finish | stop =>
    simp [needsMutex] at unlocked
  | spurious i =>
    obtain ⟨w, found, moved⟩ := Option.bind_eq_some_iff.mp stepped
    cases workerStep_moved moved with
    | spurious here => exact ⟨i, w, _, found, rfl, by simp [hasExited, here], by simp [hasTask]⟩
  | start i now =>
    obtain ⟨w, found, moved⟩ := Option.bind_eq_some_iff.mp stepped
    cases workerStep_moved moved with
    | started here => exact ⟨i, w, _, found, rfl, by simp [hasExited, here], by simp [hasTask, here]⟩
  | finishTask i ret =>
    obtain ⟨w, found, moved⟩ := Option.bind_eq_some_iff.mp stepped
    cases workerStep_moved moved with
    | ended here => exact ⟨i, w, _, found, rfl, by simp [hasExited, here], by simp [hasTask]⟩

/-- While mutex_ is kept for ever, the workers are those that were there, and none gets a task. -/
theorem pool_stranded {s : State Obj} {a : DispatchPool.Action Obj} {pool : DispatchPool.State Obj}
    (moved : DispatchPool.step s.pool a = some pool)
    (allowed : mutexFree s = true ∨ needsMutex s.pool a = false)
    (stranded : Stranded { s with pool }) (before : Stranded s → idle s.pool = true) :
    idle pool = true := by
  have kept : mutexFree s = false := stranded_kept (s := { s with pool }) stranded
  obtain ⟨i, w, w', found, set, lives, noNew⟩ :=
    unlocked_moved (allowed.resolve_left (by simp [kept])) moved
  have already : Stranded s := by
    rcases stranded with lost | ⟨c, x', call, locked, joins, entry, waits⟩
    · exact Or.inl lost
    · by_cases own : i = c.place
      · exact Or.inr ⟨c, w, call, locked, joins, own ▸ found, lives⟩
      · have entry : pool.workers[c.place]? = some x' := entry
        rw [set, List.getElem?_set_ne own] at entry
        exact Or.inr ⟨c, x', call, locked, joins, entry, waits⟩
  have free := idle_iff.mp (before already)
  apply idle_iff.mpr
  intro x member
  rw [set] at member
  rcases (mem_set_iff found).mp member with rfl | other
  · apply Bool.eq_false_iff.mpr
    intro busy
    simp [free w (List.mem_of_getElem? found)] at noNew
    simp [noNew] at busy
  · exact free x (List.mem_of_mem_eraseIdx other)

theorem exit_accounted {obj : Obj} {pool : DispatchPool.State Obj} {i : Nat} {w : Worker Obj}
    (found : pool.workers[i]? = some w) (here : w.pos = .blocked)
    (accounted : Accounted (view obj pool)) :
    Accounted (view obj (moveTo pool i w .exited)) :=
  move_accounted (unseen_move obj found .exited (by simp [heldBy, here])) accounted

theorem erase_accounted {obj : Obj} {s : State Obj} {c : Call} {w : Worker Obj}
    (entry : s.pool.workers[c.place]? = some w) (here : w.pos = .exited)
    (accounted : Accounted (view obj s.pool)) :
    Accounted (view obj (shrinkErase c s).pool) := by
  have same : view obj (shrinkErase c s).pool = view obj s.pool := by
    simp only [view, shrinkErase]
    rw [filterMap_erase_unseen (heldBy obj) entry (by simp [heldBy, here])]
  exact same ▸ accounted

/-- No worker is cancelled or ends with a task, nor has one in between, every task taken from a
    queue is with a worker or has come to its end, and none is with a worker once mutex_ is kept
    for ever. -/
structure Spared (s : State Obj) : Prop where
  cancelled : ∀ w ∈ s.cancelled, hasTask w = false
  marked : ∀ c w, s.call = some c → c.joining = true → s.pool.workers[c.place]? = some w →
    hasTask w = false
  ended : ∀ w ∈ s.ended, hasTask w = false
  accounted : ∀ obj, Accounted (view obj s.pool)
  unstranded : Stranded s → idle s.pool = true

structure Sound (s : State Obj) : Prop extends Spared s where
  sized : Sized s.pool

theorem pool_marked {s : State Obj} {a : DispatchPool.Action Obj} {pool : DispatchPool.State Obj}
    {c : Call} {w : Worker Obj} (spares : SparesBusy s (.pool a))
    (moved : DispatchPool.step s.pool a = some pool) (call : s.call = some c)
    (joins : c.joining = true) (entry : pool.workers[c.place]? = some w) : hasTask w = false := by
  simp only [SparesBusy, DispatchShrinking.spares, call, Option.all_some, moved, joins, entry,
    Option.any_some, Bool.true_and, Bool.and_eq_true, Bool.not_eq_true'] at spares
  exact spares.2

/-- A worker that ends in the wait leaves nobody with a task, and takes none along. -/
theorem waiting_spared {s : State Obj} {c : Call} {w : Worker Obj} (before : Spared s)
    (alone : idle s.pool = true) (call : s.call = some c)
    (entry : s.pool.workers[c.place]? = some w) (here : w.pos = .blocked) :
    Spared { s with
      pool := moveTo s.pool c.place w .exited, lost := true, ended := s.ended ++ [w] } := by
  have free := idle_iff.mp alone
  refine ⟨before.cancelled, fun c' x call' _ is => ?_, fun x member => ?_,
    fun obj => exit_accounted entry here (before.accounted obj),
    fun _ => idle_iff.mpr fun x member => ?_⟩
  · obtain rfl := Option.some.inj (call.symm.trans call')
    rw [set_at entry is]
    rfl
  · rcases List.mem_append.mp member with old | new
    · exact before.ended x old
    · exact List.mem_singleton.mp new ▸ free w (List.mem_of_getElem? entry)
  · rcases (mem_set_iff entry).mp member with rfl | other
    · rfl
    · exact free x (List.mem_of_mem_eraseIdx other)

theorem joined_spared {s : State Obj} {c : Call} {w : Worker Obj} (before : Spared s)
    (entry : s.pool.workers[c.place]? = some w) (here : w.pos = .exited) :
    Spared (shrinkErase c s) := by
  refine ⟨before.cancelled, fun c' x call' joins' => ?_, before.ended,
    fun obj => erase_accounted entry here (before.accounted obj),
    fun stranded => idle_iff.mpr fun x member => ?_⟩
  · obtain rfl := Option.some.inj call'
    simp at joins'
  · have lost : s.lost = true := by
      rcases stranded with lost | ⟨c', w', call', _, joins', _⟩
      · exact lost
      · obtain rfl := Option.some.inj call'
        simp at joins'
    exact idle_iff.mp (before.unstranded (Or.inl lost)) x (List.mem_of_mem_eraseIdx member)

theorem cancelled_spared {s : State Obj} {c : Call} {w : Worker Obj} (before : Spared s)
    (spares : SparesBusy s .next) (call : s.call = some c) (tests : c.joining = false)
    (entry : s.pool.workers[c.place]? = some w) (marks : cancels c w s = true) :
    Spared { s with call := some { c with joining := true }, cancelled := s.cancelled ++ [w] } := by
  simp only [SparesBusy, DispatchShrinking.spares, call, Option.all_some, tests, Bool.false_or,
    entry, marks, Bool.not_true, Bool.and_eq_true, Bool.not_eq_true', Bool.or_eq_true] at spares
  obtain ⟨free, alone⟩ := spares
  refine ⟨fun x member => ?_, fun c' x call' _ entry' => ?_, before.ended, before.accounted,
    fun stranded => ?_⟩
  · rcases List.mem_append.mp member with old | new
    · exact before.cancelled x old
    · exact List.mem_singleton.mp new ▸ free
  · obtain rfl := Option.some.inj call'
    exact Option.some.inj (entry.symm.trans entry') ▸ free
  · rcases stranded with lost | ⟨c', x, call', locked, _, entry', waits⟩
    · exact before.unstranded (Or.inl lost)
    · obtain rfl := Option.some.inj call'
      obtain rfl := Option.some.inj (entry.symm.trans entry')
      simpa [show c.locked = true from locked, waits] using alone

/-- A change of the call that does not join a worker strands nobody. -/
theorem call_spared {s : State Obj} {call : Option Call} (before : Spared s)
    (tests : ∀ c, call = some c → c.joining = false) : Spared { s with call } := by
  refine ⟨before.cancelled, fun c w call' joins => ?_, before.ended, before.accounted,
    fun stranded => ?_⟩
  · simp [tests c call'] at joins
  · rcases stranded with lost | ⟨c, w, call', _, joins, _⟩
    · exact before.unstranded (Or.inl lost)
    · simp [tests c call'] at joins

theorem step_spared {s t : State Obj} {a : Action Obj} (before : Spared s) (spares : SparesBusy s a)
    (stepped : Stepped s a t) : Spared t := by
  cases stepped with
  | pool moved allowed =>
    exact ⟨before.cancelled, fun c w call joins entry => pool_marked spares moved call joins entry,
      before.ended, fun obj => move_accounted (step_move obj moved) (before.accounted obj),
      fun stranded => pool_stranded moved allowed stranded before.unstranded⟩
  | begun alone owned => exact call_spared before fun c call => Option.some.inj call ▸ rfl
  | finished call tests => exact call_spared before fun c none => by simp at none
  | cancelled call tests entry marks =>
    exact cancelled_spared before spares call tests entry marks
  | passed call tests =>
    exact call_spared before fun c call' => Option.some.inj call' ▸ tests
  | waiting call joins entry here free => exact waiting_spared before spares call entry here
  | executing call joins entry here =>
    have free := before.marked _ _ call joins entry
    simp [hasTask, here] at free
  | joined call joins entry here => exact joined_spared before entry here

theorem create_spared (now : Nat) : Spared ({ pool := create now defaultThreads } : State Obj) where
  cancelled w member := by simp at member
  marked c w none := by simp at none
  ended w member := by simp at member
  accounted obj := view_create obj now defaultThreads ▸ accounted_empty
  unstranded stranded := by
    rcases stranded with lost | ⟨c, w, none, _⟩
    · simp at lost
    · simp at none

/-- Over every run whose cancellations meet the condition. -/
theorem shrinking_sound {s : State Obj} (reached : machine.ReachableBy SparesBusy s) : Sound s := by
  have spared : Spared s := by
    refine invariant_of_steps Spared ?_ ?_ reached
    · rintro s ⟨now, rfl⟩
      exact create_spared now
    · exact fun s a t before spares stepped => step_spared before spares (step_stepped stepped)
  exact ⟨spared, pool_sized_reached reached⟩

end Runs

/-- Worker 1 has ended a task ten seconds before the call. Worker 0 has never had one; it is
    cancelled in the wait, and ends there while no worker has a task. -/
def idleShrink : List (Action Nat) :=
  [.pool (.postQueue 7 1 "main" true [] 0), .pool (.enter 1), .pool (.start 1 100),
    .pool (.finishTask 1 (some 0)), .pool (.finish 1 [] 50000), .pool (.enter 0),
    .shrink 60000 false, .next, .deliver, .join, .next]

theorem idle_shrink_sound : ∃ s, machine.runBy (fun s a => decide (SparesBusy s a))
    { pool := create 0 defaultThreads } idleShrink = some s ∧ s.ended.length = 1 ∧ Sound s := by
  obtain ⟨s, executed, shown, reached⟩ := guarded_shows (m := machine)
    (s := { pool := create 0 defaultThreads }) SparesBusy idleShrink ⟨0, rfl⟩
    (fun s => decide (s.ended.length = 1)) (by decide)
  exact ⟨s, executed, of_decide_eq_true shown, shrinking_sound reached⟩

def busyShrink : List (Action Nat) :=
  [.pool (.postQueue 7 1 "main" true [] 0), .pool (.enter 0), .pool (.start 0 1),
    .shrink 60000 true, .next]

theorem long_task_cancelled : ¬ ∀ s : State Nat, machine.Reachable s → Sound s := by
  intro sound
  obtain ⟨s, reached, shown⟩ := run_shows (m := machine) (s := { pool := create 0 defaultThreads })
    busyShrink ⟨0, rfl⟩ (fun s => s.cancelled.any hasTask) (by decide)
  obtain ⟨w, member, busy⟩ := List.any_eq_true.mp shown
  rw [(sound s reached).cancelled w member] at busy
  exact Bool.noConfusion busy

end DispatchShrinking
