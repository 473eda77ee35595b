import FJUtility.Dispatcher.Pool

/- The result_mutex_ side of FJDispatchLite over the pool: one step is one section under
   mutex_ or result_mutex_. A posting call draws its handle, registers it and posts its task
   in three sections, between which any other thread may run. -/
namespace DispatchResults
open LabelledMachine DispatchPool
variable {Obj : Type}

def maxResults : Nat := 100

structure ResultItem where
  value : Int := 0
  ready : Bool := false

inductive CallStage where
  | drawn
  | registered
  | posted
  deriving DecidableEq, Repr

structure Call (Obj : Type) where
  obj : Obj
  kind : PostKind
  srcfunc : String
  handle : Nat
  stage : CallStage := .drawn

inductive Outcome where
  | result (value : Int)
  | timeout
  deriving DecidableEq, Repr

/-- A call of waitResult. The number of its inspections is an observer. -/
structure Waiter where
  handle : Nat
  timeoutMsec : Nat
  start : Nat
  inspections : Nat := 0
  outcome : Option Outcome := none

/-- draws counts the calls of getHandle and registered lists the handles in the order in
    which they entered the table; no section reads these two. -/
structure State (Obj : Type) where
  pool : DispatchPool.State Obj
  results : Nat → Option ResultItem
  resultOrder : List Nat
  calls : List (Call Obj)
  waiters : List Waiter
  draws : Nat
  registered : List Nat

def create (now n : Nat) : State Obj := ⟨DispatchPool.create now n, fun _ => none, [], [], [], 0, []⟩

/-- First half of _new_resultitem. -/
def drawHandle (s : State Obj) : State Obj × Nat :=
  let (pool, handle) := getHandle s.pool
  ({ s with pool, draws := s.draws + 1 }, handle)

/-- The entry of a handle into results_ and result_order_; the oldest goes when full. -/
def enterTable (handle : Nat) (results : Nat → Option ResultItem) (order : List Nat) :
    (Nat → Option ResultItem) × List Nat :=
  let results := Function.update results handle (some {})
  match order ++ [handle] with
  | old :: rest =>
    if (old :: rest).length > maxResults then (Function.update results old none, rest)
    else (results, old :: rest)
  | [] => (results, [])

/-- Second half of _new_resultitem: the section under result_mutex_. -/
def newResultItem (handle : Nat) (s : State Obj) : State Obj :=
  let (results, resultOrder) := enterTable handle s.results s.resultOrder
  { s with results, resultOrder, registered := s.registered ++ [handle] }

def postResultItem (handle : Nat) (value : Int) (results : Nat → Option ResultItem) :
    Nat → Option ResultItem :=
  match results handle with
  | some _ => Function.update results handle (some ⟨value, true⟩)
  | none => results

/-- The lambda of postQueue and postEvent registers what the method returned; it does not get
    there when the method throws, and the task of enqueueTask registers nothing. -/
def reportResult (task : Task) (ret : Option Int) (results : Nat → Option ResultItem) :
    Nat → Option ResultItem :=
  match ret with
  | some value => if task.kind.reports then postResultItem task.handle value results else results
  | none => results

/-- One turn of waitResult's loop, from the lock or the wake-up to the return or the wait. -/
def inspect (now : Nat) (results : Nat → Option ResultItem) (w : Waiter) : Waiter :=
  let seen := { w with inspections := w.inspections + 1 }
  let elapsed : Int := now - w.start
  match results w.handle with
  | some ⟨value, true⟩ => { seen with outcome := some (.result value) }
  | _ => if elapsed ≥ w.timeoutMsec then { seen with outcome := some .timeout } else seen

inductive Action (Obj : Type) where
  | draw
  | call (obj : Obj) (kind : PostKind) (srcfunc : String)
  | register (p : Nat)
  | post (p : Nat) (woken : List Nat) (now : Nat)
  | enter (i : Nat)
  | spurious (i : Nat)
  | start (i now : Nat)
  | finishTask (i : Nat) (ret : Option Int)
  | finish (i : Nat) (woken : List Nat) (now : Nat)
  | stop
  | waitResult (handle timeoutMsec start : Nat)
  | inspect (k now : Nat)

section Sections
variable [DecidableEq Obj]

def postAction (c : Call Obj) (woken : List Nat) (now : Nat) : DispatchPool.Action Obj :=
  match c.kind with
  | .queue isseq => .postQueue c.obj c.handle c.srcfunc isseq woken now
  | .event => .postEvent c.obj c.handle c.srcfunc woken now
  | .enqueue => .enqueueTask c.obj c.handle woken now

/-- enqueueTask posts without registering a result. -/
def mayPost (c : Call Obj) : Bool :=
  if c.kind.reports then c.stage == .registered else c.stage == .drawn

def poolStep (s : State Obj) (a : DispatchPool.Action Obj) : Option (State Obj) :=
  (DispatchPool.step s.pool a).map fun pool => { s with pool }

def step (s : State Obj) : Action Obj → Option (State Obj)
  | .draw => some (drawHandle s).1
  | .call obj kind srcfunc =>
    let (s', handle) := drawHandle s
    some { s' with calls := s.calls ++ [{ obj, kind, srcfunc, handle }] }
  | .register p => s.calls[p]?.bind fun c =>
    if c.kind.reports ∧ c.stage = .drawn then
      some { newResultItem c.handle s with calls := s.calls.set p { c with stage := .registered } }
    else none
  | .post p woken now => s.calls[p]?.bind fun c =>
    if mayPost c then
      (poolStep s (postAction c woken now)).map fun t =>
        { t with calls := s.calls.set p { c with stage := .posted } }
    else none
  | .enter i => poolStep s (.enter i)
  | .spurious i => poolStep s (.spurious i)
  | .start i now => poolStep s (.start i now)
  | .finishTask i ret => s.pool.workers[i]?.bind fun w =>
    match w.pos with
    | .executing _ task => (poolStep s (.finishTask i ret)).map fun t =>
        { t with results := reportResult task ret s.results }
    | _ => none
  | .finish i woken now => poolStep s (.finish i woken now)
  | .stop => poolStep s .stop
  | .waitResult handle timeoutMsec start =>
    some { s with waiters := s.waiters ++ [{ handle, timeoutMsec, start }] }
  | .inspect k now => s.waiters[k]?.bind fun w =>
    if w.outcome = none then
      some { s with waiters := s.waiters.set k (inspect now s.results w) }
    else none

def machine : Machine (State Obj) (Action Obj) where
  init s := ∃ now n, s = create now n
  step := step

end Sections

end DispatchResults
