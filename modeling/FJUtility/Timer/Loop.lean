import FJUtility.Library.LabelledMachine

/- FJTimerLite: the table of timers, the methods that change it, and the thread that runs the
   callbacks. A step is one section under mutex_ or one action of the thread outside it. A label
   carries the clock readings, the handle drawn from the dispatcher, the iteration order
   that an insertion leaves, and what a callback returns. -/
namespace TimerLoop
open LabelledMachine

def minTickMsec : Int := 15
def maxTickMsec : Int := 2000

/-- obj = 0 is a null pointer. timer numbers the entries in the order of their creation, for the
    observer. The names and the time that only the profiler prints are left out. -/
structure TimerInfo where
  handle : Nat
  obj : Nat
  intervalMsec : Int
  nextTime : Int
  active : Bool
  timer : Nat
  deriving DecidableEq, Repr

/-- The copies of handle and obj that the thread takes of the timer it has selected. -/
structure Selection where
  handle : Nat
  obj : Nat
  timer : Nat
  deriving DecidableEq, Repr

inductive ThreadPos where
  | starting
  | passing
  | waiting (deadline : Int)
  | woken
  | selected (of : Selection)
  | inCallback (of : Selection)
  | returned (of : Selection)
  | ended
  deriving DecidableEq, Repr

inductive DestroyPos where
  | alive
  | clearing
  | stopping
  | joining
  | gone
  deriving DecidableEq, Repr

inductive Event where
  | created (timer handle : Nat) (intervalMsec start : Int)
  | removed (timer : Nat)
  | selected (timer : Nat) (intervalMsec now : Int)
  | called (timer : Nat) (now : Int)
  | returned (timer : Nat) (result : Int)
  deriving DecidableEq, Repr

/-- timers is listed in iteration order. it is the handle of the entry at the iterator, none at
    the end; invalid says that the container has invalidated it since it was obtained. -/
structure State where
  timers : List TimerInfo
  baseIntervalMsec : Int
  running : Bool
  stop : Bool
  it : Option Nat
  invalid : Bool
  result : Int
  pos : ThreadPos
  destroying : DestroyPos
  made : Nat
  log : List Event

def find (handle : Nat) (timers : List TimerInfo) : Option TimerInfo :=
  timers.find? fun t => decide (t.handle = handle)

def beginOf (timers : List TimerInfo) : Option Nat := timers.head?.map TimerInfo.handle

def nextOf (handle : Nat) : List TimerInfo → Option Nat
  | [] => none
  | t :: rest => if t.handle = handle then beginOf rest else nextOf handle rest

def alter (handle : Nat) (change : TimerInfo → TimerInfo) (timers : List TimerInfo) :
    List TimerInfo :=
  timers.map fun t => if t.handle = handle then change t else t

def TimerInfo.deactivate (t : TimerInfo) : TimerInfo := { t with active := false }

def TimerInfo.renew (now : Int) (t : TimerInfo) : TimerInfo :=
  { t with nextTime := now + t.intervalMsec }

/-- pthread_cond_broadcast on cv_. -/
def wakeThread (s : State) : State :=
  match s.pos with
  | .waiting _ => { s with pos := .woken }
  | _ => s

/-- timers_.emplace; table is the iteration order that the insertion leaves. -/
def emplace (new : TimerInfo) (start : Int) (table : List TimerInfo) (rehashed : Bool)
    (s : State) : Option State :=
  if (find new.handle s.timers).isSome then some s
  else if table.Perm (new :: s.timers) then
    some { s with
      timers := table
      invalid := s.invalid || rehashed
      made := s.made + 1
      log := s.log ++ [.created new.timer new.handle new.intervalMsec start] }
  else none

def createTimer (handle obj intervalMsec : Nat) (start : Int) (table : List TimerInfo)
    (rehashed : Bool) (s : State) : Option State :=
  if (intervalMsec : Int) < minTickMsec then some s
  else
    let new : TimerInfo := ⟨handle, obj, intervalMsec, start + intervalMsec, true, s.made⟩
    (emplace new start table rehashed s).map fun s =>
      let fifth := (intervalMsec : Int) / 5
      if s.baseIntervalMsec > fifth then wakeThread { s with baseIntervalMsec := fifth } else s

/-- removeTimer(handle); it returns whether the handle is found. -/
def removeTimer (handle : Nat) (s : State) : State :=
  match find handle s.timers with
  | some timer =>
    { s with
      timers := alter handle TimerInfo.deactivate s.timers
      log := s.log ++ [.removed timer.timer] }
  | none => s

/-- One round of the loop of removeTimer(void), and whether it was the last one. -/
def removeAll (s : State) : State × Bool :=
  if s.running then (wakeThread s, false)
  else ({ s with timers := [], baseIntervalMsec := maxTickMsec, invalid := true }, true)

def setBaseIntervalMs (msec : Int) (s : State) : State :=
  if msec ≥ minTickMsec ∧ msec ≤ maxTickMsec then wakeThread { s with baseIntervalMsec := msec }
  else s

/-- The next action of the destructor; pthread_join blocks until the thread ends. -/
def destroy (s : State) : Option State :=
  match s.destroying with
  | .alive => some { s with destroying := .clearing }
  | .clearing =>
    let cleared := removeAll s
    some { cleared.1 with destroying := if cleared.2 then .stopping else .clearing }
  | .stopping => some (wakeThread { s with stop := true, destroying := .joining })
  | .joining => if s.pos = .ended then some { s with destroying := .gone } else none
  | .gone => none

def nextExec (limit : Int) (timers : List TimerInfo) : Int :=
  timers.foldl (fun next t => if t.active && decide (t.nextTime < next) then t.nextTime else next)
    limit

/-- The head of the loop, up to the wait: now is the reading that decides how long to wait,
    start the one the deadline is counted from. The other values of wait are never used. -/
def pass (now start : Int) (s : State) : State :=
  let wait := nextExec (now + maxTickMsec) s.timers - now
  let wait := if wait < minTickMsec then minTickMsec else wait
  { s with running := false, pos := .waiting (start + wait) }

/-- After the wait. An iterator that leads to no entry cannot be dereferenced. -/
def examine (now : Int) (s : State) : Option State :=
  if s.stop then some { s with pos := .ended }
  else match s.it with
  | none =>
    some { s with
      it := beginOf s.timers
      invalid := false
      baseIntervalMsec := if s.timers = [] then maxTickMsec else s.baseIntervalMsec
      pos := .passing }
  | some handle =>
    (find handle s.timers).map fun timer =>
      if !timer.active || decide (now < timer.nextTime) then
        { s with it := nextOf handle s.timers, pos := .passing }
      else
        { s with
          running := true
          timers := alter handle (TimerInfo.renew now) s.timers
          pos := .selected ⟨handle, timer.obj, timer.timer⟩
          log := s.log ++ [.selected timer.timer timer.intervalMsec now] }

def finish (of : Selection) (s : State) : Option State :=
  s.it.bind fun handle =>
    if (find handle s.timers).isSome then
      some { s with
        timers := if s.result < 0 then alter of.handle TimerInfo.deactivate s.timers else s.timers
        it := nextOf handle s.timers
        pos := .passing }
    else none

inductive ThreadAct where
  | begin
  | pass (now start : Int)
  | wake
  | examine (now : Int)
  | call (now : Int)
  | comeBack (result : Int)
  | finish
  deriving DecidableEq, Repr

/-- One action of timerThread; the task leaves result alone when obj is null. -/
def threadStep (s : State) : ThreadAct → ThreadPos → Option State
  | .begin, .starting => some { s with it := beginOf s.timers, invalid := false, pos := .passing }
  | .pass now start, .passing => some (pass now start s)
  | .wake, .waiting _ => some { s with pos := .woken }
  | .examine now, .woken => examine now s
  | .call now, .selected of =>
    if of.obj = 0 then some { s with pos := .returned of }
    else some { s with pos := .inCallback of, log := s.log ++ [.called of.timer now] }
  | .comeBack result, .inCallback of =>
    some { s with result, pos := .returned of, log := s.log ++ [.returned of.timer result] }
  | .finish, .returned of => finish of s
  | _, _ => none

inductive Action where
  | createTimer (handle obj intervalMsec : Nat) (start : Int) (table : List TimerInfo)
      (rehashed : Bool)
  | removeTimer (handle : Nat)
  | removeAll
  | setBaseIntervalMs (msec : Int)
  | destroy
  | thread (act : ThreadAct)
  deriving DecidableEq, Repr

def method (s : State) (section_ : Option State) : Option State :=
  if s.destroying = .gone then none else section_

def step (s : State) : Action → Option State
  | .createTimer handle obj intervalMsec start table rehashed =>
    method s (createTimer handle obj intervalMsec start table rehashed s)
  | .removeTimer handle => method s (some (removeTimer handle s))
  | .removeAll => method s (some (removeAll s).1)
  | .setBaseIntervalMs msec => method s (some (setBaseIntervalMs msec s))
  | .destroy => destroy s
  | .thread act => threadStep s act s.pos

def initial : State where
  timers := []
  baseIntervalMsec := maxTickMsec
  running := false
  stop := false
  it := none
  invalid := false
  result := -1
  pos := .starting
  destroying := .alive
  made := 0
  log := []

def machine : Machine State Action where
  init s := s = initial
  step := step

def chosen : ThreadPos → Option Selection
  | .selected of | .inCallback of | .returned of => some of
  | _ => none

def SameChoice (s t : State) : Prop :=
  t.pos = s.pos ∧ t.running = s.running ∨ chosen s.pos = none ∧ chosen t.pos = none

structure Quiet (s t : State) : Prop where
  timers : t.timers = s.timers
  result : t.result = s.result
  made : t.made = s.made
  log : t.log = s.log
  choice : SameChoice s t

theorem sameChoice_refl (s : State) : SameChoice s s := Or.inl ⟨rfl, rfl⟩

structure Nudged (s t : State) : Prop where
  timers : t.timers = s.timers
  it : t.it = s.it
  invalid : t.invalid = s.invalid
  running : t.running = s.running
  result : t.result = s.result
  made : t.made = s.made
  log : t.log = s.log
  stop : s.stop = true → t.stop = true
  stopping : s.destroying = .stopping → t.destroying = .stopping ∨ t.stop = true
  pos : t.pos = s.pos ∨ ∃ deadline, s.pos = .waiting deadline ∧ t.pos = .woken

theorem nudged_refl (s : State) : Nudged s s :=
  ⟨rfl, rfl, rfl, rfl, rfl, rfl, rfl, id, Or.inl, Or.inl rfl⟩

theorem nudged_wakes {s t : State} (nudged : Nudged s t) : Nudged s (wakeThread t) := by
  unfold wakeThread
  split
  · rename_i deadline waits
    have woken : ∃ deadline, s.pos = .waiting deadline ∧ ThreadPos.woken = .woken := by
      rcases nudged.pos with same | ⟨_, _, woken⟩
      · exact ⟨deadline, same ▸ waits, rfl⟩
      · simp [woken] at waits
    exact { nudged with pos := Or.inr woken }
  · exact nudged

theorem wakeThread_moved (s : State) (deadline : Int) : (wakeThread s).pos ≠ .waiting deadline := by
  unfold wakeThread
  split
  · simp
  · rename_i other
    exact other deadline

theorem nudged_quiet {s t : State} (nudged : Nudged s t) : Quiet s t := by
  constructor
  case timers => exact nudged.timers
  case result => exact nudged.result
  case made => exact nudged.made
  case log => exact nudged.log
  case choice =>
    rcases nudged.pos with same | ⟨deadline, waits, woken⟩
    · exact Or.inl ⟨same, nudged.running⟩
    · exact Or.inr ⟨by simp [chosen, waits], by simp [chosen, woken]⟩

inductive Stepped (s : State) : Action → State → Prop where
  | quiet {a : Action} {t : State} (same : Quiet s t) : Stepped s a t
  | created {handle obj intervalMsec : Nat} {start : Int} {table : List TimerInfo}
      {rehashed : Bool} {t : State} (long : minTickMsec ≤ intervalMsec)
      (fresh : find handle s.timers = none)
      (added : t.timers.Perm
        (⟨handle, obj, intervalMsec, start + intervalMsec, true, s.made⟩ :: s.timers))
      (result : t.result = s.result) (made : t.made = s.made + 1)
      (log : t.log = s.log ++ [.created s.made handle intervalMsec start])
      (choice : SameChoice s t) :
      Stepped s (.createTimer handle obj intervalMsec start table rehashed) t
  | removed {handle : Nat} {timer : TimerInfo} (found : find handle s.timers = some timer) :
      Stepped s (.removeTimer handle)
        { s with
          timers := alter handle TimerInfo.deactivate s.timers
          log := s.log ++ [.removed timer.timer] }
  | cleared {a : Action} {t : State} (idle : s.running = false) (timers : t.timers = [])
      (result : t.result = s.result) (made : t.made = s.made) (log : t.log = s.log)
      (choice : SameChoice s t) : Stepped s a t
  | selected {now : Int} {handle : Nat} {timer : TimerInfo} (here : s.pos = .woken)
      (iterator : s.it = some handle) (found : find handle s.timers = some timer)
      (active : timer.active = true) (due : timer.nextTime ≤ now) :
      Stepped s (.thread (.examine now))
        { s with
          running := true
          timers := alter handle (TimerInfo.renew now) s.timers
          pos := .selected ⟨handle, timer.obj, timer.timer⟩
          log := s.log ++ [.selected timer.timer timer.intervalMsec now] }
  | called {of : Selection} {now : Int} (here : s.pos = .selected of) (object : of.obj ≠ 0) :
      Stepped s (.thread (.call now))
        { s with pos := .inCallback of, log := s.log ++ [.called of.timer now] }
  | spared {of : Selection} {now : Int} (here : s.pos = .selected of) (null : of.obj = 0) :
      Stepped s (.thread (.call now)) { s with pos := .returned of }
  | cameBack {of : Selection} {result : Int} (here : s.pos = .inCallback of) :
      Stepped s (.thread (.comeBack result))
        { s with result, pos := .returned of, log := s.log ++ [.returned of.timer result] }
  | finished {of : Selection} {handle : Nat} (here : s.pos = .returned of)
      (iterator : s.it = some handle) :
      Stepped s (.thread .finish)
        { s with
          timers := if s.result < 0 then alter of.handle TimerInfo.deactivate s.timers else s.timers
          it := nextOf handle s.timers
          pos := .passing }

theorem emplace_cases {new : TimerInfo} {start : Int} {table : List TimerInfo} {rehashed : Bool}
    {s t : State} (entered : emplace new start table rehashed s = some t) :
    t = s ∨ find new.handle s.timers = none ∧ table.Perm (new :: s.timers) ∧
      t = { s with
        timers := table
        invalid := s.invalid || rehashed
        made := s.made + 1
        log := s.log ++ [.created new.timer new.handle new.intervalMsec start] } := by
  unfold emplace at entered
  split at entered
  · exact Or.inl (Option.some.inj entered).symm
  · rename_i absent
    split at entered
    · rename_i perm
      exact Or.inr ⟨by simpa using absent, perm, (Option.some.inj entered).symm⟩
    · simp at entered

theorem createTimer_cases {handle obj intervalMsec : Nat} {start : Int} {table : List TimerInfo}
    {rehashed : Bool} {s t : State}
    (created : createTimer handle obj intervalMsec start table rehashed s = some t) :
    t = s ∨ minTickMsec ≤ intervalMsec ∧ ∃ u,
      emplace ⟨handle, obj, intervalMsec, start + intervalMsec, true, s.made⟩ start table rehashed s =
        some u ∧
      (u.baseIntervalMsec ≤ (intervalMsec : Int) / 5 ∧ t = u ∨
        t = wakeThread { u with baseIntervalMsec := (intervalMsec : Int) / 5 }) := by
  unfold createTimer at created
  split at created
  · exact Or.inl (Option.some.inj created).symm
  · rename_i long
    obtain ⟨u, entered, moved⟩ := Option.map_eq_some_iff.mp created
    refine Or.inr ⟨Int.not_lt.mp long, u, entered, ?_⟩
    dsimp only at moved
    split at moved
    · exact Or.inr moved.symm
    · rename_i small
      exact Or.inl ⟨Int.not_lt.mp small, moved.symm⟩

inductive Called (s : State) : Action → State → Prop where
  | nudged {a : Action} {t : State} (nudged : Nudged s t) : Called s a t
  | entered {handle obj intervalMsec : Nat} {start : Int} {table : List TimerInfo}
      {rehashed : Bool} {t : State} (long : minTickMsec ≤ intervalMsec)
      (absent : find handle s.timers = none)
      (added : t.timers.Perm
        (⟨handle, obj, intervalMsec, start + intervalMsec, true, s.made⟩ :: s.timers))
      (nudged : Nudged
        { s with
          timers := table
          invalid := s.invalid || rehashed
          made := s.made + 1
          log := s.log ++ [.created s.made handle intervalMsec start] } t)
      (silent : s.baseIntervalMsec ≤ (intervalMsec : Int) / 5 ∨
        ∀ deadline, t.pos ≠ .waiting deadline) :
      Called s (.createTimer handle obj intervalMsec start table rehashed) t
  | removed {handle : Nat} {timer : TimerInfo} (found : find handle s.timers = some timer) :
      Called s (.removeTimer handle)
        { s with
          timers := alter handle TimerInfo.deactivate s.timers
          log := s.log ++ [.removed timer.timer] }
  | cleared {a : Action} {destroying : DestroyPos} (idle : s.running = false)
      (clears : a = .removeAll ∧ destroying = s.destroying ∨
        a = .destroy ∧ s.destroying = .clearing ∧ destroying = .stopping) :
      Called s a
        { s with
          timers := []
          baseIntervalMsec := maxTickMsec
          invalid := true
          destroying }

theorem createTimer_called {handle obj intervalMsec : Nat} {start : Int} {table : List TimerInfo}
    {rehashed : Bool} {s t : State}
    (created : createTimer handle obj intervalMsec start table rehashed s = some t) :
    Called s (.createTimer handle obj intervalMsec start table rehashed) t := by
  rcases createTimer_cases created with rfl | ⟨long, u, entered, woken⟩
  · exact .nudged (nudged_refl t)
  · have nudged : Nudged u t := by
      rcases woken with ⟨_, rfl⟩ | rfl
      · exact nudged_refl t
      · exact nudged_wakes { nudged_refl u with }
    rcases emplace_cases entered with rfl | ⟨absent, perm, rfl⟩
    · exact .nudged nudged
    · apply Called.entered long absent (nudged.timers ▸ perm) nudged
      rcases woken with ⟨small, _⟩ | rfl
      · exact Or.inl small
      · exact Or.inr (wakeThread_moved _)

theorem destroy_called {s t : State} (destroyed : destroy s = some t) : Called s .destroy t := by
  unfold destroy at destroyed
  split at destroyed
  · rename_i alive
    obtain rfl := Option.some.inj destroyed
    exact .nudged { nudged_refl s with stopping := fun stopping => by simp [alive] at stopping }
  · rename_i clearing
    obtain rfl := Option.some.inj destroyed
    have early : ∀ {p : Prop}, s.destroying = .stopping → p := by simp [clearing]
    unfold removeAll
    split
    · exact .nudged { nudged_wakes (nudged_refl s) with stopping := early }
    · rename_i idle
      exact .cleared (by simpa using idle) (Or.inr ⟨rfl, clearing, rfl⟩)
  · obtain rfl := Option.some.inj destroyed
    apply Called.nudged
    apply nudged_wakes
    exact { nudged_refl s with stop := fun _ => rfl, stopping := fun _ => Or.inr rfl }
  · rename_i joining
    split at destroyed
    · obtain rfl := Option.some.inj destroyed
      exact .nudged
        { nudged_refl s with stopping := fun stopping => by simp [joining] at stopping }
    · simp at destroyed
  · simp at destroyed

theorem of_method {s t : State} {body : Option State} (entered : method s body = some t) :
    body = some t := by
  unfold method at entered
  split at entered
  · simp at entered
  · exact entered

theorem step_called {s t : State} {a : Action} (other : ∀ act, a ≠ .thread act)
    (stepped : step s a = some t) : Called s a t := by
  cases a with
  | createTimer => exact createTimer_called (of_method stepped)
  | removeTimer handle =>
    obtain rfl := Option.some.inj (of_method stepped)
    unfold removeTimer
    split
    · rename_i timer found
      exact .removed found
    · exact .nudged (nudged_refl s)
  | removeAll =>
    obtain rfl := Option.some.inj (of_method stepped)
    unfold removeAll
    split
    · exact .nudged (nudged_wakes (nudged_refl s))
    · rename_i idle
      exact .cleared (by simpa using idle) (Or.inl ⟨rfl, rfl⟩)
  | setBaseIntervalMs msec =>
    obtain rfl := Option.some.inj (of_method stepped)
    unfold setBaseIntervalMs
    split
    · exact .nudged (nudged_wakes { nudged_refl s with })
    · exact .nudged (nudged_refl s)
  | destroy => exact destroy_called stepped
  | thread act => exact absurd rfl (other act)

theorem called_stepped {s t : State} {a : Action} (called : Called s a t) : Stepped s a t := by
  cases called with
  | nudged nudged => exact .quiet (nudged_quiet nudged)
  | entered long absent added nudged _ =>
    obtain ⟨_, result, made, log, choice⟩ := nudged_quiet nudged
    exact .created long absent added result made log choice
  | removed found => exact .removed found
  | cleared idle _ => exact .cleared idle rfl rfl rfl rfl (sameChoice_refl s)

inductive Threaded (s : State) : ThreadAct → State → Prop where
  | began (here : s.pos = .starting) :
      Threaded s .begin { s with it := beginOf s.timers, invalid := false, pos := .passing }
  | passed {now start : Int} (here : s.pos = .passing) :
      Threaded s (.pass now start) (pass now start s)
  | woken {deadline : Int} (here : s.pos = .waiting deadline) :
      Threaded s .wake { s with pos := .woken }
  | stopped {now : Int} (here : s.pos = .woken) (stops : s.stop = true) :
      Threaded s (.examine now) { s with pos := .ended }
  | restarted {now : Int} (here : s.pos = .woken) (goes : s.stop = false) (ends : s.it = none) :
      Threaded s (.examine now)
        { s with
          it := beginOf s.timers
          invalid := false
          baseIntervalMsec := if s.timers = [] then maxTickMsec else s.baseIntervalMsec
          pos := .passing }
  | skipped {now : Int} {handle : Nat} {timer : TimerInfo} (here : s.pos = .woken)
      (goes : s.stop = false) (iterator : s.it = some handle)
      (found : find handle s.timers = some timer) :
      Threaded s (.examine now) { s with it := nextOf handle s.timers, pos := .passing }
  | selected {now : Int} {handle : Nat} {timer : TimerInfo} (here : s.pos = .woken)
      (goes : s.stop = false) (iterator : s.it = some handle)
      (found : find handle s.timers = some timer) (active : timer.active = true)
      (due : timer.nextTime ≤ now) :
      Threaded s (.examine now)
        { s with
          running := true
          timers := alter handle (TimerInfo.renew now) s.timers
          pos := .selected ⟨handle, timer.obj, timer.timer⟩
          log := s.log ++ [.selected timer.timer timer.intervalMsec now] }
  | spared {of : Selection} {now : Int} (here : s.pos = .selected of) (null : of.obj = 0) :
      Threaded s (.call now) { s with pos := .returned of }
  | called {of : Selection} {now : Int} (here : s.pos = .selected of) (object : of.obj ≠ 0) :
      Threaded s (.call now)
        { s with pos := .inCallback of, log := s.log ++ [.called of.timer now] }
  | cameBack {of : Selection} {result : Int} (here : s.pos = .inCallback of) :
      Threaded s (.comeBack result)
        { s with result, pos := .returned of, log := s.log ++ [.returned of.timer result] }
  | finished {of : Selection} {handle : Nat} (here : s.pos = .returned of)
      (iterator : s.it = some handle) :
      Threaded s .finish
        { s with
          timers := if s.result < 0 then alter of.handle TimerInfo.deactivate s.timers else s.timers
          it := nextOf handle s.timers
          pos := .passing }

theorem examine_threaded {now : Int} {s t : State} (here : s.pos = .woken)
    (examined : examine now s = some t) : Threaded s (.examine now) t := by
  unfold examine at examined
  split at examined
  · rename_i stops
    exact Option.some.inj examined ▸ .stopped here stops
  · rename_i stops
    have goes : s.stop = false := by simpa using stops
    split at examined
    · rename_i ends
      exact Option.some.inj examined ▸ .restarted here goes ends
    · rename_i handle iterator
      obtain ⟨timer, found, moved⟩ := Option.map_eq_some_iff.mp examined
      split at moved
      · exact moved ▸ .skipped here goes iterator found
      · rename_i due
        simp only [Bool.or_eq_true, Bool.not_eq_true', decide_eq_true_eq, not_or,
          Bool.not_eq_false] at due
        exact moved ▸ .selected here goes iterator found due.1 (Int.not_lt.mp due.2)

theorem thread_threaded {s t : State} {act : ThreadAct} (moved : threadStep s act s.pos = some t) :
    Threaded s act t := by
  generalize here : s.pos = pos at moved
  unfold threadStep at moved
  split at moved
  · exact Option.some.inj moved ▸ .began here
  · exact Option.some.inj moved ▸ .passed here
  · exact Option.some.inj moved ▸ .woken here
  · exact examine_threaded here moved
  · split at moved
    · rename_i null
      exact Option.some.inj moved ▸ .spared here null
    · rename_i object
      exact Option.some.inj moved ▸ .called here object
  · exact Option.some.inj moved ▸ .cameBack here
  · unfold finish at moved
    obtain ⟨handle, iterator, rest⟩ := Option.bind_eq_some_iff.mp moved
    split at rest
    · exact Option.some.inj rest ▸ .finished here iterator
    · simp at rest
  · simp at moved

theorem thread_stepped {s t : State} {act : ThreadAct} (moved : Threaded s act t) :
    Stepped s (.thread act) t := by
  cases moved with
  | selected here goes iterator found active due => exact .selected here iterator found active due
  | spared here null => exact .spared here null
  | called here object => exact .called here object
  | cameBack here => exact .cameBack here
  | finished here iterator => exact .finished here iterator
  | began here | passed here | woken here | stopped here | restarted here | skipped here =>
    exact .quiet ⟨rfl, rfl, rfl, rfl, Or.inr ⟨by rw [here]; rfl, rfl⟩⟩

theorem step_stepped {s t : State} {a : Action} (stepped : machine.step s a = some t) :
    Stepped s a t := by
  change step s a = some t at stepped
  cases a with
  | thread act => exact thread_stepped (thread_threaded stepped)
  | _ => exact called_stepped (step_called (by simp) stepped)

end TimerLoop
