import Mathlib.Algebra.Group.Nat.Defs
import FJUtility.Library.CircularOrder
import FJUtility.Dispatcher.ResultGuarantees
import FJUtility.Timer.Table

/- The handles of posts and timers. The timers draw theirs from the counter of the dispatcher,
   so the two classes are run together here. -/
namespace DispatchHandles
open LabelledMachine CircularOrder DispatchPool DispatchGuarantees DispatchResults
  DispatchResultGuarantees
variable {Obj : Type}

/-- What the n-th call of getHandle returns: 1 once, then 2 up to the limit in a circle. -/
def handleOf (limit : Nat) : Nat → Nat
  | 0 => 1
  | n + 1 => 2 + position (limit - 1) 0 n

section Sequence
variable {limit : Nat}

theorem handleOf_later (n : Nat) : handleOf limit (n + 1) = 2 + position (limit - 1) 0 n := rfl

theorem handleOf_bounds (wide : 2 ≤ limit) (n : Nat) :
    1 ≤ handleOf limit n ∧ handleOf limit n ≤ limit := by
  cases n with
  | zero => exact ⟨Nat.le_refl 1, Nat.le_of_lt wide⟩
  | succ n =>
    have within : position (limit - 1) 0 n < limit - 1 := position_lt 0 n (by omega)
    rw [handleOf_later]
    constructor
    · omega
    · omega

theorem handleOf_next (wide : 2 ≤ limit) (n : Nat) :
    (if handleOf limit n ≥ limit then 1 else handleOf limit n) + 1 = handleOf limit (n + 1) := by
  have some_ : 0 < limit - 1 := by omega
  cases n with
  | zero =>
    rw [handleOf_later, position_first some_]
    exact congrArg (· + 1) (if_neg (Nat.not_le_of_lt wide))
  | succ n =>
    have within := position_lt 0 n some_
    rw [handleOf_later, handleOf_later, ← position_next]
    split
    · rename_i last
      have wrapped : position (limit - 1) 0 n + 1 = limit - 1 := by omega
      rw [wrapped, Nat.mod_self]
    · rename_i early
      rw [Nat.mod_eq_of_lt (by omega)]
      omega

theorem handleOf_apart {i j : Nat} (later : i < j) (near : j - i < limit - 1) :
    handleOf limit i ≠ handleOf limit j := by
  cases j with
  | zero => exact absurd later (Nat.not_lt_zero i)
  | succ j =>
    cases i with
    | zero =>
      rw [handleOf_later]
      change 1 ≠ _
      omega
    | succ i =>
      have apart : position (limit - 1) 0 i ≠ position (limit - 1) 0 j :=
        position_apart (Nat.lt_of_succ_lt_succ later) (by omega)
      rw [handleOf_later, handleOf_later]
      omega

theorem handleOf_around (n : Nat) : handleOf limit (n + 1 + (limit - 1)) = handleOf limit (n + 1) := by
  rw [Nat.add_right_comm, handleOf_later, handleOf_later, position_around]

end Sequence

/-- drawn lists what the calls of getHandle have returned, in their order, and answers what
    createTimer has returned for which interval; both are observers. -/
structure State (Obj : Type) where
  dispatch : DispatchResults.State Obj
  timer : TimerLoop.State
  drawn : List Nat
  answers : List (Nat × Nat)

/-- createTimer draws its handle inside its own section: getHandle is the only section of the
    dispatcher that it enters, and the dispatcher never looks at the timers. -/
inductive Action (Obj : Type) where
  | dispatch (a : DispatchResults.Action Obj)
  | createTimer (obj intervalMsec : Nat) (start : Int) (table : List TimerLoop.TimerInfo)
      (rehashed : Bool)
  | timer (a : TimerLoop.Action)

def drawnBy (s : DispatchResults.State Obj) (a : DispatchResults.Action Obj) : List Nat :=
  if draws a then [(drawHandle s).2] else []

structure Numbered (s : State Obj) : Prop where
  drawn : s.drawn = (List.range s.drawn.length).map (handleOf int64Max)
  counter : s.dispatch.pool.handleCounter + 1 = handleOf int64Max s.drawn.length

theorem wide : 2 ≤ int64Max := by decide

theorem numbered_handle {s : State Obj} (numbered : Numbered s) {i handle : Nat}
    (drawn : s.drawn[i]? = some handle) : handle = handleOf int64Max i := by
  rw [numbered.drawn, List.getElem?_map, Option.map_eq_some_iff] at drawn
  obtain ⟨n, place, same⟩ := drawn
  obtain ⟨_, number⟩ := List.getElem?_eq_some_iff.mp place
  rw [List.getElem_range] at number
  rw [← same, number]

inductive Counted (s t : State Obj) : Prop where
  | still (counter : t.dispatch.pool.handleCounter = s.dispatch.pool.handleCounter)
      (drawn : t.drawn = s.drawn)
  | drew (counter : t.dispatch.pool.handleCounter = (getHandle s.dispatch.pool).1.handleCounter)
      (drawn : t.drawn = s.drawn ++ [(getHandle s.dispatch.pool).2])

theorem counted_numbered {s t : State Obj} (before : Numbered s) (counted : Counted s t) :
    Numbered t := by
  cases counted with
  | still counter drawn =>
    constructor
    · rw [drawn]
      exact before.drawn
    · rw [drawn, counter]
      exact before.counter
  | drew counter drawn =>
    have handle : (getHandle s.dispatch.pool).2 = handleOf int64Max s.drawn.length := before.counter
    have left : (getHandle s.dispatch.pool).1.handleCounter =
        if handleOf int64Max s.drawn.length ≥ int64Max then 1
        else handleOf int64Max s.drawn.length := by
      rw [← before.counter]
      rfl
    rw [handle] at drawn
    have longer : t.drawn.length = s.drawn.length + 1 := by
      rw [drawn, List.length_append, List.length_singleton]
    constructor
    · rw [longer, List.range_succ, List.map_append, ← before.drawn, drawn]
      rfl
    · rw [longer, counter, left]
      exact handleOf_next wide s.drawn.length

section Machine
variable [DecidableEq Obj]

def step (s : State Obj) : Action Obj → Option (State Obj)
  | .dispatch .draw => none
  | .dispatch a => (DispatchResults.step s.dispatch a).map fun dispatch =>
      { s with dispatch, drawn := s.drawn ++ drawnBy s.dispatch a }
  | .createTimer obj intervalMsec start table rehashed =>
    if (intervalMsec : Int) < TimerLoop.minTickMsec then
      (TimerLoop.step s.timer (.createTimer 0 obj intervalMsec start table rehashed)).map fun timer =>
        { s with timer, answers := s.answers ++ [(intervalMsec, 0)] }
    else
      let (dispatch, handle) := drawHandle s.dispatch
      (TimerLoop.step s.timer (.createTimer handle obj intervalMsec start table rehashed)).map
        fun timer =>
          { dispatch, timer, drawn := s.drawn ++ [handle]
            answers := s.answers ++ [(intervalMsec, handle)] }
  | .timer (.createTimer ..) => none
  | .timer a => (TimerLoop.step s.timer a).map fun timer => { s with timer }

def machine : Machine (State Obj) (Action Obj) where
  init s := ∃ now n, s = ⟨DispatchResults.create now n, TimerLoop.initial, [], []⟩
  step := step

inductive Moved (s : State Obj) : Action Obj → State Obj → Prop where
  | dispatched {a : DispatchResults.Action Obj} {dispatch : DispatchResults.State Obj}
      (moved : DispatchResults.machine.step s.dispatch a = some dispatch) :
      Moved s (.dispatch a) { s with dispatch, drawn := s.drawn ++ drawnBy s.dispatch a }
  | refused {obj intervalMsec : Nat} {start : Int} {table : List TimerLoop.TimerInfo}
      {rehashed : Bool} {timer : TimerLoop.State}
      (short : (intervalMsec : Int) < TimerLoop.minTickMsec)
      (moved : TimerLoop.machine.step s.timer
        (.createTimer 0 obj intervalMsec start table rehashed) = some timer) :
      Moved s (.createTimer obj intervalMsec start table rehashed)
        { s with timer, answers := s.answers ++ [(intervalMsec, 0)] }
  | created {obj intervalMsec : Nat} {start : Int} {table : List TimerLoop.TimerInfo}
      {rehashed : Bool} {timer : TimerLoop.State}
      (long : TimerLoop.minTickMsec ≤ intervalMsec)
      (moved : TimerLoop.machine.step s.timer
        (.createTimer (drawHandle s.dispatch).2 obj intervalMsec start table rehashed) = some timer) :
      Moved s (.createTimer obj intervalMsec start table rehashed)
        { dispatch := (drawHandle s.dispatch).1
          timer
          drawn := s.drawn ++ [(drawHandle s.dispatch).2]
          answers := s.answers ++ [(intervalMsec, (drawHandle s.dispatch).2)] }
  | timed {a : TimerLoop.Action} {timer : TimerLoop.State}
      (other : ∀ handle obj intervalMsec start table rehashed,
        a ≠ .createTimer handle obj intervalMsec start table rehashed)
      (moved : TimerLoop.machine.step s.timer a = some timer) : Moved s (.timer a) { s with timer }

theorem step_moved {s t : State Obj} {a : Action Obj} (stepped : step s a = some t) :
    Moved s a t := by
  cases a with
  | dispatch a =>
    have run : (DispatchResults.step s.dispatch a).map (fun dispatch =>
        { s with dispatch, drawn := s.drawn ++ drawnBy s.dispatch a }) = some t := by
      cases a with
      | draw => simp [step] at stepped
      | _ => exact stepped
    obtain ⟨dispatch, moved, rfl⟩ := Option.map_eq_some_iff.mp run
    exact .dispatched moved
  | createTimer obj intervalMsec start table rehashed =>
    simp only [step] at stepped
    split at stepped
    · rename_i short
      obtain ⟨timer, moved, rfl⟩ := Option.map_eq_some_iff.mp stepped
      exact .refused short moved
    · rename_i long
      obtain ⟨timer, moved, rfl⟩ := Option.map_eq_some_iff.mp stepped
      exact .created (Int.not_lt.mp long) moved
  | timer a =>
    cases a with
    | createTimer => simp [step] at stepped
    | _ =>
      obtain ⟨timer, moved, rfl⟩ := Option.map_eq_some_iff.mp stepped
      exact .timed (by simp) moved

theorem dispatch_reached {s : State Obj} (reached : machine.Reachable s) :
    DispatchResults.machine.Reachable s.dispatch := by
  apply reachableBy_project State.dispatch _ _ reached
  · rintro s ⟨now, n, rfl⟩
    exact ⟨now, n, rfl⟩
  · intro s a t _ stepped
    cases step_moved stepped with
    | @dispatched a dispatch moved => exact Or.inr ⟨a, trivial, moved⟩
    | refused | timed => exact Or.inl rfl
    | created => exact Or.inr ⟨.draw, trivial, rfl⟩

theorem timer_reached {s : State Obj} (reached : machine.Reachable s) :
    TimerLoop.machine.Reachable s.timer := by
  apply reachableBy_project State.timer _ _ reached
  · rintro s ⟨now, n, rfl⟩
    rfl
  · intro s a t _ stepped
    cases step_moved stepped with
    | dispatched => exact Or.inl rfl
    | refused short moved => exact Or.inr ⟨_, trivial, moved⟩
    | created long moved => exact Or.inr ⟨_, trivial, moved⟩
    | timed other moved => exact Or.inr ⟨_, trivial, moved⟩

theorem pool_counter {s t : DispatchPool.State Obj} {a : DispatchPool.Action Obj}
    (other : a ≠ .getHandle) (stepped : DispatchPool.step s a = some t) :
    t.handleCounter = s.handleCounter := by
  have worked : ∀ {i : Nat}, workerAt s i a = some t → t.handleCounter = s.handleCounter := by
    intro i moved
    obtain ⟨w, _, moved⟩ := Option.bind_eq_some_iff.mp moved
    exact (workerStep_logs moved).2
  cases a with
  | postQueue | postEvent | enqueueTask => exact (postSection_logs stepped).2
  | getHandle => exact absurd rfl other
  | enter | spurious | start | finishTask | finish => exact worked stepped
  | stop =>
    simp only [DispatchPool.step, Option.some.injEq] at stepped
    rw [← stepped]
    rfl

theorem dispatched_counted {s : State Obj} {a : DispatchResults.Action Obj}
    {dispatch : DispatchResults.State Obj}
    (moved : DispatchResults.machine.step s.dispatch a = some dispatch) :
    Counted s { s with dispatch, drawn := s.drawn ++ drawnBy s.dispatch a } := by
  have pools := step_poolMoved moved
  generalize same : dispatch.pool = pool at pools
  cases pools with
  | drew drawing =>
    apply Counted.drew
    · rw [same]
    · simp only [drawnBy, drawing, reduceIte]
      rfl
  | moved plain other move =>
    apply Counted.still
    · simp only [same]
      exact pool_counter other move
    · simp [drawnBy, plain]
  | still plain =>
    apply Counted.still
    · rw [same]
    · simp [drawnBy, plain]

theorem moved_counted {s t : State Obj} {a : Action Obj} (moved : Moved s a t) : Counted s t := by
  cases moved with
  | dispatched moved => exact dispatched_counted moved
  | refused | timed => exact .still rfl rfl
  | created => exact .drew rfl rfl

theorem numbered_reached {s : State Obj} (reached : machine.Reachable s) : Numbered s := by
  apply invariant_of_steps Numbered _ _ reached
  · rintro s ⟨now, n, rfl⟩
    have fresh : (DispatchPool.create now n : DispatchPool.State Obj).handleCounter = 0 :=
      (create_consistent now n).counter
    constructor
    · rfl
    · exact congrArg (· + 1) fresh
  · intro s a t before _ stepped
    exact counted_numbered before (moved_counted (step_moved stepped))

theorem handles_unique {s : State Obj} (reached : machine.Reachable s) :
    (∀ handle ∈ s.drawn, handle ≠ 0 ∧ handle ≤ int64Max) ∧
      ∀ i j first second : Nat, i < j → j - i < 2 ^ 63 - 2 → s.drawn[i]? = some first →
        s.drawn[j]? = some second → first ≠ second := by
  have numbered := numbered_reached reached
  constructor
  · intro handle member
    obtain ⟨i, drawn⟩ := List.mem_iff_getElem?.mp member
    obtain ⟨low, high⟩ := handleOf_bounds wide i
    rw [numbered_handle numbered drawn]
    exact ⟨Nat.ne_of_gt low, high⟩
  · intro i j first second later near drawn drawn'
    rw [numbered_handle numbered drawn, numbered_handle numbered drawn']
    exact handleOf_apart later near

def threeDrawn : List (Action Nat) :=
  [.dispatch (.call 5 .enqueue "task"), .createTimer 9 100 0 [⟨2, 9, 100, 100, true, 0⟩] false,
    .dispatch (.call 5 (.queue true) "method")]

theorem three_handles_unique : ∃ s : State Nat, s.drawn = [1, 2, 3] ∧
    (∀ handle ∈ s.drawn, handle ≠ 0 ∧ handle ≤ int64Max) ∧
      ∀ i j first second : Nat, i < j → j - i < 2 ^ 63 - 2 → s.drawn[i]? = some first →
        s.drawn[j]? = some second → first ≠ second := by
  obtain ⟨s, reached, shown⟩ := run_shows (m := machine) threeDrawn ⟨0, 2, rfl⟩
    (fun s => decide (s.drawn = [1, 2, 3])) (by decide +kernel)
  exact ⟨s, of_decide_eq_true shown, handles_unique reached⟩

/-- The bound is exact: handles come round after that many calls. -/
theorem handle_around {s : State Obj} (reached : machine.Reachable s) {i first again : Nat}
    (drawn : s.drawn[i + 1]? = some first)
    (drawn' : s.drawn[i + 1 + (int64Max - 1)]? = some again) : first = again := by
  have numbered := numbered_reached reached
  rw [numbered_handle numbered drawn, numbered_handle numbered drawn', handleOf_around]

/-- createTimer returns 0 for a short interval, and otherwise a handle that it has drawn. The
    keys of the table are such handles. -/
structure Told (s : State Obj) : Prop where
  answers : ∀ answer ∈ s.answers, (answer.1 : Int) < TimerLoop.minTickMsec ∧ answer.2 = 0 ∨
    TimerLoop.minTickMsec ≤ answer.1 ∧ answer.2 ∈ s.drawn
  keys : ∀ u ∈ s.timer.timers, u.handle ∈ s.drawn

theorem moved_told {s t : State Obj} {a : Action Obj} (before : Told s) (moved : Moved s a t) :
    Told t := by
  have kept : ∀ more : List Nat, ∀ answer ∈ s.answers,
      (answer.1 : Int) < TimerLoop.minTickMsec ∧ answer.2 = 0 ∨
        TimerLoop.minTickMsec ≤ answer.1 ∧ answer.2 ∈ s.drawn ++ more := by
    intro more answer member
    exact (before.answers answer member).imp_right (And.imp_right (List.mem_append_left more))
  have held : ∀ {b : TimerLoop.Action} {timer : TimerLoop.State} {u : TimerLoop.TimerInfo},
      TimerLoop.machine.step s.timer b = some timer → u ∈ timer.timers → u.handle ∈ s.drawn ∨
        ∃ obj intervalMsec start table rehashed,
          TimerLoop.minTickMsec ≤ (intervalMsec : Nat) ∧
            b = .createTimer u.handle obj intervalMsec start table rehashed := by
    intro b timer u stepped member
    rcases TimerTable.step_handles (TimerLoop.step_stepped stepped) member with ⟨v, old, same⟩ | new
    · exact Or.inl (same ▸ before.keys v old)
    · exact Or.inr new
  cases moved with
  | dispatched moved =>
    constructor
    · exact kept _
    · exact fun u member => List.mem_append_left _ (before.keys u member)
  | refused short moved =>
    constructor
    · intro answer member
      rcases List.mem_append.mp member with old | new
      · exact before.answers answer old
      · rw [List.mem_singleton.mp new]
        exact Or.inl ⟨short, rfl⟩
    · intro u member
      rcases held moved member with old | ⟨_, _, _, _, _, long, same⟩
      · exact old
      · simp only [TimerLoop.Action.createTimer.injEq] at same
        rw [← same.2.2.1] at long
        exact absurd short (Int.not_lt.mpr long)
  | created long moved =>
    constructor
    · intro answer member
      rcases List.mem_append.mp member with old | new
      · exact kept _ answer old
      · rw [List.mem_singleton.mp new]
        exact Or.inr ⟨long, List.mem_append_right _ (List.mem_singleton_self _)⟩
    · intro u member
      rcases held moved member with old | ⟨_, _, _, _, _, _, same⟩
      · exact List.mem_append_left _ old
      · simp only [TimerLoop.Action.createTimer.injEq] at same
        rw [← same.1]
        exact List.mem_append_right _ (List.mem_singleton_self _)
  | timed other moved =>
    constructor
    · exact before.answers
    · intro u member
      rcases held moved member with old | ⟨_, _, _, _, _, _, same⟩
      · exact old
      · exact absurd same (other _ _ _ _ _ _)

theorem told_reached {s : State Obj} (reached : machine.Reachable s) : Told s := by
  apply invariant_of_steps Told _ _ reached
  · rintro s ⟨now, n, rfl⟩
    constructor
    · intro answer member
      simp at member
    · intro u member
      simp [TimerLoop.initial] at member
  · intro s a t before _ stepped
    exact moved_told before (step_moved stepped)

theorem refused_zero {s : State Obj} (reached : machine.Reachable s) {answer : Nat × Nat}
    (answered : answer ∈ s.answers) : answer.2 = 0 ↔ (answer.1 : Int) < TimerLoop.minTickMsec := by
  rcases (told_reached reached).answers answer answered with ⟨short, zero⟩ | ⟨long, drawn⟩
  · exact iff_of_true zero short
  · apply iff_of_false _ (Int.not_lt.mpr long)
    obtain ⟨i, drawn⟩ := List.mem_iff_getElem?.mp drawn
    rw [numbered_handle (numbered_reached reached) drawn]
    exact Nat.ne_of_gt (handleOf_bounds wide i).1

theorem timer_entered {s t : State Obj} (reached : machine.Reachable s)
    (few : s.drawn.length < int64Max - 1) {obj intervalMsec : Nat} {start : Int}
    {table : List TimerLoop.TimerInfo} {rehashed : Bool}
    (long : TimerLoop.minTickMsec ≤ intervalMsec)
    (stepped : step s (.createTimer obj intervalMsec start table rehashed) = some t) :
    t.timer.timers.Perm (⟨(drawHandle s.dispatch).2, obj, intervalMsec, start + intervalMsec, true,
      s.timer.made⟩ :: s.timer.timers) := by
  have numbered := numbered_reached reached
  have fresh : TimerLoop.find (drawHandle s.dispatch).2 s.timer.timers = none := by
    apply Option.eq_none_iff_forall_ne_some.mpr
    intro u found
    obtain ⟨member, same⟩ := TimerTable.find_some found
    obtain ⟨i, drawn⟩ := List.mem_iff_getElem?.mp ((told_reached reached).keys u member)
    have earlier := (List.getElem?_eq_some_iff.mp drawn).1
    have next : (drawHandle s.dispatch).2 = handleOf int64Max s.drawn.length := numbered.counter
    rw [same, next] at drawn
    exact handleOf_apart earlier (Nat.lt_of_le_of_lt (Nat.sub_le _ _) few)
      (numbered_handle numbered drawn).symm
  cases step_moved stepped with
  | refused short => exact absurd short (Int.not_lt.mpr long)
  | created _ moved => exact TimerTable.createTimer_enters long fresh (TimerLoop.of_method moved)

end Machine

end DispatchHandles
