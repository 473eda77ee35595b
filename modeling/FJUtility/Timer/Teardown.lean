import FJUtility.Timer.Cursor

/- removeTimer(void), which waits for running_, and the destructor, which calls it: unlike
   removeTimer(handle) it leaves no callback of an earlier timer, and the thread ends. -/
namespace TimerTeardown
open LabelledMachine TimerLoop TimerTable TimerCursor

def lastRound (s : State) : Action → Bool
  | .removeAll => !s.running
  | .destroy => decide (s.destroying = .clearing) && !s.running
  | _ => false

structure Fresh (first : Nat) (s : State) : Prop where
  timers : ∀ t ∈ s.timers, first ≤ t.timer
  chosen : ∀ of, chosen s.pos = some of → first ≤ of.timer
  made : first ≤ s.made

def Later (first : Nat) (s t : State) : Prop :=
  ∃ events, t.log = s.log ++ events ∧ ∀ timer now, .called timer now ∈ events → first ≤ timer

theorem later_trans {first : Nat} {s t u : State} (one : Later first s t) (two : Later first t u) :
    Later first s u := by
  obtain ⟨events, log, later⟩ := one
  obtain ⟨more, log', later'⟩ := two
  refine ⟨events ++ more, by rw [log', log, List.append_assoc], ?_⟩
  intro timer now member
  rcases List.mem_append.mp member with old | new
  · exact later timer now old
  · exact later' timer now new

theorem silent_later {first : Nat} {s t : State} (log : t.log = s.log) : Later first s t :=
  ⟨[], by rw [log, List.append_nil], by simp⟩

theorem event_later {first : Nat} {s t : State} {e : Event} (log : t.log = s.log ++ [e])
    (starts : ∀ timer now, e = .called timer now → first ≤ timer) : Later first s t := by
  refine ⟨[e], log, ?_⟩
  intro timer now member
  exact starts timer now (List.mem_singleton.mp member).symm

theorem alter_fresh {first handle : Nat} {change : TimerInfo → TimerInfo} (keeps : Keeps change)
    {timers : List TimerInfo} (fresh : ∀ t ∈ timers, first ≤ t.timer) :
    ∀ t ∈ alter handle change timers, first ≤ t.timer := by
  intro t member
  obtain ⟨u, old, ⟨_, rfl⟩ | ⟨_, rfl⟩⟩ := mem_alter member
  · exact (keeps.timer u).symm ▸ fresh u old
  · exact fresh _ old

theorem choice_fresh {first : Nat} {s t : State} (fresh : Fresh first s) (choice : SameChoice s t) :
    ∀ of, chosen t.pos = some of → first ≤ of.timer := by
  intro of working
  exact fresh.chosen of ((sameChoice_busy choice working).1 ▸ working)

theorem step_fresh {first : Nat} {s t : State} {a : Action} (fresh : Fresh first s)
    (stepped : Stepped s a t) : Fresh first t ∧ Later first s t := by
  have before := fresh
  obtain ⟨timers, working, made⟩ := before
  cases stepped with
  | quiet same =>
    exact ⟨⟨same.timers ▸ timers, choice_fresh fresh same.choice, same.made ▸ made⟩,
      silent_later same.log⟩
  | created long absent added result counted log choice =>
    refine ⟨⟨?_, choice_fresh fresh choice, by omega⟩, event_later log (by simp)⟩
    intro u member
    rcases List.mem_cons.mp (added.subset member) with rfl | old
    · exact made
    · exact timers u old
  | removed found =>
    exact ⟨⟨alter_fresh deactivate_keeps timers, working, made⟩, event_later rfl (by simp)⟩
  | cleared idle none_left result counted log choice =>
    exact ⟨⟨by simp [none_left], choice_fresh fresh choice, counted ▸ made⟩, silent_later log⟩
  | @selected now handle timer here iterator found active due =>
    refine ⟨⟨alter_fresh (renew_keeps now) timers, ?_, made⟩, event_later rfl (by simp)⟩
    intro of selected
    simp only [TimerLoop.chosen, Option.some.injEq] at selected
    exact selected ▸ timers timer (find_some found).1
  | @called of now here object =>
    have own : first ≤ of.timer := working of (by rw [here]; rfl)
    refine ⟨⟨timers, ?_, made⟩, event_later rfl ?_⟩
    · intro of' same
      simp only [TimerLoop.chosen, Option.some.injEq] at same
      exact same ▸ own
    · intro timer now' same
      simp only [Event.called.injEq] at same
      exact same.1 ▸ own
  | @spared of now here null =>
    have own : first ≤ of.timer := working of (by rw [here]; rfl)
    refine ⟨⟨timers, ?_, made⟩, silent_later rfl⟩
    intro of' same
    simp only [TimerLoop.chosen, Option.some.injEq] at same
    exact same ▸ own
  | @cameBack of result here =>
    have own : first ≤ of.timer := working of (by rw [here]; rfl)
    refine ⟨⟨timers, ?_, made⟩, event_later rfl (by simp)⟩
    intro of' same
    simp only [TimerLoop.chosen, Option.some.injEq] at same
    exact same ▸ own
  | finished here iterator =>
    refine ⟨⟨?_, by simp [TimerLoop.chosen], made⟩, silent_later rfl⟩
    dsimp only
    split
    · exact alter_fresh deactivate_keeps timers
    · exact timers

theorem run_fresh {first : Nat} {ok : State → Action → Bool} {s t : State} (fresh : Fresh first s)
    (actions : List Action) (executed : machine.runBy ok s actions = some t) : Later first s t := by
  induction actions generalizing s with
  | nil =>
    simp only [Machine.runBy, Option.some.injEq] at executed
    exact silent_later (executed ▸ rfl)
  | cons a rest ih =>
    simp only [Machine.runBy] at executed
    split at executed
    · obtain ⟨u, move, tail⟩ := Option.bind_eq_some_iff.mp executed
      obtain ⟨next, events⟩ := step_fresh fresh (step_stepped move)
      exact later_trans events (ih next tail)
    · simp at executed

theorem lastRound_clears {s u : State} {a : Action} (last : lastRound s a = true)
    (cleared : machine.step s a = some u) :
    u.timers = [] ∧ u.pos = s.pos ∧ u.made = s.made ∧ u.log = s.log ∧ s.running = false := by
  change step s a = some u at cleared
  cases a with
  | removeAll =>
    have idle : s.running = false := by simpa [lastRound] using last
    obtain rfl := Option.some.inj (of_method cleared)
    simp [removeAll, idle]
  | destroy =>
    simp only [lastRound, Bool.and_eq_true, decide_eq_true_eq, Bool.not_eq_true'] at last
    obtain ⟨clearing, idle⟩ := last
    simp only [step, destroy, clearing, Option.some.injEq] at cleared
    subst cleared
    simp [removeAll, idle]
  | _ => simp [lastRound] at last

/-- When removeTimer(void) returns no callback is running, and in the rest of a run that keeps the
    cursor valid only callbacks of timers created afterwards start. -/
theorem clear_final {s t : State} {a : Action} (reached : machine.ReachableBy KeepsCursor s)
    (last : lastRound s a = true) (actions : List Action)
    (executed : machine.runBy (fun s a => decide (KeepsCursor s a)) s (a :: actions) = some t) :
    chosen s.pos = none ∧ ∃ events, t.log = s.log ++ events ∧
      ∀ timer now, .called timer now ∈ events → s.made ≤ timer := by
  simp only [Machine.runBy] at executed
  split at executed
  · obtain ⟨u, cleared, tail⟩ := Option.bind_eq_some_iff.mp executed
    obtain ⟨empty, pos, made, log, idle⟩ := lastRound_clears last cleared
    have unchosen : chosen s.pos = none := idle_unchosen (table_reached reached) idle
    refine ⟨unchosen, ?_⟩
    rw [← log]
    apply run_fresh _ actions tail
    exact ⟨by simp [empty], by simp [pos, unchosen], Nat.le_of_eq made.symm⟩
  · simp at executed

def clearedAtEnd : List Action :=
  [.createTimer 7 100 15 0 [onlyTimer] false, .thread .begin, .thread (.pass 0 0), .thread .wake,
    .thread (.examine 20), .thread (.call 20), .thread (.comeBack 0), .thread .finish,
    .thread (.pass 25 25), .thread .wake]

def createdAgain : List Action :=
  [.createTimer 7 100 15 30 [⟨7, 100, 15, 45, true, 1⟩] false, .thread (.examine 31),
    .thread (.pass 31 31), .thread .wake, .thread (.examine 46), .thread (.call 46)]

def clearedThenCalls (s : State) : Bool :=
  lastRound s .removeAll && decide (s.made = 1) &&
    (machine.runBy (fun s a => decide (KeepsCursor s a)) s (.removeAll :: createdAgain)).any
      fun t => decide (t.log.getLast? = some (.called 1 46))

theorem cleared_at_end_final :
    ∃ s t : State, machine.ReachableBy KeepsCursor s ∧ t.log.getLast? = some (.called 1 46) ∧
      ∃ events, t.log = s.log ++ events ∧ ∀ timer now, .called timer now ∈ events → 1 ≤ timer := by
  obtain ⟨s, _, shown, reached⟩ := guarded_shows (m := machine) (s := initial) KeepsCursor
    clearedAtEnd rfl clearedThenCalls (by decide +kernel)
  simp only [clearedThenCalls, Bool.and_eq_true, decide_eq_true_eq] at shown
  obtain ⟨⟨last, made⟩, calls⟩ := shown
  obtain ⟨t, executed, called⟩ := (Option.any_eq_true ..).mp calls
  have final := (clear_final reached last createdAgain executed).2
  rw [made] at final
  exact ⟨s, t, reached, of_decide_eq_true called, final⟩

def threadLeft : ThreadPos → Nat
  | .starting => 4
  | .passing => 3
  | .waiting _ => 2
  | .woken => 1
  | .selected _ => 6
  | .inCallback _ => 5
  | .returned _ => 4
  | .ended => 0

def closeLeft : DestroyPos → Nat
  | .joining => 1
  | _ => 0

def remaining (s : State) : Nat := threadLeft s.pos + closeLeft s.destroying

/-- The steps of the timer thread and of the destructor. -/
def owns : Action → Bool
  | .thread _ => true
  | .destroy => true
  | _ => false

def calls (log : List Event) : Nat :=
  log.countP fun e => match e with
    | .called .. => true
    | _ => false

def callsLeft : ThreadPos → Nat
  | .selected _ => 1
  | _ => 0

structure Halting (s : State) : Prop where
  stop : s.stop = true ↔ s.destroying = .joining ∨ s.destroying = .gone
  gone : s.destroying = .gone → s.pos = .ended

theorem wakeThread_parties (s : State) :
    (wakeThread s).stop = s.stop ∧ (wakeThread s).destroying = s.destroying := by
  unfold wakeThread
  split
  · exact ⟨rfl, rfl⟩
  · exact ⟨rfl, rfl⟩

theorem createTimer_parties {handle obj intervalMsec : Nat} {start : Int} {table : List TimerInfo}
    {rehashed : Bool} {s t : State}
    (created : createTimer handle obj intervalMsec start table rehashed s = some t) :
    t.stop = s.stop ∧ t.destroying = s.destroying := by
  rcases createTimer_cases created with rfl | ⟨_, u, entered, woken⟩
  · exact ⟨rfl, rfl⟩
  · have same : u.stop = s.stop ∧ u.destroying = s.destroying := by
      rcases emplace_cases entered with rfl | ⟨_, _, rfl⟩
      · exact ⟨rfl, rfl⟩
      · exact ⟨rfl, rfl⟩
    rcases woken with ⟨_, rfl⟩ | rfl
    · exact same
    · rw [(wakeThread_parties _).1, (wakeThread_parties _).2]
      exact same

theorem step_parties {s t : State} {a : Action} (other : a ≠ .destroy)
    (stepped : machine.step s a = some t) :
    t.stop = s.stop ∧ t.destroying = s.destroying := by
  change step s a = some t at stepped
  cases a with
  | createTimer => exact createTimer_parties (of_method stepped)
  | removeTimer handle =>
    obtain rfl := Option.some.inj (of_method stepped)
    unfold removeTimer
    split
    · exact ⟨rfl, rfl⟩
    · exact ⟨rfl, rfl⟩
  | removeAll =>
    obtain rfl := Option.some.inj (of_method stepped)
    unfold removeAll
    split
    · exact wakeThread_parties s
    · exact ⟨rfl, rfl⟩
  | setBaseIntervalMs msec =>
    obtain rfl := Option.some.inj (of_method stepped)
    unfold setBaseIntervalMs
    split
    · exact wakeThread_parties _
    · exact ⟨rfl, rfl⟩
  | destroy => exact absurd rfl other
  | thread act => cases thread_threaded stepped <;> exact ⟨rfl, rfl⟩

theorem gone_stuck {s : State} (gone : s.destroying = .gone) (ended : s.pos = .ended) (a : Action) :
    machine.step s a = none := by
  change step s a = none
  cases a with
  | createTimer | removeTimer | removeAll | setBaseIntervalMs => simp [step, method, gone]
  | destroy => simp [step, destroy, gone]
  | thread act =>
    simp only [step, ended]
    cases act <;> rfl

theorem destroy_halting {s t : State} (halting : Halting s) (destroyed : destroy s = some t) :
    Halting t := by
  obtain ⟨stop, gone⟩ := halting
  unfold destroy at destroyed
  split at destroyed
  · rename_i alive
    obtain rfl := Option.some.inj destroyed
    exact ⟨by simpa [alive] using stop, by simp⟩
  · rename_i clearing
    obtain rfl := Option.some.inj destroyed
    have unset : s.stop = false := by simpa [clearing] using stop
    unfold removeAll
    split
    · constructor
      · simp [wakeThread_parties, unset]
      · simp
    · constructor
      · simp [unset]
      · simp
  · obtain rfl := Option.some.inj destroyed
    constructor
    · simp [wakeThread_parties]
    · simp [wakeThread_parties]
  · split at destroyed
    · rename_i joining ended
      obtain rfl := Option.some.inj destroyed
      exact ⟨by simpa [joining] using stop, fun _ => ended⟩
    · simp at destroyed
  · simp at destroyed

theorem step_halting {s t : State} {a : Action} (halting : Halting s)
    (stepped : machine.step s a = some t) : Halting t := by
  by_cases destroys : a = .destroy
  · subst destroys
    exact destroy_halting halting stepped
  · obtain ⟨stop, destroying⟩ := step_parties destroys stepped
    constructor
    case stop => rw [stop, destroying]; exact halting.stop
    case gone =>
      intro gone
      rw [destroying] at gone
      rw [gone_stuck gone (halting.gone gone)] at stepped
      simp at stepped

theorem halting_reached {guard : State → Action → Prop} {s : State}
    (reached : machine.ReachableBy guard s) : Halting s := by
  apply invariant_of_steps Halting _ _ reached
  · rintro s rfl
    exact ⟨by simp [initial], by simp [initial]⟩
  · intro s a t halting _ stepped
    exact step_halting halting stepped

theorem kept_reached {s : State} (reached : machine.ReachableBy KeepsCursor s) : Kept s := by
  apply invariant_along TableOk Kept (fun _ before => table_reached before) _ _ reached
  · rintro s rfl
    exact Or.inr ⟨rfl, Or.inl rfl⟩
  · exact fun s a t table kept keeps move => step_kept table kept keeps move

/-- Once stop_ is set each step of the thread leaves one less, and none selects a timer. -/
theorem thread_left {s t : State} {act : ThreadAct} (stopped : s.stop = true)
    (moved : Threaded s act t) : threadLeft t.pos + 1 ≤ threadLeft s.pos ∧
      calls t.log + callsLeft t.pos ≤ calls s.log + callsLeft s.pos := by
  cases moved with
  | restarted here goes | skipped here goes | selected here goes => simp [stopped] at goes
  | began here | passed here | woken here | stopped here | finished here =>
    simp [TimerLoop.pass, threadLeft, callsLeft, here]
  | spared here => simp [threadLeft, callsLeft, here]
  | called here => simp [threadLeft, callsLeft, here, calls]
  | cameBack here => simp [threadLeft, callsLeft, here, calls]

theorem method_left {s t : State} {a : Action} (called : Called s a t) :
    threadLeft t.pos ≤ threadLeft s.pos ∧
      calls t.log + callsLeft t.pos ≤ calls s.log + callsLeft s.pos := by
  have nudge : ∀ {u v : State}, Nudged u v → threadLeft v.pos ≤ threadLeft u.pos ∧
      callsLeft v.pos = callsLeft u.pos ∧ v.log = u.log := by
    intro u v nudged
    refine ⟨?_, ?_, nudged.log⟩
    · rcases nudged.pos with same | ⟨_, waits, woken⟩
      · exact Nat.le_of_eq (by rw [same])
      · simp [waits, woken, threadLeft]
    · rcases nudged.pos with same | ⟨_, waits, woken⟩
      · rw [same]
      · simp [waits, woken, callsLeft]
  cases called with
  | nudged nudged =>
    obtain ⟨left, selected, log⟩ := nudge nudged
    exact ⟨left, Nat.le_of_eq (by rw [selected, log])⟩
  | entered long absent added nudged =>
    obtain ⟨left, selected, log⟩ := nudge nudged
    exact ⟨left, by rw [selected, log]; simp [calls]⟩
  | removed found => exact ⟨Nat.le_refl _, by simp [calls]⟩
  | cleared idle => exact ⟨Nat.le_refl _, Nat.le_refl _⟩

structure Stopping (first s : State) : Prop where
  halting : Halting s
  stopped : s.stop = true
  table : TableOk s
  kept : Kept s
  calls : calls s.log + callsLeft s.pos ≤ calls first.log + callsLeft first.pos

theorem joined_left {s t : State} (halting : Halting s) (stopped : s.stop = true)
    (destroyed : destroy s = some t) :
    s.destroying = .joining ∧ t = { s with destroying := .gone } := by
  have begun := halting.stop.mp stopped
  unfold destroy at destroyed
  split at destroyed
  · rename_i alive
    simp [alive] at begun
  · rename_i clearing
    simp [clearing] at begun
  · rename_i stopping
    simp [stopping] at begun
  · rename_i joining
    split at destroyed
    · exact ⟨joining, (Option.some.inj destroyed).symm⟩
    · simp at destroyed
  · simp at destroyed

theorem step_remaining {first s t : State} {a : Action} (stopping : Stopping first s)
    (keeps : KeepsCursor s a) (stepped : machine.step s a = some t) :
    Stopping first t ∧ remaining t + (if owns a then 1 else 0) ≤ remaining s := by
  obtain ⟨halting, stopped, table, kept, called⟩ := stopping
  have next := step_halting halting stepped
  have table' := step_table table (step_stepped stepped)
  have kept' := step_kept table kept keeps stepped
  by_cases destroys : a = .destroy
  · subst destroys
    obtain ⟨joining, rfl⟩ := joined_left halting stopped stepped
    exact ⟨⟨next, stopped, table', kept', called⟩, by simp [remaining, owns, closeLeft, joining]⟩
  · obtain ⟨stop, destroying⟩ := step_parties destroys stepped
    have stopped' : t.stop = true := stop.trans stopped
    change step s a = some t at stepped
    cases a with
    | thread act =>
      obtain ⟨left, starts⟩ := thread_left stopped (thread_threaded stepped)
      refine ⟨⟨next, stopped', table', kept', Nat.le_trans starts called⟩, ?_⟩
      simp only [remaining, owns, destroying, reduceIte]
      omega
    | destroy => exact absurd rfl destroys
    | createTimer | removeTimer | removeAll | setBaseIntervalMs =>
      obtain ⟨left, starts⟩ := method_left (step_called (by simp) stepped)
      refine ⟨⟨next, stopped', table', kept', Nat.le_trans starts called⟩, ?_⟩
      simp only [remaining, owns, destroying, Bool.false_eq_true, reduceIte]
      omega

theorem remaining_le (s : State) : remaining s ≤ 7 := by
  have thread : threadLeft s.pos ≤ 6 := by cases s.pos <;> simp [threadLeft]
  have close : closeLeft s.destroying ≤ 1 := by cases s.destroying <;> simp [closeLeft]
  unfold remaining
  omega

theorem stuck_gone {s : State} (halting : Halting s) (stopped : s.stop = true) (kept : Kept s)
    (stuck : ∀ a, owns a = true → machine.step s a = none) : s.destroying = .gone := by
  have moves : ∀ act, threadStep s act s.pos = none := fun act => stuck (.thread act) rfl
  have ended : s.pos = .ended := by
    cases here : s.pos with
    | ended => rfl
    | starting => simpa [threadStep, here] using moves .begin
    | passing => simpa [threadStep, here] using moves (.pass 0 0)
    | waiting deadline => simpa [threadStep, here] using moves .wake
    | woken => simpa [threadStep, here, examine, stopped] using moves (.examine 0)
    | inCallback of => simpa [threadStep, here] using moves (.comeBack 0)
    | selected of =>
      have call := moves (.call 0)
      simp only [threadStep, here] at call
      split at call
      · simp at call
      · simp at call
    | returned of =>
      have valid : CursorValid s := by
        apply kept.resolve_right
        rintro ⟨unchosen, _⟩
        simp [here, chosen] at unchosen
      obtain ⟨_, handle, iterator, found⟩ := valid
      simpa [threadStep, here, finish, iterator, found] using moves .finish
  rcases halting.stop.mp stopped with joining | gone
  · simpa [machine, step, destroy, joining, ended] using stuck .destroy rfl
  · exact gone

/-- After stop_ is set, and as long as the cursor is kept valid, the thread and the destructor take
    at most 7 steps, at most one callback starts, one that was selected before, and where they
    come to rest the thread has ended and the destructor has returned. -/
theorem timer_teardown_ends {s t : State} (reached : machine.ReachableBy KeepsCursor s)
    (stopped : s.stop = true) (actions : List Action)
    (executed : machine.runBy (fun s a => decide (KeepsCursor s a)) s actions = some t) :
    actions.countP owns ≤ 7 ∧ calls t.log ≤ calls s.log + callsLeft s.pos ∧
      ((∀ a, owns a = true → machine.step t a = none) →
        t.destroying = .gone ∧ t.pos = .ended) := by
  have kept := runBy_bounded (Stopping s) remaining owns
    (fun u a v stopping accepted stepped =>
      step_remaining stopping (of_decide_eq_true accepted) stepped)
    actions ⟨halting_reached reached, stopped, table_reached reached, kept_reached reached,
      Nat.le_refl _⟩ executed
  obtain ⟨last, bound⟩ := kept
  have most := remaining_le s
  have called := last.calls
  refine ⟨by omega, by omega, ?_⟩
  intro stuck
  have gone := stuck_gone last.halting last.stopped last.kept stuck
  exact ⟨gone, last.halting.gone gone⟩

/-- The destructor clears between the head of a pass and its wait, and sets stop_. -/
def stoppedBeforeWait : List Action :=
  [.createTimer 7 100 15 0 [onlyTimer] false, .thread .begin, .thread (.pass 0 0), .thread .wake,
    .thread (.examine 20), .thread (.call 20), .destroy, .destroy, .thread (.comeBack 0),
    .thread .finish, .thread (.pass 25 25), .destroy, .destroy]

def joinedAfterWait : List Action := [.thread (.examine 40), .destroy]

def stopsInTime (s : State) : Bool :=
  s.stop && (machine.runBy (fun s a => decide (KeepsCursor s a)) s joinedAfterWait).isSome

theorem stopped_before_wait_ends :
    ∃ s t : State, machine.ReachableBy KeepsCursor s ∧
      machine.runBy (fun s a => decide (KeepsCursor s a)) s joinedAfterWait = some t ∧
      calls t.log ≤ calls s.log + callsLeft s.pos ∧
      ((∀ a, owns a = true → machine.step t a = none) → t.destroying = .gone ∧ t.pos = .ended) := by
  obtain ⟨s, _, shown, reached⟩ := guarded_shows (m := machine) (s := initial) KeepsCursor
    stoppedBeforeWait rfl stopsInTime (by decide +kernel)
  obtain ⟨stopped, ends⟩ := (Bool.and_eq_true ..).mp shown
  obtain ⟨t, executed⟩ := Option.isSome_iff_exists.mp ends
  obtain ⟨_, called, last⟩ := timer_teardown_ends reached stopped joinedAfterWait executed
  exact ⟨s, t, reached, executed, called, last⟩

end TimerTeardown
