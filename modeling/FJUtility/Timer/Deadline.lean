import Mathlib.Tactic.ByContra
import FJUtility.Timer.Loop

/- The deadline of the timed wait against the timers that are added while it lasts. The deadline is
   computed from the table before the wait; createTimer wakes the thread by a comparison with
   base_interval_msec_, which no longer decides how long the thread waits. -/
namespace TimerDeadline
open LabelledMachine TimerLoop

/-- start is an observer: the reading that the deadline of the last wait was counted from. -/
structure Watched where
  base : State
  start : Int

def observe (s : Watched) : Action → Int
  | .thread (.pass _ start) => start
  | _ => s.start

def watched : Machine Watched Action where
  init s := s = ⟨initial, 0⟩
  step s a := (machine.step s.base a).map fun t => ⟨t, observe s a⟩

/-- A wait ends at its smallest step or at the first next_time, whichever is later. A thread that was
    woken is no longer waiting. -/
def OnTime (s : Watched) : Prop :=
  ∀ deadline, s.base.pos = .waiting deadline →
    deadline ≤ s.start + minTickMsec ∨
      ∀ t ∈ s.base.timers, t.active = true → deadline ≤ t.nextTime

/-- The base period is at its least when the thread starts an idle wait, and a timer of 100 msec
    does not interrupt it. -/
def addedInIdleWait : List Action :=
  [.setBaseIntervalMs 15, .thread .begin, .thread (.pass 0 0),
    .createTimer 7 100 100 1 [⟨7, 100, 100, 101, true, 0⟩] false]

theorem added_in_idle_wait_oversleeps : ¬ ∀ s, watched.Reachable s → OnTime s := by
  intro always
  obtain ⟨s, reached, shown⟩ := run_shows (m := watched) addedInIdleWait (s := ⟨initial, 0⟩) rfl
    (fun s : Watched => decide (s.base.pos = .waiting 2000) && decide (s.start = 0) &&
      decide (s.base.timers = [⟨7, 100, 100, 101, true, 0⟩])) (by decide +kernel)
  simp only [Bool.and_eq_true, decide_eq_true_eq] at shown
  obtain ⟨⟨waits, started⟩, timers⟩ := shown
  rcases always s reached 2000 waits with soon | early
  · rw [started] at soon
    exact absurd soon (by decide)
  · rw [timers] at early
    exact absurd (early _ (List.mem_singleton.mpr rfl) rfl) (by decide)

/-- A new timer is due before the wait ends and base_interval_msec_ is too small for a broadcast; or
    the clock goes on between the two readings of a pass with a timer due before the wait ends. -/
def oversleeps (s : Watched) : Action → Bool
  | .createTimer handle _ intervalMsec start _ _ =>
    match s.base.pos with
    | .waiting deadline =>
      decide (minTickMsec ≤ intervalMsec) && (find handle s.base.timers).isNone &&
        decide (s.base.baseIntervalMsec ≤ (intervalMsec : Int) / 5) &&
        decide (s.start + minTickMsec < deadline) && decide (start + intervalMsec < deadline)
    | _ => false
  | .thread (.pass now start) =>
    decide (now < start) &&
      decide (now + minTickMsec < nextExec (now + maxTickMsec) s.base.timers) &&
      s.base.timers.any fun t => t.active && decide (t.nextTime < start + maxTickMsec)
  | _ => false

def WakesInTime (s : Watched) (a : Action) : Prop := oversleeps s a = false

instance (s : Watched) (a : Action) : Decidable (WakesInTime s a) :=
  inferInstanceAs (Decidable (_ = _))

theorem nextExec_le_limit (limit : Int) (timers : List TimerInfo) :
    nextExec limit timers ≤ limit := by
  induction timers generalizing limit with
  | nil => exact Int.le_refl limit
  | cons t rest ih =>
    simp only [nextExec, List.foldl_cons]
    split
    · rename_i earlier
      simp only [Bool.and_eq_true, decide_eq_true_eq] at earlier
      exact Int.le_trans (ih t.nextTime) (Int.le_of_lt earlier.2)
    · exact ih limit

theorem nextExec_le {limit : Int} {timers : List TimerInfo} {t : TimerInfo} (member : t ∈ timers)
    (active : t.active = true) : nextExec limit timers ≤ t.nextTime := by
  induction timers generalizing limit with
  | nil => simp at member
  | cons u rest ih =>
    simp only [nextExec, List.foldl_cons]
    rcases List.mem_cons.mp member with rfl | later
    · split
      · exact nextExec_le_limit t.nextTime rest
      · rename_i after
        simp only [active, Bool.true_and, decide_eq_true_eq, Int.not_lt] at after
        exact Int.le_trans (nextExec_le_limit limit rest) after
    · exact ih later

def Stays (s t : State) : Prop :=
  ∀ deadline, t.pos = .waiting deadline → s.pos = .waiting deadline ∧
    ∀ u ∈ t.timers, u.active = true → ∃ v ∈ s.timers, v.active = true ∧ v.nextTime = u.nextTime

theorem nudged_stays {s t : State} (nudged : Nudged s t) : Stays s t := by
  intro deadline waits
  constructor
  · rcases nudged.pos with same | ⟨_, _, woken⟩
    · exact same ▸ waits
    · simp [woken] at waits
  · intro u member active
    exact ⟨u, nudged.timers ▸ member, active, rfl⟩

theorem removed_stays (s : State) (handle : Nat) (log : List Event) :
    Stays s { s with timers := alter handle TimerInfo.deactivate s.timers, log } := by
  intro deadline waits
  constructor
  · exact waits
  · intro u altered active
    obtain ⟨v, member, same⟩ := List.mem_map.mp altered
    split at same
    · subst same
      simp [TimerInfo.deactivate] at active
    · exact ⟨v, member, same ▸ active, same ▸ rfl⟩

theorem thread_moved {s t : State} {act : ThreadAct} (moved : Threaded s act t)
    {deadline : Int} (waits : t.pos = .waiting deadline) :
    ∃ now start, act = .pass now start ∧ t = pass now start s := by
  cases moved with
  | passed => exact ⟨_, _, rfl, rfl⟩
  | _ => simp at waits

theorem onTime_stays {s : Watched} {t : State} (onTime : OnTime s) (stays : Stays s.base t) :
    OnTime ⟨t, s.start⟩ := by
  intro deadline waits
  obtain ⟨waited, older⟩ := stays deadline waits
  rcases onTime deadline waited with soon | early
  · exact Or.inl soon
  · right
    intro u member active
    obtain ⟨v, there, alive, same⟩ := older u member active
    exact same ▸ early v there alive

theorem pass_onTime {s : Watched} {now start : Int}
    (wakes : WakesInTime s (.thread (.pass now start))) : OnTime ⟨pass now start s.base, start⟩ := by
  intro deadline waits
  simp only [TimerLoop.pass, ThreadPos.waiting.injEq] at waits
  subst waits
  have limit := nextExec_le_limit (now + maxTickMsec) s.base.timers
  by_cases soon : nextExec (now + maxTickMsec) s.base.timers ≤ now + minTickMsec
  · left
    dsimp only
    split <;> omega
  · right
    intro t member active
    have first : nextExec (now + maxTickMsec) s.base.timers ≤ t.nextTime := nextExec_le member active
    have ready : now < start → start + maxTickMsec ≤ t.nextTime := by
      intro later
      by_contra due
      have oversleep : oversleeps s (.thread (.pass now start)) = true := by
        simp only [oversleeps, Bool.and_eq_true, decide_eq_true_eq, List.any_eq_true]
        exact ⟨⟨later, Int.not_le.mp soon⟩, t, member, active, Int.not_le.mp due⟩
      exact Bool.false_ne_true (wakes.symm.trans oversleep)
    have long : ¬ nextExec (now + maxTickMsec) s.base.timers - now < minTickMsec := by omega
    rw [if_neg long]
    omega

/-- A new timer, when the thread goes on waiting only if it is due behind the deadline. -/
theorem entered_onTime {s : Watched} {t : State} {new : TimerInfo} (onTime : OnTime s)
    (waited : ∀ deadline, t.pos = .waiting deadline → s.base.pos = .waiting deadline)
    (perm : t.timers.Perm (new :: s.base.timers))
    (fits : ∀ deadline, t.pos = .waiting deadline → s.start + minTickMsec < deadline →
      deadline ≤ new.nextTime) : OnTime ⟨t, s.start⟩ := by
  intro deadline waits
  rcases onTime deadline (waited deadline waits) with soon | early
  · exact Or.inl soon
  · rcases Int.lt_or_le (s.start + minTickMsec) deadline with long | soon
    · right
      intro u member active
      rcases List.mem_cons.mp (perm.mem_iff.mp member) with rfl | old
      · exact fits deadline waits long
      · exact early u old active
    · exact Or.inl soon

theorem called_onTime {s : Watched} {t : State} {a : Action} (onTime : OnTime s)
    (wakes : WakesInTime s a) (called : Called s.base a t) : OnTime ⟨t, s.start⟩ := by
  cases called with
  | nudged nudged => exact onTime_stays onTime (nudged_stays nudged)
  | removed found => exact onTime_stays onTime (removed_stays _ _ _)
  | cleared idle clears =>
    apply onTime_stays onTime
    intro deadline waits
    exact ⟨waits, fun u member => by simp at member⟩
  | @entered handle obj intervalMsec start table rehashed _ long absent added nudged silent =>
    have waited : ∀ deadline, t.pos = .waiting deadline → s.base.pos = .waiting deadline :=
      fun deadline waits => (nudged_stays nudged deadline waits).1
    apply entered_onTime onTime waited added
    intro deadline waits later
    have small := silent.resolve_right fun moved => moved deadline waits
    by_contra due
    have oversleep : oversleeps s
        (.createTimer handle obj intervalMsec start table rehashed) = true := by
      simp only [oversleeps, waited deadline waits, Bool.and_eq_true, decide_eq_true_eq]
      exact ⟨⟨⟨⟨long, Option.isNone_iff_eq_none.mpr absent⟩, small⟩, later⟩, Int.not_le.mp due⟩
    exact Bool.false_ne_true (wakes.symm.trans oversleep)

theorem step_onTime {s t : Watched} {a : Action} (onTime : OnTime s) (wakes : WakesInTime s a)
    (stepped : watched.step s a = some t) : OnTime t := by
  obtain ⟨u, moved, rfl⟩ := Option.map_eq_some_iff.mp stepped
  change step s.base a = some u at moved
  cases a with
  | thread act =>
    intro deadline waits
    obtain ⟨now, start, rfl, rfl⟩ := thread_moved (thread_threaded moved) waits
    exact pass_onTime wakes deadline waits
  | _ => exact called_onTime onTime wakes (step_called (by simp) moved)

/-- When every timer that is added during the wait is due after it or shortens the base period, no
    wait lasts beyond the first next_time. -/
theorem wait_on_time {s : Watched} (reached : watched.ReachableBy WakesInTime s) : OnTime s := by
  apply invariant_of_steps OnTime _ _ reached
  · rintro s rfl deadline waits
    simp [initial] at waits
  · intro s a t onTime wakes move
    exact step_onTime onTime wakes move

def addedBehindDeadline : List Action :=
  [.createTimer 7 100 100 0 [⟨7, 100, 100, 100, true, 0⟩] false, .thread .begin,
    .thread (.pass 5 5),
    .createTimer 8 101 150 6 [⟨7, 100, 100, 100, true, 0⟩, ⟨8, 101, 150, 156, true, 1⟩] false]

theorem added_behind_deadline_on_time : ∃ s, watched.runBy
    (fun s a => decide (WakesInTime s a)) ⟨initial, 0⟩ addedBehindDeadline = some s ∧
      s.base.pos = .waiting 100 ∧ OnTime s := by
  obtain ⟨s, executed, waits, reached⟩ := guarded_shows (m := watched) (s := ⟨initial, 0⟩)
    WakesInTime addedBehindDeadline rfl
    (fun s : Watched => decide (s.base.pos = .waiting 100)) (by decide +kernel)
  exact ⟨s, executed, of_decide_eq_true waits, wait_on_time reached⟩

end TimerDeadline
