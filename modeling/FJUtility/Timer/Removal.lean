import FJUtility.Timer.Table

/- removeTimer(handle) against the timer thread. The thread decides to run a callback in one
   section under mutex_ and starts it after the section, and only removeTimer(void) looks at
   running_. -/
namespace TimerRemoval
open LabelledMachine TimerLoop TimerTable

/-- After removeTimer has returned true, no callback of the timer starts. -/
def RemovalFinal (s : State) : Prop :=
  s.log.Pairwise fun a b => ∀ timer now, a = .removed timer → b ≠ .called timer now

def firstTimer : TimerInfo := ⟨7, 100, 15, 15, true, 0⟩

def removedWhenSelected : List Action :=
  [.createTimer 7 100 15 0 [firstTimer] false, .thread .begin, .thread (.pass 20 20), .thread .wake,
    .thread (.examine 35), .removeTimer 7, .thread (.call 36)]

theorem removed_when_selected_starts :
    ¬ ∀ s, machine.Reachable s → RemovalFinal s := by
  intro always
  obtain ⟨s, reached, shown⟩ := run_shows (m := machine) removedWhenSelected (s := initial) rfl
    (fun s : State =>
      decide (s.log = [.created 0 7 15 0, .selected 0 15 35, .removed 0, .called 0 36]))
    (by decide +kernel)
  have final := always s reached
  rw [RemovalFinal, of_decide_eq_true shown] at final
  simp at final

/-- removeTimer is called for the timer that is selected and whose callback has not started. -/
def interrupts (s : State) : Action → Bool
  | .removeTimer handle =>
    match s.pos with
    | .selected of => decide (of.handle = handle) && decide (of.obj ≠ 0)
    | _ => false
  | _ => false

def WaitsForStart (s : State) (a : Action) : Prop := interrupts s a = false

instance (s : State) (a : Action) : Decidable (WaitsForStart s a) :=
  inferInstanceAs (Decidable (_ = _))

structure Final (s : State) : Prop where
  ordered : RemovalFinal s
  unselected : ∀ of, s.pos = .selected of → of.obj ≠ 0 → .removed of.timer ∉ s.log

theorem final_append {s : State} {e : Event} (final : RemovalFinal s)
    (starts : ∀ timer now, e = .called timer now → .removed timer ∉ s.log) :
    (s.log ++ [e]).Pairwise fun a b => ∀ timer now, a = .removed timer → b ≠ .called timer now := by
  refine List.pairwise_append.mpr ⟨final, List.pairwise_singleton .., ?_⟩
  intro a old b new timer now removes calls
  rw [List.mem_singleton.mp new] at calls
  exact starts timer now calls (removes ▸ old)

theorem sameChoice_selected {s t : State} (choice : SameChoice s t) {of : Selection}
    (here : t.pos = .selected of) : s.pos = .selected of := by
  have working : chosen t.pos = some of := by rw [here]; rfl
  exact (sameChoice_busy choice working).1 ▸ here

theorem step_final {s t : State} {a : Action} (table : TableOk s) (final : Final s)
    (waits : WaitsForStart s a) (stepped : Stepped s a t) : Final t := by
  obtain ⟨ordered, unselected⟩ := final
  cases stepped with
  | quiet same =>
    refine ⟨by rw [RemovalFinal, same.log]; exact ordered, fun of here object => ?_⟩
    rw [same.log]
    exact unselected of (sameChoice_selected same.choice here) object
  | created long fresh added result made log choice =>
    refine ⟨?_, fun of here object logged => ?_⟩
    · rw [RemovalFinal, log]
      exact final_append ordered (by simp)
    · rw [log] at logged
      apply unselected of (sameChoice_selected choice here) object
      exact logged_before logged (by simp)
  | @removed handle timer found =>
    obtain ⟨member, own⟩ := find_some found
    refine ⟨final_append ordered (by simp), fun of here object logged => ?_⟩
    rcases List.mem_append.mp logged with old | new
    · exact unselected of here object old
    · simp only [List.mem_singleton, Event.removed.injEq] at new
      have working : chosen s.pos = some of := by rw [here]; rfl
      obtain ⟨u, there, key, number⟩ := busy_entry table working
      have same := (same_entry table there member).mpr (number.trans new)
      have chosen_ : s.pos = .selected of := here
      have other : of.handle ≠ handle := by
        simpa [WaitsForStart, interrupts, chosen_, object] using waits
      exact other (key.symm.trans (same.trans own))
  | cleared idle timers result made log choice =>
    refine ⟨by rw [RemovalFinal, log]; exact ordered, fun of here object => ?_⟩
    rw [log]
    exact unselected of (sameChoice_selected choice here) object
  | @selected now handle timer here iterator found active due =>
    obtain ⟨member, own⟩ := find_some found
    refine ⟨final_append ordered (by simp), fun of here _ logged => ?_⟩
    simp only [ThreadPos.selected.injEq] at here
    subst here
    have old : .removed timer.timer ∈ s.log := logged_before logged (by simp)
    simp [table.removed timer member old] at active
  | @called of now here object =>
    refine ⟨final_append ordered fun timer now' calls => ?_, fun of' here => by simp at here⟩
    simp only [Event.called.injEq] at calls
    exact calls.1 ▸ unselected of here object
  | spared here null => exact ⟨ordered, fun of' here => by simp at here⟩
  | cameBack here =>
    exact ⟨final_append ordered (by simp), fun of' here => by simp at here⟩
  | finished here iterator => exact ⟨ordered, fun of' here => by simp at here⟩

/-- When no timer is removed between its selection and the start of its callback, a removed
    timer's callback never starts again. -/
theorem removal_final {s : State} (reached : machine.ReachableBy WaitsForStart s) :
    RemovalFinal s := by
  have final : Final s := by
    refine invariant_along TableOk Final (fun _ before => table_reached before) ?_ ?_ reached
    · rintro s rfl
      exact ⟨.nil, fun of here => by simp [initial] at here⟩
    · exact fun s a t table final waits move => step_final table final waits (step_stepped move)
  exact final.ordered

def removedInCallback : List Action :=
  [.createTimer 7 100 15 0 [firstTimer] false, .thread .begin, .thread (.pass 20 20), .thread .wake,
    .thread (.examine 35), .thread (.call 36), .removeTimer 7, .thread (.comeBack 0),
    .thread .finish, .thread (.pass 40 40), .thread .wake, .thread (.examine 55),
    .thread (.pass 55 55), .thread .wake, .thread (.examine 70)]

theorem removed_in_callback_final : ∃ s, machine.runBy
    (fun s a => decide (WaitsForStart s a)) initial removedInCallback = some s ∧
      s.log.getLast? = some (.returned 0 0) ∧ RemovalFinal s := by
  obtain ⟨s, executed, last, reached⟩ := guarded_shows (m := machine) (s := initial) WaitsForStart
    removedInCallback rfl (fun s : State => decide (s.log.getLast? = some (.returned 0 0)))
    (by decide +kernel)
  exact ⟨s, executed, of_decide_eq_true last, removal_final reached⟩

end TimerRemoval
