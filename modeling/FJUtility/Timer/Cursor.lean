import FJUtility.Timer.Table

/- The iterator that the timer thread keeps while mutex_ is free. removeTimer(void) waits for
   running_ only, which is false throughout the timed wait, and an insertion waits for nothing. -/
namespace TimerCursor
open LabelledMachine TimerLoop TimerTable

def UsesCursor (s : State) : Action → Prop
  | .thread (.examine _) => s.pos = .woken ∧ s.stop = false ∧ s.it ≠ none
  | .thread .finish => ∃ of, s.pos = .returned of
  | _ => False

/-- it designates an entry, and has not been invalidated since it was obtained. -/
def CursorValid (s : State) : Prop :=
  s.invalid = false ∧ ∃ handle, s.it = some handle ∧ (find handle s.timers).isSome = true

def onlyTimer : TimerInfo := ⟨7, 100, 15, 15, true, 0⟩

def clearedInWait : List Action :=
  [.createTimer 7 100 15 0 [onlyTimer] false, .thread .begin, .thread (.pass 20 20), .removeAll,
    .thread .wake]

theorem cleared_in_wait_dangles :
    ¬ ∀ s a, machine.Reachable s → UsesCursor s a → CursorValid s := by
  intro always
  obtain ⟨s, reached, shown⟩ := run_shows (m := machine) clearedInWait (s := initial) rfl
    (fun s : State => decide (s.pos = .woken) && !s.stop && decide (s.it = some 7) && s.invalid)
    (by decide +kernel)
  simp only [Bool.and_eq_true, decide_eq_true_eq, Bool.not_eq_true'] at shown
  obtain ⟨⟨⟨woken, goes⟩, iterator⟩, invalid⟩ := shown
  have valid := always s (.thread (.examine 35)) reached ⟨woken, goes, by simp [iterator]⟩
  rw [valid.1] at invalid
  exact Bool.false_ne_true invalid

def away (s : State) : Bool := s.it.isNone || (s.stop && (chosen s.pos).isNone)

/-- The step clears or rehashes the table with it on an entry, or examines an entry between the
    clear of the destructor and stop_. -/
def disturbs (s : State) : Action → Bool
  | .createTimer handle _ intervalMsec _ _ rehashed =>
    rehashed && decide (minTickMsec ≤ intervalMsec) && (find handle s.timers).isNone && !away s
  | .removeAll => !s.running && !away s
  | .thread (.examine _) => decide (s.destroying = .stopping) && !away s
  | _ => false

def KeepsCursor (s : State) (a : Action) : Prop := disturbs s a = false

instance (s : State) (a : Action) : Decidable (KeepsCursor s a) :=
  inferInstanceAs (Decidable (_ = _))

def Kept (s : State) : Prop :=
  CursorValid s ∨ chosen s.pos = none ∧ (away s = true ∨ s.destroying = .stopping)

theorem find_isSome {handle : Nat} {timers : List TimerInfo} :
    (find handle timers).isSome = true ↔ ∃ t ∈ timers, t.handle = handle := by
  simp [find, List.find?_isSome]

theorem beginOf_found {handle : Nat} {timers : List TimerInfo}
    (first : beginOf timers = some handle) : (find handle timers).isSome = true := by
  obtain ⟨t, head, own⟩ := Option.map_eq_some_iff.mp first
  exact find_isSome.mpr ⟨t, List.mem_of_mem_head? head, own⟩

theorem nextOf_found {handle other : Nat} {timers : List TimerInfo}
    (next : nextOf handle timers = some other) : (find other timers).isSome = true := by
  induction timers with
  | nil => simp [nextOf] at next
  | cons t rest ih =>
    rw [find_isSome]
    have later : (find other rest).isSome = true → ∃ u ∈ t :: rest, u.handle = other := by
      intro found
      obtain ⟨u, member, own⟩ := find_isSome.mp found
      exact ⟨u, List.mem_cons_of_mem t member, own⟩
    apply later
    simp only [nextOf] at next
    split at next
    · exact beginOf_found next
    · exact ih next

theorem alter_found {handle other : Nat} {change : TimerInfo → TimerInfo} (keeps : Keeps change)
    {timers : List TimerInfo} (found : (find other timers).isSome = true) :
    (find other (alter handle change timers)).isSome = true := by
  obtain ⟨t, member, own⟩ := find_isSome.mp found
  have key : keyOf t ∈ (alter handle change timers).map keyOf := by
    rw [alter_keys keeps]
    exact List.mem_map_of_mem member
  obtain ⟨u, altered, same⟩ := List.mem_map.mp key
  simp only [keyOf, Prod.mk.injEq] at same
  exact find_isSome.mpr ⟨u, altered, same.1.trans own⟩

structure Leaves (s t : State) : Prop where
  it : t.it = s.it
  invalid : s.invalid = false → t.invalid = false
  found : ∀ handle, s.it = some handle → (find handle s.timers).isSome = true →
    (find handle t.timers).isSome = true
  chosen : chosen t.pos = chosen s.pos
  stop : s.stop = true → t.stop = true
  stopping : s.destroying = .stopping → t.destroying = .stopping ∨ t.stop = true

theorem away_leaves {s t : State} (it : t.it = s.it) (choice : chosen t.pos = chosen s.pos)
    (stop : s.stop = true → t.stop = true) (gone : away s = true) : away t = true := by
  unfold away at gone ⊢
  rw [it, choice]
  cases ends : s.stop with
  | false => simpa [ends] using Or.inl (by simpa [ends] using gone)
  | true => simpa [ends, stop ends] using gone

theorem leaves_kept {s t : State} (leaves : Leaves s t) (kept : Kept s) : Kept t := by
  rcases kept with ⟨valid, handle, iterator, found⟩ | ⟨unchosen, rest⟩
  · left
    exact ⟨leaves.invalid valid, handle, leaves.it.trans iterator,
      leaves.found handle iterator found⟩
  · right
    constructor
    · exact leaves.chosen.trans unchosen
    · rcases rest with gone | stopping
      · left
        exact away_leaves leaves.it leaves.chosen leaves.stop gone
      · rcases leaves.stopping stopping with still | ended
        · exact Or.inr still
        · left
          simp [away, ended, leaves.chosen, unchosen]

theorem nudged_leaves {s t : State} (nudged : Nudged s t) : Leaves s t where
  it := nudged.it
  invalid valid := nudged.invalid.trans valid
  found handle _ there := nudged.timers ▸ there
  chosen := by
    rcases nudged.pos with same | ⟨deadline, waits, woken⟩
    · rw [same]
    · rw [waits, woken]
      rfl
  stop := nudged.stop
  stopping := nudged.stopping

theorem cleared_kept {s : State} (unchosen : chosen s.pos = none) (base : Int) {pos : DestroyPos}
    (rest : away s = true ∨ pos = .stopping) :
    Kept { s with timers := [], baseIntervalMsec := base, invalid := true, destroying := pos } :=
  Or.inr ⟨unchosen, rest⟩

theorem idle_unchosen {s : State} (table : TableOk s) (idle : s.running = false) :
    chosen s.pos = none := by
  cases working : chosen s.pos with
  | none => rfl
  | some of =>
    rw [(table.busy of working).1] at idle
    exact absurd idle (by simp)

theorem away_unchosen {s : State} (kept : Kept s) (gone : away s = true) :
    chosen s.pos = none := by
  rcases kept with ⟨_, handle, iterator, _⟩ | ⟨unchosen, _⟩
  · simp only [away, iterator, Option.isNone_some, Bool.false_or, Bool.and_eq_true,
      Option.isNone_iff_eq_none] at gone
    exact gone.2
  · exact unchosen

theorem entered_kept {table : List TimerInfo} {new : TimerInfo} {made : Nat} {log : List Event}
    {rehashed : Bool} {s : State} (kept : Kept s) (still : rehashed = true → away s = true)
    (perm : table.Perm (new :: s.timers)) :
    Kept { s with timers := table, invalid := s.invalid || rehashed, made, log } := by
  cases moved : rehashed with
  | false =>
    apply leaves_kept _ kept
    constructor
    case invalid => intro valid; simp [valid]
    case found =>
      intro handle _ there
      obtain ⟨t, member, own⟩ := find_isSome.mp there
      exact find_isSome.mpr ⟨t, perm.mem_iff.mpr (List.mem_cons_of_mem _ member), own⟩
    case stopping => exact Or.inl
    all_goals first | rfl | exact id
  | true =>
    have gone := still moved
    have unchosen : chosen s.pos = none := away_unchosen kept gone
    exact Or.inr ⟨unchosen, Or.inl gone⟩

theorem called_kept {s t : State} {a : Action} (table : TableOk s) (kept : Kept s)
    (keeps : KeepsCursor s a) (called : Called s a t) : Kept t := by
  cases called with
  | nudged nudged => exact leaves_kept (nudged_leaves nudged) kept
  | entered long absent added nudged _ =>
    apply leaves_kept (nudged_leaves nudged)
    apply entered_kept kept _ (nudged.timers ▸ added)
    intro moved
    simpa [KeepsCursor, disturbs, moved, absent, long] using keeps
  | removed found =>
    apply leaves_kept _ kept
    exact ⟨rfl, id, fun _ _ => alter_found deactivate_keeps, rfl, id, Or.inl⟩
  | cleared idle clears =>
    apply cleared_kept (idle_unchosen table idle)
    rcases clears with ⟨rfl, _⟩ | ⟨_, _, stopping⟩
    · left
      simpa [KeepsCursor, disturbs, idle] using keeps
    · exact Or.inr stopping

theorem obtained_kept {s : State} (valid : s.invalid = false) (unchosen : chosen s.pos = none)
    (found : ∀ handle, s.it = some handle → (find handle s.timers).isSome = true) : Kept s := by
  cases iterator : s.it with
  | none => exact Or.inr ⟨unchosen, Or.inl (by simp [away, iterator])⟩
  | some handle => exact Or.inl ⟨valid, handle, iterator, found handle iterator⟩

/-- The thread goes on to its entry only with a valid iterator. -/
theorem examined_valid {now : Int} {handle : Nat} {s : State} (kept : Kept s)
    (keeps : KeepsCursor s (.thread (.examine now))) (goes : s.stop = false)
    (iterator : s.it = some handle) : CursorValid s := by
  have near : away s = false := by simp [away, iterator, goes]
  apply kept.resolve_right
  rintro ⟨_, gone | stopping⟩
  · exact Bool.false_ne_true (near.symm.trans gone)
  · simp [KeepsCursor, disturbs, near, stopping] at keeps

theorem thread_kept {s t : State} {act : ThreadAct} (kept : Kept s)
    (keeps : KeepsCursor s (.thread act)) (moved : Threaded s act t) : Kept t := by
  cases moved with
  | began | restarted => exact obtained_kept rfl rfl fun handle => beginOf_found
  | stopped here stops => exact Or.inr ⟨rfl, Or.inl (by simp [away, stops, chosen])⟩
  | skipped here goes iterator found =>
    have valid := examined_valid kept keeps goes iterator
    exact obtained_kept valid.1 rfl fun handle => nextOf_found
  | @selected now handle timer here goes iterator found active due =>
    have valid := examined_valid kept keeps goes iterator
    left
    refine ⟨valid.1, handle, iterator, alter_found (renew_keeps now) ?_⟩
    simp [found]
  | finished here iterator =>
    have valid : CursorValid s := by
      apply kept.resolve_right
      rintro ⟨unchosen, _⟩
      simp [here, chosen] at unchosen
    apply obtained_kept
    · exact valid.1
    · rfl
    · intro other next
      dsimp only
      split
      · exact alter_found deactivate_keeps (nextOf_found next)
      · exact nextOf_found next
  | passed here | woken here | spared here | called here | cameBack here =>
    apply leaves_kept _ kept
    exact ⟨rfl, id, fun _ _ => id, by rw [here]; rfl, id, Or.inl⟩

theorem step_kept {s t : State} {a : Action} (table : TableOk s) (kept : Kept s)
    (keeps : KeepsCursor s a) (stepped : machine.step s a = some t) : Kept t := by
  change step s a = some t at stepped
  cases a with
  | thread act => exact thread_kept kept keeps (thread_threaded stepped)
  | _ => exact called_kept table kept keeps (step_called (by simp) stepped)

/-- When the table is neither cleared nor rehashed with it on an entry, except by the destructor
    whose stop_ the thread sees first, every use of it is of a valid iterator. -/
theorem cursor_valid {s : State} (reached : machine.ReachableBy KeepsCursor s) {a : Action}
    (keeps : KeepsCursor s a) (uses : UsesCursor s a) : CursorValid s := by
  have kept : Kept s := by
    apply invariant_along TableOk Kept (fun _ before => table_reached before) _ _ reached
    · rintro s rfl
      exact Or.inr ⟨rfl, Or.inl rfl⟩
    · intro s a t table kept keeps move
      exact step_kept table kept keeps move
  apply kept.resolve_right
  rintro ⟨unchosen, rest⟩
  match a, uses with
  | .thread (.examine now), ⟨_, goes, entry⟩ =>
    have near : away s = false := by
      simp only [away, goes, Bool.false_and, Bool.or_false, Option.isNone_eq_false_iff]
      exact Option.isSome_iff_ne_none.mpr entry
    rcases rest with gone | stopping
    · exact Bool.false_ne_true (near.symm.trans gone)
    · simp [KeepsCursor, disturbs, near, stopping] at keeps
  | .thread .finish, ⟨of, here⟩ => simp [here, chosen] at unchosen

/-- A timer goes by, the table grows at the end of a round, a callback runs, and the destructor
    ends the thread with the iterator on an entry. -/
def growsAtEnd : List Action :=
  [.createTimer 7 100 15 0 [onlyTimer] false, .thread .begin, .thread (.pass 0 0), .thread .wake,
    .thread (.examine 10), .thread (.pass 10 10),
    .createTimer 8 101 15 10 [⟨8, 101, 15, 25, true, 1⟩, onlyTimer] true, .thread .wake,
    .thread (.examine 12), .thread (.pass 12 12), .thread .wake, .thread (.examine 27),
    .thread (.call 27), .thread (.comeBack 0)]

theorem grows_at_end_valid : ∃ s, machine.runBy (fun s a => decide (KeepsCursor s a)) initial
    growsAtEnd = some s ∧ UsesCursor s (.thread .finish) ∧ CursorValid s := by
  obtain ⟨s, executed, shown, reached⟩ := guarded_shows (m := machine) (s := initial) KeepsCursor
    growsAtEnd rfl (fun s : State => decide (s.pos = .returned ⟨8, 101, 1⟩)) (by decide +kernel)
  have here : UsesCursor s (.thread .finish) := ⟨_, of_decide_eq_true shown⟩
  have keeps : KeepsCursor s (.thread .finish) := rfl
  exact ⟨s, executed, here, cursor_valid reached keeps here⟩

end TimerCursor
