import FJUtility.Timer.Table

/- What becomes of a timer that was stopped. The thread passes an inactive entry in every round and
   only removeTimer(void) and the destructor take entries out of the table. -/
namespace TimerRounds
open LabelledMachine TimerLoop TimerTable

structure Stop where
  handle : Nat
  round : Nat
  deriving DecidableEq, Repr

/-- Observers: the rounds of the iterator over the table that have begun and ended, and the timers
    that became inactive. -/
structure Watched where
  base : State
  begun : Nat
  ended : Nat
  stopped : List Stop

def begins (s t : State) : Action → Bool
  | .thread .begin => true
  | .thread (.examine _) => s.it.isNone && decide (t.pos = .passing)
  | _ => false

def ends (t : State) : Action → Bool
  | .thread .begin | .thread (.examine _) | .thread .finish =>
    t.it.isNone && decide (t.pos = .passing)
  | _ => false

def halted (s t : State) : List TimerInfo :=
  s.timers.filter fun u => u.active && (find u.handle t.timers).any fun v => !v.active

def observe (s : Watched) (t : State) (a : Action) : Watched where
  base := t
  begun := s.begun + (begins s.base t a).toNat
  ended := s.ended + (ends t a).toNat
  stopped := s.stopped ++ (halted s.base t).map fun u => ⟨u.handle, s.begun⟩

def watched : Machine Watched Action where
  init s := s = ⟨initial, 0, 0, []⟩
  step s a := (machine.step s.base a).map fun t => observe s t a

/-- Timers are created and removed one by one, and the object is not destroyed. -/
def SingleStops (_ : Watched) : Action → Prop
  | .removeAll | .destroy => False
  | _ => True

instance (s : Watched) (a : Action) : Decidable (SingleStops s a) := by
  cases a <;> simp only [SingleStops] <;> infer_instance

def Stop.passed (s : Watched) (x : Stop) : Bool := decide (x.round < s.ended)

def StoppedLeave (s : Watched) : Prop :=
  ∀ x ∈ s.stopped, x.passed s = true → find x.handle s.base.timers = none

/-- The entries are no more than the active timers and those that became inactive within the last
    round. -/
def TableBounded (s : Watched) : Prop :=
  s.base.timers.length ≤
    s.base.timers.countP TimerInfo.active + s.stopped.countP fun x => !x.passed s

def onlyTimer : TimerInfo := ⟨7, 100, 15, 15, true, 0⟩

def removedAndPassed : List Action :=
  [.createTimer 7 100 15 0 [onlyTimer] false, .thread .begin, .removeTimer 7,
    .thread (.pass 20 20), .thread .wake, .thread (.examine 35),
    .thread (.pass 35 35), .thread .wake, .thread (.examine 50),
    .thread (.pass 50 50), .thread .wake, .thread (.examine 65)]

theorem removed_and_passed_remains :
    ¬ ∀ s, watched.ReachableBy SingleStops s → StoppedLeave s ∧ TableBounded s := by
  intro always
  obtain ⟨s, _, shown, reached⟩ := guarded_shows (m := watched) (s := ⟨initial, 0, 0, []⟩)
    SingleStops removedAndPassed rfl
    (fun s : Watched => decide (s.stopped = [⟨7, 1⟩]) && decide (s.ended = 2) &&
      decide (s.base.timers = [onlyTimer.deactivate])) (by decide +kernel)
  simp only [Bool.and_eq_true, decide_eq_true_eq] at shown
  obtain ⟨⟨stopped, ended⟩, timers⟩ := shown
  have left := (always s reached).1 ⟨7, 1⟩ (by simp [stopped]) (by simp [Stop.passed, ended])
  rw [timers] at left
  simp [find, onlyTimer, TimerInfo.deactivate] at left

inductive Moved (s t : State) : Prop where
  | same (timers : t.timers = s.timers) (made : t.made = s.made)
  | added {new : TimerInfo} (active : new.active = true)
      (timers : t.timers.Perm (new :: s.timers)) (made : t.made = s.made + 1)
  | altered {handle : Nat} {change : TimerInfo → TimerInfo} (keeps : Keeps change)
      (stops : ∀ u, u.active = false → (change u).active = false)
      (timers : t.timers = alter handle change s.timers) (made : t.made = s.made)

theorem called_moved {s : Watched} {t : State} {a : Action} (single : SingleStops s a)
    (called : Called s.base a t) : Moved s.base t := by
  cases called with
  | nudged nudged => exact .same nudged.timers nudged.made
  | entered _ _ added nudged _ => exact .added (by rfl) added nudged.made
  | removed => exact .altered deactivate_keeps (fun _ _ => rfl) rfl rfl
  | cleared _ clears =>
    rcases clears with ⟨rfl, _⟩ | ⟨rfl, _⟩
    · exact single.elim
    · exact single.elim

theorem thread_moved {s t : State} {act : ThreadAct} (moved : Threaded s act t) : Moved s t := by
  cases moved with
  | selected => exact .altered (renew_keeps _) (fun _ idle => idle) rfl rfl
  | finished =>
    by_cases negative : s.result < 0
    · exact .altered deactivate_keeps (fun _ _ => rfl) (if_pos negative) rfl
    · exact .same (if_neg negative) rfl
  | _ => exact .same rfl rfl

theorem step_moved {s : Watched} {t : State} {a : Action} (single : SingleStops s a)
    (stepped : machine.step s.base a = some t) : Moved s.base t := by
  change step s.base a = some t at stepped
  cases a with
  | thread act => exact thread_moved (thread_threaded stepped)
  | _ => exact called_moved single (step_called (by simp) stepped)

structure Held (s : Watched) : Prop where
  kept : ∀ x ∈ s.stopped, ∃ u ∈ s.base.timers, u.handle = x.handle ∧ u.active = false
  noted : ∀ u ∈ s.base.timers, u.active = false → ∃ x ∈ s.stopped, x.handle = u.handle
  distinct : (s.stopped.map Stop.handle).Nodup
  whole : s.base.timers.length = s.base.made

theorem handles_nodup {s : State} (table : TableOk s) : (s.timers.map TimerInfo.handle).Nodup := by
  have apart := List.pairwise_map.mp table.distinct
  rw [List.Nodup, List.pairwise_map]
  exact apart.imp fun other => other.1

theorem mem_halted {s t : State} {u : TimerInfo} (halts : u ∈ halted s t) :
    u ∈ s.timers ∧ u.active = true ∧ ∃ v ∈ t.timers, v.handle = u.handle ∧ v.active = false := by
  simp only [halted, List.mem_filter, Bool.and_eq_true, Option.any_eq_true] at halts
  obtain ⟨member, active, v, found, idle⟩ := halts
  obtain ⟨there, same⟩ := find_some found
  exact ⟨member, active, v, there, same, by simpa using idle⟩

theorem moved_idle {s t : State} (moved : Moved s t) {u : TimerInfo} (member : u ∈ s.timers)
    (idle : u.active = false) : ∃ v ∈ t.timers, v.handle = u.handle ∧ v.active = false := by
  cases moved with
  | same timers made => exact ⟨u, timers ▸ member, rfl, idle⟩
  | added active timers made =>
    exact ⟨u, timers.mem_iff.mpr (List.mem_cons_of_mem _ member), rfl, idle⟩
  | @altered handle change keeps stops timers made =>
    rw [timers]
    refine ⟨_, List.mem_map_of_mem member, ?_⟩
    split
    · exact ⟨keeps.handle u, stops u idle⟩
    · exact ⟨rfl, idle⟩

theorem idle_moved {s t : State} (moved : Moved s t) {v : TimerInfo} (member : v ∈ t.timers)
    (idle : v.active = false) : ∃ u ∈ s.timers, u.handle = v.handle := by
  cases moved with
  | same timers made => exact ⟨v, timers ▸ member, rfl⟩
  | added active timers made =>
    rcases List.mem_cons.mp (timers.mem_iff.mp member) with rfl | old
    · rw [active] at idle
      exact absurd idle (by simp)
    · exact ⟨v, old, rfl⟩
  | altered keeps stops timers made =>
    rw [timers] at member
    obtain ⟨u, old, ⟨_, rfl⟩ | ⟨_, rfl⟩⟩ := mem_alter member
    · exact ⟨u, old, (keeps.handle u).symm⟩
    · exact ⟨_, old, rfl⟩

theorem moved_length {s t : State} (moved : Moved s t) (whole : s.timers.length = s.made) :
    t.timers.length = t.made := by
  cases moved with
  | same timers made => rw [timers, made, whole]
  | added active timers made => rw [timers.length_eq, List.length_cons, made, whole]
  | altered keeps stops timers made => rw [timers, made, alter, List.length_map, whole]

theorem step_held {s : Watched} {t : State} {a : Action} (before : TableOk s.base)
    (after : TableOk t) (held : Held s) (moved : Moved s.base t) : Held (observe s t a) := by
  constructor
  case kept =>
    intro x member
    rcases List.mem_append.mp member with old | new
    · obtain ⟨u, there, same, idle⟩ := held.kept x old
      obtain ⟨v, here, same', idle'⟩ := moved_idle moved there idle
      exact ⟨v, here, same'.trans same, idle'⟩
    · obtain ⟨u, halts, rfl⟩ := List.mem_map.mp new
      exact (mem_halted halts).2.2
  case noted =>
    intro v member idle
    obtain ⟨u, there, same⟩ := idle_moved moved member idle
    cases active : u.active with
    | false =>
      obtain ⟨x, old, own⟩ := held.noted u there active
      exact ⟨x, List.mem_append_left _ old, own.trans same⟩
    | true =>
      have found : find u.handle t.timers = some v := find_of_mem after member same.symm
      have halts : u ∈ halted s.base t := by
        simp [halted, there, active, found, idle]
      exact ⟨_, List.mem_append_right _ (List.mem_map_of_mem halts), same⟩
  case distinct =>
    simp only [observe, List.map_append, List.map_map]
    apply List.nodup_append.mpr
    refine ⟨held.distinct, ?_, ?_⟩
    · exact (handles_nodup before).sublist (List.filter_sublist.map _)
    · intro h old h' new
      obtain ⟨x, member, rfl⟩ := List.mem_map.mp old
      obtain ⟨u, halts, rfl⟩ := List.mem_map.mp new
      obtain ⟨there, active, _⟩ := mem_halted halts
      obtain ⟨v, here, own, idle⟩ := held.kept x member
      intro same
      have one : v = u := one_entry before here there (Or.inl (own.trans same))
      rw [one, active] at idle
      exact absurd idle (by simp)
  case whole => exact moved_length moved held.whole

theorem base_reached {s : Watched} (reached : watched.ReachableBy SingleStops s) :
    machine.Reachable s.base := by
  apply reachableBy_project Watched.base _ _ reached
  · rintro t rfl
    rfl
  · intro s a t _ stepped
    obtain ⟨u, moved, rfl⟩ := Option.map_eq_some_iff.mp stepped
    exact Or.inr ⟨a, trivial, moved⟩

theorem held_reached {s : Watched} (reached : watched.ReachableBy SingleStops s) : Held s := by
  apply invariant_along (fun s => TableOk s.base) Held _ _ _ reached
  · intro s before
    exact table_reached (base_reached before)
  · rintro s rfl
    exact ⟨by simp, by simp [initial], by simp, rfl⟩
  · intro s a t table held single stepped
    obtain ⟨u, moved, rfl⟩ := Option.map_eq_some_iff.mp stepped
    have shape := step_moved single moved
    exact step_held table (step_table table (step_stepped moved)) held shape

/-- Counted by their handles, the inactive entries are the stopped timers. -/
theorem held_length {s : Watched} (table : TableOk s.base) (held : Held s) :
    s.base.timers.length = s.base.timers.countP TimerInfo.active + s.stopped.length := by
  have idle : ((s.base.timers.filter fun u => !u.active).map TimerInfo.handle).Perm
      (s.stopped.map Stop.handle) := by
    apply (List.perm_ext_iff_of_nodup _ held.distinct).mpr
    · intro handle
      constructor
      · intro member
        obtain ⟨u, there, rfl⟩ := List.mem_map.mp member
        obtain ⟨old, stopped⟩ := List.mem_filter.mp there
        obtain ⟨x, noted, own⟩ := held.noted u old (by simpa using stopped)
        exact List.mem_map.mpr ⟨x, noted, own⟩
      · intro member
        obtain ⟨x, noted, rfl⟩ := List.mem_map.mp member
        obtain ⟨u, there, own, stopped⟩ := held.kept x noted
        exact List.mem_map.mpr ⟨u, List.mem_filter.mpr ⟨there, by simp [stopped]⟩, own⟩
    · exact (handles_nodup table).sublist (List.filter_sublist.map _)
  have counted := idle.length_eq
  rw [List.length_map, List.length_map, ← List.countP_eq_length_filter] at counted
  rw [List.length_eq_countP_add_countP TimerInfo.active, ← counted]
  simp

def StoppedLately (s : Watched) : Prop := ∀ x ∈ s.stopped, x.passed s = false

theorem leave_iff {s : Watched} (held : Held s) : StoppedLeave s ↔ StoppedLately s := by
  constructor
  · intro leave x member
    cases passed : x.passed s with
    | false => rfl
    | true =>
      obtain ⟨u, there, own, _⟩ := held.kept x member
      exact absurd own (find_none (leave x member passed) there)
  · intro lately x member passed
    rw [lately x member] at passed
    exact absurd passed (by simp)

theorem bounded_iff {s : Watched} (table : TableOk s.base) (held : Held s) :
    TableBounded s ↔ StoppedLately s := by
  rw [TableBounded, held_length table held, Nat.add_le_add_iff_left]
  constructor
  · intro bounded x member
    have whole := Nat.le_antisymm List.countP_le_length bounded
    simpa using List.countP_eq_length.mp whole x member
  · intro lately
    have whole : s.stopped.countP (fun x => !x.passed s) = s.stopped.length :=
      List.countP_eq_length.mpr fun x member => by simp [lately x member]
    exact Nat.le_of_eq whole.symm

/-- The table keeps an entry for every timer that was created; so stopped timers have left it, and
    bound it, exactly as long as none has been stopped for a whole round. -/
theorem stopped_leave_iff {s : Watched} (reached : watched.ReachableBy SingleStops s) :
    s.base.timers.length = s.base.made ∧
      (StoppedLeave s ↔ StoppedLately s) ∧ (TableBounded s ↔ StoppedLately s) := by
  have table := table_reached (base_reached reached)
  have held := held_reached reached
  exact ⟨held.whole, leave_iff held, bounded_iff table held⟩

theorem removed_and_passed_whole : ∃ s, watched.runBy
    (fun s a => decide (SingleStops s a)) ⟨initial, 0, 0, []⟩ removedAndPassed = some s ∧
      s.base.timers.length = s.base.made ∧
      (StoppedLeave s ↔ StoppedLately s) ∧ (TableBounded s ↔ StoppedLately s) := by
  obtain ⟨s, executed, reached⟩ := guarded_ends (m := watched) (s := ⟨initial, 0, 0, []⟩)
    SingleStops removedAndPassed rfl (by decide +kernel)
  exact ⟨s, executed, stopped_leave_iff reached⟩

end TimerRounds
