import FJUtility.Timer.Firing

/- isActiveTimer. Its answer is read off the table, between sections of the thread; what it says
   of the past and of the rest of a run is told here from what was observed. -/
namespace TimerActivity
open LabelledMachine TimerLoop TimerTable TimerFiring

def isActiveTimer (handle : Nat) (s : State) : Bool :=
  match find handle s.timers with
  | some timer => timer.active
  | none => false

def Deactivated (s : State) (timer : Nat) : Prop :=
  .removed timer ∈ s.log ∨
    (∃ result < 0, .returned timer result ∈ s.log) ∧ ¬ Pending s timer

structure Told (s : State) : Prop where
  born : ∀ t ∈ s.timers, ∀ handle i start, .created t.timer handle i start ∈ s.log →
    handle = t.handle
  working : ∀ of, chosen s.pos = some of → ∀ t ∈ s.timers, t.timer = of.timer →
    t.active = false → .removed t.timer ∈ s.log

def Dormant (timer : Nat) (s : State) : Prop :=
  timer < s.made ∧ ∀ t ∈ s.timers, t.timer = timer → t.active = false

def toStart (timer : Nat) : ThreadPos → Nat
  | .selected of => if of.timer = timer then 1 else 0
  | _ => 0

def isCalled (timer : Nat) : Event → Bool
  | .called other _ => decide (other = timer)
  | _ => false

/-- What is observed of the timer between two states: it is not selected, and no callback of it
    starts but the one that was to start. -/
def Silent (timer : Nat) (s t : State) : Prop :=
  ∃ events, t.log = s.log ++ events ∧ (∀ i now, .selected timer i now ∉ events) ∧
    events.countP (isCalled timer) + toStart timer t.pos ≤ toStart timer s.pos

theorem silent_trans {timer : Nat} {s t u : State} (one : Silent timer s t)
    (two : Silent timer t u) : Silent timer s u := by
  obtain ⟨events, log, unselected, started⟩ := one
  obtain ⟨more, log', unselected', started'⟩ := two
  refine ⟨events ++ more, by rw [log', log, List.append_assoc], ?_, ?_⟩
  · intro i now member
    rcases List.mem_append.mp member with old | new
    · exact unselected i now old
    · exact unselected' i now new
  · rw [List.countP_append]
    omega

theorem silent_same {timer : Nat} {s t : State} (log : t.log = s.log)
    (started : toStart timer t.pos ≤ toStart timer s.pos) : Silent timer s t :=
  ⟨[], by rw [log, List.append_nil], by simp, by simpa using started⟩

theorem silent_event {timer : Nat} {s t : State} {e : Event} (log : t.log = s.log ++ [e])
    (unselected : ∀ i now, e ≠ .selected timer i now)
    (started : (if isCalled timer e then 1 else 0) + toStart timer t.pos ≤ toStart timer s.pos) :
    Silent timer s t := by
  refine ⟨[e], log, ?_, ?_⟩
  · intro i now member
    exact unselected i now (List.mem_singleton.mp member).symm
  · simpa [List.countP_cons] using started

theorem choice_start {s t : State} (choice : SameChoice s t) (timer : Nat) :
    toStart timer t.pos ≤ toStart timer s.pos := by
  rcases choice with ⟨pos, _⟩ | ⟨_, unchosen⟩
  · exact Nat.le_of_eq (congrArg (toStart timer) pos)
  · have none_left : toStart timer t.pos = 0 := by
      unfold toStart
      split
      · rename_i of selected
        simp [selected, chosen] at unchosen
      · rfl
    omega

theorem alter_dormant {timer handle : Nat} {change : TimerInfo → TimerInfo}
    {timers : List TimerInfo} (keeps : Keeps change)
    (quiet : ∀ t, t.active = false → (change t).active = false)
    (dormant : ∀ t ∈ timers, t.timer = timer → t.active = false) :
    ∀ t ∈ alter handle change timers, t.timer = timer → t.active = false := by
  intro t member own
  obtain ⟨u, old, ⟨_, rfl⟩ | ⟨_, rfl⟩⟩ := mem_alter member
  · exact quiet u (dormant u old (keeps.timer u ▸ own))
  · exact dormant _ old own

theorem step_dormant {timer : Nat} {s t : State} {a : Action} (dormant : Dormant timer s)
    (stepped : Stepped s a t) : Dormant timer t ∧ Silent timer s t := by
  obtain ⟨created, inactive⟩ := dormant
  cases stepped with
  | quiet same =>
    constructor
    · exact ⟨same.made ▸ created, same.timers ▸ inactive⟩
    · exact silent_same same.log (choice_start same.choice timer)
  | created long fresh added result made log choice =>
    constructor
    · refine ⟨by omega, ?_⟩
      intro u member own
      rcases List.mem_cons.mp (added.subset member) with rfl | old
      · simp only at own
        omega
      · exact inactive u old own
    · exact silent_event log (by simp) (by simpa [isCalled] using choice_start choice timer)
  | removed found =>
    constructor
    · exact ⟨created, alter_dormant deactivate_keeps (fun _ _ => rfl) inactive⟩
    · exact silent_event rfl (by simp) (by simp [isCalled])
  | cleared idle timers result made log choice =>
    constructor
    · exact ⟨made ▸ created, by simp [timers]⟩
    · exact silent_same log (choice_start choice timer)
  | @selected now handle entry here iterator found active due =>
    have other : entry.timer ≠ timer := by
      intro own
      rw [inactive entry (find_some found).1 own] at active
      exact Bool.noConfusion active
    constructor
    · exact ⟨created, alter_dormant (renew_keeps now) (fun _ off => off) inactive⟩
    · apply silent_event rfl
      · intro i now' same
        simp only [Event.selected.injEq] at same
        exact other same.1
      · simp [isCalled, toStart, other]
  | @called of now here object =>
    constructor
    · exact ⟨created, inactive⟩
    · exact silent_event rfl (by simp) (by simp [isCalled, toStart, here])
  | spared here null =>
    constructor
    · exact ⟨created, inactive⟩
    · exact silent_same rfl (Nat.zero_le _)
  | cameBack here =>
    constructor
    · exact ⟨created, inactive⟩
    · exact silent_event rfl (by simp) (by simp [isCalled, toStart])
  | finished here iterator =>
    constructor
    · refine ⟨created, ?_⟩
      dsimp only
      split
      · exact alter_dormant deactivate_keeps (fun _ _ => rfl) inactive
      · exact inactive
    · exact silent_same rfl (Nat.zero_le _)

theorem run_dormant {timer : Nat} {ok : State → Action → Bool} {s t : State}
    (dormant : Dormant timer s) (actions : List Action)
    (executed : machine.runBy ok s actions = some t) : Silent timer s t := by
  induction actions generalizing s with
  | nil =>
    simp only [Machine.runBy, Option.some.injEq] at executed
    subst executed
    exact silent_same rfl (Nat.le_refl _)
  | cons a rest ih =>
    simp only [Machine.runBy] at executed
    split at executed
    · obtain ⟨u, move, tail⟩ := Option.bind_eq_some_iff.mp executed
      obtain ⟨next, events⟩ := step_dormant dormant (step_stepped move)
      exact silent_trans events (ih next tail)
    · simp at executed

theorem alter_born {handle : Nat} {change : TimerInfo → TimerInfo} {timers : List TimerInfo}
    {log : List Event} (keeps : Keeps change)
    (born : ∀ t ∈ timers, ∀ h i start, .created t.timer h i start ∈ log → h = t.handle) :
    ∀ t ∈ alter handle change timers, ∀ h i start, .created t.timer h i start ∈ log →
      h = t.handle := by
  intro t member h i start logged
  obtain ⟨u, old, ⟨_, rfl⟩ | ⟨_, rfl⟩⟩ := mem_alter member
  · rw [keeps.timer] at logged
    rw [keeps.handle]
    exact born u old h i start logged
  · exact born _ old h i start logged

theorem born_append {timers : List TimerInfo} {log : List Event} {e : Event}
    (born : ∀ t ∈ timers, ∀ h i start, .created t.timer h i start ∈ log → h = t.handle)
    (other : ∀ timer h i start, e ≠ .created timer h i start) :
    ∀ t ∈ timers, ∀ h i start, .created t.timer h i start ∈ log ++ [e] → h = t.handle := by
  intro t member h i start logged
  exact born t member h i start (logged_before logged (Ne.symm (other t.timer h i start)))

theorem step_told {s t : State} {a : Action} (table : TableOk s) (told : Told s)
    (stepped : Stepped s a t) : Told t := by
  obtain ⟨born, working⟩ := told
  cases stepped with
  | quiet same =>
    constructor
    · rw [same.timers, same.log]
      exact born
    · intro of busy
      rw [same.timers, same.log]
      exact working of ((sameChoice_busy same.choice busy).1 ▸ busy)
  | @created handle obj intervalMsec start _ _ _ long fresh added result made log choice =>
    constructor
    · intro u member h i start' logged
      rw [log] at logged
      rcases List.mem_append.mp logged with before | new
      · rcases List.mem_cons.mp (added.subset member) with rfl | old
        · exact absurd rfl (Nat.ne_of_lt (table.observed _ before))
        · exact born u old h i start' before
      · simp only [List.mem_singleton, Event.created.injEq] at new
        rcases List.mem_cons.mp (added.subset member) with rfl | old
        · exact new.2.1
        · exact absurd new.1 (Nat.ne_of_lt (table.numbered u old))
    · intro of busy u member own off
      have there : chosen s.pos = some of := (sameChoice_busy choice busy).1 ▸ busy
      rw [log]
      rcases List.mem_cons.mp (added.subset member) with rfl | old
      · exact absurd off (by simp)
      · exact List.mem_append_left _ (working of there u old own off)
  | @removed handle timer found =>
    constructor
    · exact born_append (alter_born deactivate_keeps born) (by simp)
    · intro of busy u member own off
      obtain ⟨v, old, ⟨here, rfl⟩ | ⟨_, rfl⟩⟩ := mem_alter member
      · have same := one_entry table old (find_some found).1
          (Or.inl (here.trans (find_some found).2.symm))
        rw [same]
        exact List.mem_append_right _ (List.mem_singleton.mpr rfl)
      · exact List.mem_append_left _ (working of busy _ old own off)
  | cleared idle timers result made log choice =>
    constructor
    · simp [timers]
    · simp [timers]
  | @selected now handle timer here iterator found active due =>
    constructor
    · exact born_append (alter_born (renew_keeps now) born) (by simp)
    · intro of busy u member own off
      simp only [chosen, Option.some.injEq] at busy
      subst busy
      obtain ⟨v, old, ⟨_, rfl⟩ | ⟨other, rfl⟩⟩ := mem_alter member
      · have same := one_entry table old (find_some found).1 (Or.inr own)
        have on : v.active = true := same ▸ active
        exact absurd (on.symm.trans off) (by simp)
      · have same := one_entry table old (find_some found).1 (Or.inr own)
        exact absurd (same ▸ (find_some found).2) other
  | @called of now here object =>
    constructor
    · exact born_append born (by simp)
    · intro of' busy u member own off
      have there : chosen s.pos = some of' := by rw [here]; exact busy
      exact List.mem_append_left _ (working of' there u member own off)
  | @spared of now here null =>
    constructor
    · exact born
    · intro of' busy
      have there : chosen s.pos = some of' := by rw [here]; exact busy
      exact working of' there
  | @cameBack of result here =>
    constructor
    · exact born_append born (by simp)
    · intro of' busy u member own off
      have there : chosen s.pos = some of' := by rw [here]; exact busy
      exact List.mem_append_left _ (working of' there u member own off)
  | finished here iterator =>
    constructor
    · dsimp only
      split
      · exact alter_born deactivate_keeps born
      · exact born
    · simp [chosen]

theorem told_reached {guard : State → Action → Prop} {s : State}
    (reached : machine.ReachableBy guard s) : Told s := by
  apply invariant_along TableOk Told (fun _ before => table_reached before) _ _ reached
  · rintro s rfl
    constructor <;> simp [initial]
  · exact fun s a t table told _ move => step_told table told (step_stepped move)

theorem firing_reached {s : State} (reached : machine.ReachableBy NonNull s) : Firing s := by
  apply invariant_along TableOk Firing (fun _ before => table_reached before) _ _ reached
  · rintro s rfl
    exact initial_firing
  · exact fun s a t table firing object move => step_firing table firing object (step_stepped move)

theorem isActiveTimer_iff {s : State} (table : TableOk s) (handle : Nat) :
    isActiveTimer handle s = true ↔ ∃ t ∈ s.timers, t.handle = handle ∧ t.active = true := by
  unfold isActiveTimer
  constructor
  · intro answer
    split at answer
    · rename_i timer found
      exact ⟨timer, (find_some found).1, (find_some found).2, answer⟩
    · exact absurd answer (by simp)
  · rintro ⟨t, member, own, active⟩
    rw [find_of_mem table member own]
    exact active

/-- What the active flag of an entry says of the past. -/
theorem active_iff {s : State} (reached : machine.ReachableBy NonNull s) {t : TimerInfo}
    (member : t ∈ s.timers) : t.active = true ↔ ¬ Deactivated s t.timer := by
  have table := table_reached reached
  have firing := firing_reached reached
  constructor
  · rintro active (removed | ⟨⟨result, below, returned⟩, settled⟩)
    · rw [table.removed t member removed] at active
      exact Bool.noConfusion active
    · have off := (firing.negative t member result below returned).resolve_right settled
      rw [off] at active
      exact Bool.noConfusion active
  · intro unstopped
    by_contra inactive
    have off : t.active = false := by simpa using inactive
    apply unstopped
    obtain ⟨e, logged, rfl | ⟨result, below, rfl⟩⟩ := (firing.entries t member).stopped off
    · exact Or.inl logged
    · by_cases waits : Pending s t.timer
      · obtain ⟨of, here, own, _⟩ := waits
        exact Or.inl ((told_reached reached).working of (by rw [here]; rfl) t member own.symm off)
      · exact Or.inr ⟨⟨result, below, logged⟩, waits⟩

structure AnswerTells (handle : Nat) (s t : State) : Prop where
  past : isActiveTimer handle s = true ↔
    ∃ entry ∈ s.timers, entry.handle = handle ∧ ¬ Deactivated s entry.timer
  rest : isActiveTimer handle s = false → ∀ timer i start,
    .created timer handle i start ∈ s.log → Silent timer s t

theorem inactive_dormant {s : State} (table : TableOk s) (told : Told s) {handle : Nat}
    (answer : isActiveTimer handle s = false) {timer : Nat} {i start : Int}
    (created : .created timer handle i start ∈ s.log) : Dormant timer s := by
  constructor
  · exact table.observed _ created
  · intro t member own
    have same : handle = t.handle := told.born t member handle i start (own.symm ▸ created)
    by_contra active
    have holds := (isActiveTimer_iff table handle).mpr ⟨t, member, same.symm, by simpa using active⟩
    rw [answer] at holds
    exact Bool.noConfusion holds

/-- Where no timer is created without an object, isActiveTimer is true as long as the timer has an
    entry and was not stopped; once it is false no timer that had the handle is selected again, and
    at most the callback of the one that was selected before still starts. -/
theorem answer_tells {s t : State} (handle : Nat) (reached : machine.ReachableBy NonNull s)
    (actions : List Action) (executed : machine.run s actions = some t) :
    AnswerTells handle s t := by
  have table := table_reached reached
  constructor
  · rw [isActiveTimer_iff table]
    constructor
    · rintro ⟨entry, member, own, active⟩
      exact ⟨entry, member, own, (active_iff reached member).mp active⟩
    · rintro ⟨entry, member, own, unstopped⟩
      exact ⟨entry, member, own, (active_iff reached member).mpr unstopped⟩
  · intro answer timer i start created
    exact run_dormant (inactive_dormant table (told_reached reached) answer created) actions executed

def removedBeforeCall : List Action :=
  [.createTimer 7 100 15 0 [⟨7, 100, 15, 15, true, 0⟩] false, .thread .begin,
    .thread (.pass 20 20), .thread .wake, .thread (.examine 35), .removeTimer 7]

def callsOnce : List Action :=
  [.thread (.call 36), .thread (.comeBack 0), .thread .finish, .thread (.pass 40 40),
    .thread .wake, .thread (.examine 60), .thread (.pass 60 60), .thread .wake,
    .thread (.examine 90)]

theorem removed_before_call_tells : ∃ s t, machine.runBy
    (fun s a => decide (NonNull s a)) initial removedBeforeCall = some s ∧
      machine.run s callsOnce = some t ∧ isActiveTimer 7 s = false ∧ AnswerTells 7 s t := by
  obtain ⟨s, executed, shown, reached⟩ := guarded_shows (m := machine) (s := initial) NonNull
    removedBeforeCall rfl
    (fun s : State => !isActiveTimer 7 s && (machine.run s callsOnce).isSome) (by decide +kernel)
  simp only [Bool.and_eq_true, Bool.not_eq_true'] at shown
  obtain ⟨t, ended⟩ := Option.isSome_iff_exists.mp shown.2
  exact ⟨s, t, executed, ended, shown.1, answer_tells 7 reached callsOnce ended⟩

end TimerActivity
