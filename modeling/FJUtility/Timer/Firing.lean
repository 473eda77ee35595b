import FJUtility.Timer.Table

/- When timers are selected and how they stop. One result variable serves all callbacks, and the
   selection, the callback and the section after it lie apart, so each timer's next_time and
   active are followed through all of them. -/
namespace TimerFiring
open LabelledMachine TimerLoop TimerTable

def createsNull : Action → Bool
  | .createTimer _ obj .. => decide (obj = 0)
  | _ => false

def NonNull (_ : State) (a : Action) : Prop := createsNull a = false

instance (s : State) (a : Action) : Decidable (NonNull s a) :=
  inferInstanceAs (Decidable (_ = _))

/-- removeTimer found the handle of the timer, or its own callback returned a negative value. -/
def Stops (timer : Nat) (e : Event) : Prop :=
  e = .removed timer ∨ ∃ result < 0, e = .returned timer result

/-- A selection comes no earlier than an interval after the creation of the timer and after every
    earlier selection of it, and no selection comes after the timer was stopped. -/
structure OrderlyLog (log : List Event) : Prop where
  once : log.Pairwise fun a b => ∀ timer handle i start handle' i' start',
    a = .created timer handle i start → b ≠ .created timer handle' i' start'
  first : ∀ timer i now, .selected timer i now ∈ log →
    ∃ handle start, .created timer handle i start ∈ log ∧ start + i ≤ now
  spaced : log.Pairwise fun a b => ∀ timer i now i' now',
    a = .selected timer i now → b = .selected timer i' now' → now + i ≤ now'
  final : log.Pairwise fun a b => ∀ timer, Stops timer a → ∀ i now, b ≠ .selected timer i now

structure Punctual (s : State) : Prop where
  observed : OrderlyLog s.log
  stopped : ∀ t ∈ s.timers, t.active = false → ∃ e ∈ s.log, Stops t.timer e

structure EntryOk (log : List Event) (t : TimerInfo) : Prop where
  object : t.obj ≠ 0
  positive : 0 ≤ t.intervalMsec
  born : ∃ handle start, .created t.timer handle t.intervalMsec start ∈ log ∧
    start + t.intervalMsec ≤ t.nextTime
  last : ∀ i now, .selected t.timer i now ∈ log → now + i ≤ t.nextTime
  stopped : t.active = false → ∃ e ∈ log, Stops t.timer e

structure ThreadOk (s : State) : Prop where
  object : ∀ of, s.pos = .selected of → of.obj ≠ 0
  result : ∀ of, s.pos = .returned of → .returned of.timer s.result ∈ s.log

def Pending (s : State) (timer : Nat) : Prop :=
  ∃ of, s.pos = .returned of ∧ of.timer = timer ∧ s.result < 0

structure Firing (s : State) : Prop where
  entries : ∀ t ∈ s.timers, EntryOk s.log t
  thread : ThreadOk s
  negative : ∀ t ∈ s.timers, ∀ result < 0, .returned t.timer result ∈ s.log →
    t.active = false ∨ Pending s t.timer
  observed : OrderlyLog s.log

theorem entry_append {log : List Event} {t : TimerInfo} (ok : EntryOk log t) {e : Event}
    (other : ∀ i now, e ≠ .selected t.timer i now) : EntryOk (log ++ [e]) t := by
  obtain ⟨object, positive, ⟨handle, start, created, early⟩, last, stopped⟩ := ok
  refine ⟨object, positive, ⟨handle, start, List.mem_append_left _ created, early⟩,
    fun i now logged => ?_, fun inactive => ?_⟩
  · exact last i now (logged_before logged (Ne.symm (other i now)))
  · obtain ⟨e', old, stops⟩ := stopped inactive
    exact ⟨e', List.mem_append_left _ old, stops⟩

theorem entry_deactivated {log : List Event} {t : TimerInfo} (ok : EntryOk log t) {e : Event}
    (logged : e ∈ log) (stops : Stops t.timer e) : EntryOk log t.deactivate :=
  ⟨ok.object, ok.positive, ok.born, ok.last, fun _ => ⟨e, logged, stops⟩⟩

theorem entry_renewed {log : List Event} {t : TimerInfo} (ok : EntryOk log t) {now : Int}
    (due : t.nextTime ≤ now) :
    EntryOk (log ++ [.selected t.timer t.intervalMsec now]) (t.renew now) := by
  obtain ⟨object, positive, ⟨handle, start, created, early⟩, last, stopped⟩ := ok
  refine ⟨object, positive, ⟨handle, start, List.mem_append_left _ created, ?_⟩,
    fun i now' logged => ?_, fun inactive => ?_⟩
  · simp only [TimerInfo.renew]
    omega
  · simp only [TimerInfo.renew] at logged ⊢
    rcases List.mem_append.mp logged with old | new
    · have := last i now' old
      omega
    · simp only [List.mem_singleton, Event.selected.injEq, true_and] at new
      omega
  · obtain ⟨e', old, stops⟩ := stopped inactive
    exact ⟨e', List.mem_append_left _ old, stops⟩

structure Fits (log : List Event) (e : Event) : Prop where
  created : ∀ timer handle i start, e = .created timer handle i start →
    ∀ handle' i' start', .created timer handle' i' start' ∉ log
  selected : ∀ timer i now, e = .selected timer i now →
    (∃ handle start, .created timer handle i start ∈ log ∧ start + i ≤ now) ∧
      (∀ i' now', .selected timer i' now' ∈ log → now' + i' ≤ now) ∧ ∀ e' ∈ log, ¬ Stops timer e'

theorem fits_other {log : List Event} {e : Event}
    (creates : ∀ timer handle i start, e ≠ .created timer handle i start)
    (selects : ∀ timer i now, e ≠ .selected timer i now) : Fits log e :=
  ⟨fun timer handle i start same => absurd same (creates timer handle i start),
    fun timer i now same => absurd same (selects timer i now)⟩

theorem orderly_append {log : List Event} {e : Event} (orderly : OrderlyLog log)
    (fits : Fits log e) : OrderlyLog (log ++ [e]) := by
  obtain ⟨once, first, spaced, final⟩ := orderly
  refine ⟨?_, fun timer i now logged => ?_, ?_, ?_⟩
  · refine List.pairwise_append.mpr ⟨once, List.pairwise_singleton .., fun a old b new => ?_⟩
    intro timer handle i start handle' i' start' created again
    rw [List.mem_singleton.mp new] at again
    exact fits.created timer handle' i' start' again handle i start (created ▸ old)
  · rcases List.mem_append.mp logged with old | new
    · obtain ⟨handle, start, created, early⟩ := first timer i now old
      exact ⟨handle, start, List.mem_append_left _ created, early⟩
    · obtain ⟨handle, start, created, early⟩ :=
        (fits.selected timer i now (List.mem_singleton.mp new).symm).1
      exact ⟨handle, start, List.mem_append_left _ created, early⟩
  · refine List.pairwise_append.mpr ⟨spaced, List.pairwise_singleton .., fun a old b new => ?_⟩
    intro timer i now i' now' earlier later
    rw [List.mem_singleton.mp new] at later
    exact (fits.selected timer i' now' later).2.1 i now (earlier ▸ old)
  · refine List.pairwise_append.mpr ⟨final, List.pairwise_singleton .., fun a old b new => ?_⟩
    intro timer stops i now selected
    rw [List.mem_singleton.mp new] at selected
    exact (fits.selected timer i now selected).2.2 a old stops

theorem pending_same {s t : State} (choice : SameChoice s t) (result : t.result = s.result)
    {timer : Nat} (pending : Pending s timer) : Pending t timer := by
  obtain ⟨of, here, own, below⟩ := pending
  have pos : t.pos = s.pos := by
    refine (choice.resolve_right fun unchosen => ?_).1
    rw [here] at unchosen
    exact absurd unchosen.1 (by simp [chosen])
  exact ⟨of, pos.trans here, own, result ▸ below⟩

theorem thread_same {s t : State} (choice : SameChoice s t) (result : t.result = s.result)
    (logged : s.log ⊆ t.log) (thread : ThreadOk s) : ThreadOk t := by
  have kept : ∀ of, chosen t.pos = some of → t.pos = s.pos := fun of working =>
    (sameChoice_busy choice working).1
  refine ⟨fun of here => ?_, fun of here => ?_⟩
  · exact thread.object of ((kept of (by rw [here]; rfl)) ▸ here)
  · rw [result]
    exact logged (thread.result of ((kept of (by rw [here]; rfl)) ▸ here))

/-- While the thread has no return to act on, the stopped timers are inactive. -/
theorem negative_inactive {s : State} (firing : Firing s) (busy : ∀ of, s.pos ≠ .returned of)
    {t : TimerInfo} (member : t ∈ s.timers) {result : Int} (below : result < 0)
    (logged : .returned t.timer result ∈ s.log) : t.active = false := by
  apply (firing.negative t member result below logged).resolve_right
  rintro ⟨of, here, _⟩
  exact busy of here

theorem active_unstopped {s : State} (table : TableOk s) (firing : Firing s)
    (busy : ∀ of, s.pos ≠ .returned of) {t : TimerInfo} (member : t ∈ s.timers)
    (active : t.active = true) {e : Event} (logged : e ∈ s.log) : ¬ Stops t.timer e := by
  rintro (rfl | ⟨result, below, rfl⟩)
  · simp [table.removed t member logged] at active
  · simp [negative_inactive firing busy member below logged] at active

theorem created_firing {s t : State} {handle obj : Nat} {i start : Int} (table : TableOk s)
    (firing : Firing s) (object : obj ≠ 0) (positive : 0 ≤ i)
    (added : t.timers.Perm (⟨handle, obj, i, start + i, true, s.made⟩ :: s.timers))
    (result : t.result = s.result) (log : t.log = s.log ++ [.created s.made handle i start])
    (choice : SameChoice s t) : Firing t := by
  have unseen : ∀ e ∈ s.log, timerOf e ≠ s.made := fun e old => Nat.ne_of_lt (table.observed e old)
  refine ⟨fun u member => ?_, ?_, fun u member r below logged => ?_, ?_⟩
  · rw [log]
    rcases List.mem_cons.mp (added.mem_iff.mp member) with rfl | old
    · refine ⟨object, positive, ⟨handle, start, by simp, Int.le_refl _⟩, fun i' now logged => ?_,
        fun inactive => by simp at inactive⟩
      exact absurd rfl (unseen _ (logged_before logged (by simp)))
    · exact entry_append (firing.entries u old) (by simp)
  · exact thread_same choice result (by rw [log]; exact List.subset_append_left _ _) firing.thread
  · rw [log] at logged
    have older := logged_before logged (by simp)
    rcases List.mem_cons.mp (added.mem_iff.mp member) with rfl | old
    · exact absurd rfl (unseen _ older)
    · exact (firing.negative u old r below older).imp id (pending_same choice result)
  · rw [log]
    refine orderly_append firing.observed
      ⟨fun timer _ _ _ same handle' i' start' logged => ?_, by simp⟩
    simp only [Event.created.injEq] at same
    exact unseen _ logged same.1.symm

theorem removed_firing {s : State} {handle : Nat} {timer : TimerInfo} (table : TableOk s)
    (firing : Firing s) (found : find handle s.timers = some timer) :
    Firing { s with
      timers := alter handle TimerInfo.deactivate s.timers
      log := s.log ++ [.removed timer.timer] } := by
  obtain ⟨member, own⟩ := find_some found
  refine ⟨fun u' altered => ?_, ?_, fun u' altered r below logged => ?_, ?_⟩
  · obtain ⟨u, old, ⟨here, rfl⟩ | ⟨_, rfl⟩⟩ := mem_alter altered
    · have same := (same_entry table old member).mp (here.trans own.symm)
      refine entry_deactivated (entry_append (firing.entries u old) (by simp))
        (e := .removed timer.timer) (by simp) (Or.inl ?_)
      rw [same]
    · exact entry_append (firing.entries _ old) (by simp)
  · exact thread_same (s := s) (Or.inl ⟨rfl, rfl⟩) rfl (List.subset_append_left _ _) firing.thread
  · have older := logged_before logged (by simp)
    obtain ⟨u, old, ⟨_, rfl⟩ | ⟨_, rfl⟩⟩ := mem_alter altered
    · exact Or.inl rfl
    · exact firing.negative _ old r below older
  · exact orderly_append firing.observed (fits_other (by simp) (by simp))

theorem selected_firing {s : State} {handle : Nat} {now : Int} {timer : TimerInfo}
    (table : TableOk s) (firing : Firing s) (here : s.pos = .woken)
    (found : find handle s.timers = some timer) (active : timer.active = true)
    (due : timer.nextTime ≤ now) :
    Firing { s with
      running := true
      timers := alter handle (TimerInfo.renew now) s.timers
      pos := .selected ⟨handle, timer.obj, timer.timer⟩
      log := s.log ++ [.selected timer.timer timer.intervalMsec now] } := by
  obtain ⟨member, own⟩ := find_some found
  have busy : ∀ of, s.pos ≠ .returned of := by simp [here]
  have ok := firing.entries timer member
  refine ⟨fun u' altered => ?_, ⟨fun of chosen_ => ?_, by simp⟩,
    fun u' altered r below logged => ?_, ?_⟩
  · obtain ⟨u, old, ⟨same, rfl⟩ | ⟨other, rfl⟩⟩ := mem_alter altered
    · have one := Option.some.inj ((find_of_mem table old same).symm.trans found)
      subst one
      exact entry_renewed ok due
    · apply entry_append (firing.entries _ old)
      intro i now' same
      simp only [Event.selected.injEq] at same
      exact other (((same_entry table member old).mpr same.1).symm.trans own)
  · simp only [ThreadPos.selected.injEq] at chosen_
    exact chosen_ ▸ ok.object
  · have older := logged_before logged (by simp)
    obtain ⟨u, old, ⟨_, rfl⟩ | ⟨_, rfl⟩⟩ := mem_alter altered
    · exact Or.inl (negative_inactive (t := u) firing busy old below older)
    · exact Or.inl (negative_inactive firing busy old below older)
  · refine orderly_append firing.observed ⟨by simp, fun timer' i now' same => ?_⟩
    simp only [Event.selected.injEq] at same
    obtain ⟨rfl, rfl, rfl⟩ := same
    obtain ⟨handle', start, created, early⟩ := ok.born
    exact ⟨⟨handle', start, created, Int.le_trans early due⟩,
      fun i' now'' logged => Int.le_trans (ok.last i' now'' logged) due,
      fun e logged => active_unstopped table firing busy member active logged⟩

theorem finished_firing {s : State} {of : Selection} {it : Option Nat} (table : TableOk s)
    (firing : Firing s) (here : s.pos = .returned of) :
    Firing { s with
      timers := if s.result < 0 then alter of.handle TimerInfo.deactivate s.timers else s.timers
      it
      pos := .passing } := by
  have working : chosen s.pos = some of := by rw [here]; rfl
  obtain ⟨v, member, key, number⟩ := busy_entry table working
  have returned := firing.thread.result of here
  have settled : ∀ u ∈ s.timers, u.handle ≠ of.handle ∨ ¬ s.result < 0 → ∀ r < 0,
      .returned u.timer r ∈ s.log → u.active = false := by
    intro u old apart r below logged
    apply (firing.negative u old r below logged).resolve_right
    rintro ⟨of', here', own, negative⟩
    rw [here, ThreadPos.returned.injEq] at here'
    subst here'
    have same := (same_entry table old member).mpr (own.symm.trans number.symm)
    exact apart.elim (fun other => other (same.trans key)) fun no => no negative
  refine ⟨?_, ⟨by simp, by simp⟩, ?_, firing.observed⟩
  · dsimp only
    split
    · rename_i below
      intro u' altered
      obtain ⟨u, old, ⟨same, rfl⟩ | ⟨_, rfl⟩⟩ := mem_alter altered
      · have one := (same_entry table old member).mp (same.trans key.symm)
        refine entry_deactivated (firing.entries u old) returned (Or.inr ⟨s.result, below, ?_⟩)
        rw [one, number]
      · exact firing.entries _ old
    · exact firing.entries
  · dsimp only
    split
    · intro u' altered r below logged
      obtain ⟨u, old, ⟨_, rfl⟩ | ⟨other, rfl⟩⟩ := mem_alter altered
      · exact Or.inl rfl
      · exact Or.inl (settled _ old (Or.inl other) r below logged)
    · rename_i positive
      exact fun u old r below logged => Or.inl (settled u old (Or.inr positive) r below logged)

theorem step_firing {s t : State} {a : Action} (table : TableOk s) (firing : Firing s)
    (object : NonNull s a) (stepped : Stepped s a t) : Firing t := by
  cases stepped with
  | quiet same =>
    refine ⟨?_, thread_same same.choice same.result (by rw [same.log]; exact List.Subset.refl _)
      firing.thread, ?_, ?_⟩
    · rw [same.timers, same.log]
      exact firing.entries
    · rw [same.timers, same.log]
      exact fun u old r below logged =>
        (firing.negative u old r below logged).imp id (pending_same same.choice same.result)
    · rw [same.log]
      exact firing.observed
  | created long fresh added result made log choice =>
    have positive : 0 ≤ (_ : Int) := Int.le_trans (by decide) long
    exact created_firing table firing (of_decide_eq_false object) positive added result log choice
  | removed found => exact removed_firing table firing found
  | cleared idle timers result made log choice =>
    refine ⟨by simp [timers], thread_same choice result (by rw [log]; exact List.Subset.refl _)
      firing.thread, by simp [timers], ?_⟩
    rw [log]
    exact firing.observed
  | selected here iterator found active due =>
    exact selected_firing table firing here found active due
  | called here object' =>
    refine ⟨fun u old => entry_append (firing.entries u old) (by simp), ⟨by simp, by simp⟩,
      fun u old r below logged => ?_,
      orderly_append firing.observed (fits_other (by simp) (by simp))⟩
    have older := logged_before logged (by simp)
    exact Or.inl (negative_inactive firing (by simp [here]) old below older)
  | spared here null => exact absurd null (firing.thread.object _ here)
  | @cameBack of result here =>
    refine ⟨fun u old => entry_append (firing.entries u old) (by simp), ⟨by simp, fun of' here' => ?_⟩,
      fun u old r below logged => ?_,
      orderly_append firing.observed (fits_other (by simp) (by simp))⟩
    · simp only [ThreadPos.returned.injEq] at here'
      simp [here']
    · rcases List.mem_append.mp logged with older | new
      · exact Or.inl (negative_inactive firing (by simp [here]) old below older)
      · simp only [List.mem_singleton, Event.returned.injEq] at new
        exact Or.inr ⟨of, rfl, new.1.symm, new.2 ▸ below⟩
  | finished here iterator => exact finished_firing table firing here

theorem initial_firing : Firing initial where
  entries t member := by simp [initial] at member
  thread := ⟨by simp [initial], by simp [initial]⟩
  negative t member := by simp [initial] at member
  observed := ⟨.nil, by simp [initial], .nil, .nil⟩

/-- Over every run whose timers have objects, no timer is selected early, and none that was
    removed or has returned a negative value is selected again. -/
theorem timers_punctual {s : State} (reached : machine.ReachableBy NonNull s) : Punctual s := by
  have firing : Firing s := by
    refine invariant_along TableOk Firing (fun _ before => table_reached before) ?_ ?_ reached
    · rintro s rfl
      exact initial_firing
    · exact fun s a t table firing object move => step_firing table firing object (step_stepped move)
  exact ⟨firing.observed, fun t member => (firing.entries t member).stopped⟩

def selectedTwice : List Action :=
  [.createTimer 7 100 15 0 [⟨7, 100, 15, 15, true, 0⟩] false, .thread .begin,
    .createTimer 8 200 30 5 [⟨7, 100, 15, 15, true, 0⟩, ⟨8, 200, 30, 35, true, 1⟩] false,
    .thread (.pass 20 20), .thread .wake, .thread (.examine 35), .thread (.call 36),
    .thread (.comeBack 0), .thread .finish, .thread (.pass 40 40), .thread .wake,
    .thread (.examine 55), .thread (.call 56), .thread (.comeBack (-1)), .thread .finish,
    .thread (.pass 60 60), .thread .wake, .thread (.examine 75), .thread (.pass 75 75),
    .thread .wake, .thread (.examine 90), .thread (.call 90), .thread (.comeBack 0),
    .thread .finish, .thread (.pass 92 92), .thread .wake, .thread (.examine 120)]

theorem selected_twice_punctual : ∃ s, machine.runBy
    (fun s a => decide (NonNull s a)) initial selectedTwice = some s ∧
      s.timers.map TimerInfo.active = [true, false] ∧ Punctual s := by
  obtain ⟨s, executed, shown, reached⟩ := guarded_shows (m := machine) (s := initial) NonNull
    selectedTwice rfl (fun s : State => decide (s.timers.map TimerInfo.active = [true, false]))
    (by decide +kernel)
  exact ⟨s, executed, of_decide_eq_true shown, timers_punctual reached⟩

end TimerFiring
