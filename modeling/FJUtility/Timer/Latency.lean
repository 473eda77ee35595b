import Mathlib.Data.List.Chain
import FJUtility.Timer.Deadline
import FJUtility.Timer.Fairness

/- How late a timer can be. A pass looks at one entry only, and while a timer is due it waits for the
   smallest step; a timer is therefore late by as many passes as there are places in the table. -/
namespace TimerLatency
open LabelledMachine CircularOrder TimerLoop TimerTable TimerFairness

/-- What the thread takes at most: work from its look at one entry, over the callback, to the wait
    for the next one, and late from the end of a wait to the look behind it. -/
structure Pace where
  work : Nat
  late : Nat

def Pace.period (p : Pace) : Int := minTickMsec + p.work + p.late

/-- A stretch of passes with the clock of the thread: the reading when it began, the last reading
    behind a wait, and the deadline of the last wait. -/
structure Timed where
  round : Watched
  began : Int
  clock : Int
  deadline : Int

def Timed.base (s : Timed) : State := s.round.base

def Timed.places (s : Timed) : Nat := (handles s.base).length + 1

def clockOf (s : Timed) : Action → Int
  | .thread (.examine now) => now
  | _ => s.clock

def deadlineOf (s : Timed) (t : State) : Action → Int
  | .thread (.pass _ _) =>
    match t.pos with
    | .waiting deadline => deadline
    | _ => s.deadline
  | _ => s.deadline

def timed : Machine Timed Action where
  init s := stretch.init s.round ∧ machine.Reachable s.base ∧ s.clock = s.began
  step s a := (stretch.step s.round a).map fun round =>
    ⟨round, s.began, clockOf s a, deadlineOf s round.base a⟩

/-- The readings of the thread do not go back, and are no later than the pace allows. -/
def keepsPace (p : Pace) (s : Timed) : Action → Bool
  | .thread (.pass now start) => decide (s.clock ≤ now) && decide (start ≤ s.clock + p.work)
  -- at the end of the table the thread reads no clock, and now is the time when it is there
  | .thread (.examine now) => decide (s.clock ≤ now) && decide (now ≤ s.deadline + p.late)
  | _ => true

def Paced (p : Pace) (s : Timed) (a : Action) : Prop :=
  Undisturbed s.round a ∧ keepsPace p s a = true

instance (p : Pace) (s : Timed) (a : Action) : Decidable (Paced p s a) :=
  inferInstanceAs (Decidable (_ ∧ _))

def selections (handle : Nat) (s : Watched) : List Examination :=
  s.examined.filter fun x => x.ready && decide (x.handle = handle)

/-- No active timer waits for more than one period for each entry after it is due; with the pass
    that selects it the delay is at most one period more, and so is the time from one selection to
    the next. A timer that was due before the stretch began waits from its beginning. -/
structure OnSchedule (p : Pace) (s : Timed) : Prop where
  waiting : ∀ t ∈ s.base.timers, t.active = true →
    s.clock ≤ max s.began t.nextTime + s.base.timers.length * p.period
  selected : ∀ x ∈ s.round.examined, x.ready = true →
    x.now ≤ max s.began x.timer.nextTime + (s.base.timers.length + 1) * p.period
  apart : ∀ handle, (selections handle s.round).IsChain fun x y =>
    x.now + x.timer.intervalMsec ≤ y.now ∧
      y.now ≤ x.now + x.timer.intervalMsec + (s.base.timers.length + 1) * p.period

def waits : ThreadPos → Bool
  | .waiting _ | .woken => true
  | _ => false

def Ends (p : Pace) (s : Timed) (t : TimerInfo) : Prop :=
  s.deadline ≤ s.clock + p.work + minTickMsec ∨ s.deadline ≤ t.nextTime + p.work

structure Scheduled (p : Pace) (first turn : Nat) (s : Timed) : Prop where
  turning : Turning first turn s.round
  long : ∀ t ∈ s.base.timers, minTickMsec ≤ t.intervalMsec
  began : s.began ≤ s.clock
  behind : ∀ i t, s.base.timers[i]? = some t → t.active = true →
    s.clock ≤ max s.began t.nextTime +
      since s.places first (turn + looked s.base.pos) i * p.period
  ends : waits s.base.pos = true → ∀ t ∈ s.base.timers, t.active = true → Ends p s t

structure Recorded (p : Pace) (s : Timed) : Prop where
  long : ∀ x ∈ s.round.examined, minTickMsec ≤ x.timer.intervalMsec
  began : ∀ x ∈ s.round.examined, s.began ≤ x.now
  selected : ∀ x ∈ s.round.examined, x.ready = true →
    x.now ≤ max s.began x.timer.nextTime + s.places * p.period
  rearmed : ∀ t ∈ s.base.timers, ∀ x ∈ (selections t.handle s.round).getLast?,
    t.nextTime = x.now + x.timer.intervalMsec
  apart : ∀ handle, (selections handle s.round).IsChain fun x y =>
    x.now + x.timer.intervalMsec ≤ y.now ∧
      y.now ≤ x.now + x.timer.intervalMsec + s.places * p.period

theorem period_nonneg (p : Pace) : 0 ≤ p.period := by
  simp only [Pace.period, minTickMsec]
  omega

theorem pass_waits (now start : Int) (s : State) :
    ∃ deadline, (pass now start s).pos = .waiting deadline ∧
      ∀ t ∈ s.timers, t.active = true →
        deadline ≤ start + minTickMsec ∨ deadline ≤ start + (t.nextTime - now) := by
  refine ⟨_, rfl, ?_⟩
  intro t member active
  have first : nextExec (now + maxTickMsec) s.timers ≤ t.nextTime :=
    TimerDeadline.nextExec_le member active
  split
  · exact Or.inl (Int.le_refl _)
  · right
    omega

/-- One pass more delays a timer by one period more. -/
theorem overdue_next {p : Pace} {s : Timed} {t : TimerInfo} {now : Int} {k : Nat}
    (ends : Ends p s t) (late : now ≤ s.deadline + p.late)
    (behind : s.clock ≤ max s.began t.nextTime + k * p.period) :
    now ≤ max s.began t.nextTime + (k + 1 : Nat) * p.period := by
  have some_ : 0 ≤ k * p.period := Int.mul_nonneg (Int.natCast_nonneg k) (period_nonneg p)
  have due : t.nextTime ≤ max s.began t.nextTime := Int.le_max_right _ _
  have spent : p.period = minTickMsec + p.work + p.late := rfl
  have tick : 0 ≤ minTickMsec := by decide
  rw [Int.natCast_succ, Int.add_mul, Int.one_mul]
  rcases ends with short | early
  · omega
  · omega

structure Calms (change : TimerInfo → TimerInfo) : Prop where
  handle : ∀ t, (change t).handle = t.handle
  nextTime : ∀ t, (change t).nextTime = t.nextTime
  intervalMsec : ∀ t, (change t).intervalMsec = t.intervalMsec
  active : ∀ t, (change t).active = true → t.active = true

theorem id_calms : Calms id := ⟨fun _ => rfl, fun _ => rfl, fun _ => rfl, fun _ => id⟩

theorem deactivate_calms (handle : Nat) :
    Calms fun t => if t.handle = handle then t.deactivate else t := by
  constructor
  all_goals
    intro t
    split <;> simp [TimerInfo.deactivate]

section Kept
variable {p : Pace} {s t : Timed} {change : TimerInfo → TimerInfo}

theorem places_map (same : ∀ u, (change u).handle = u.handle)
    (timers : t.base.timers = s.base.timers.map change) : t.places = s.places := by
  have keys : TimerInfo.handle ∘ change = TimerInfo.handle := funext same
  simp [Timed.places, handles, timers]

theorem kept_recorded (recorded : Recorded p s) (calms : Calms change)
    (timers : t.base.timers = s.base.timers.map change) (began : t.began = s.began)
    (examined : t.round.examined = s.round.examined) : Recorded p t := by
  have places := places_map calms.handle timers
  have same : ∀ handle, selections handle t.round = selections handle s.round := by
    intro handle
    simp only [selections, examined]
  constructor
  case long => exact examined ▸ recorded.long
  case began => exact began ▸ examined ▸ recorded.began
  case selected => exact began ▸ places ▸ examined ▸ recorded.selected
  case apart =>
    intro handle
    rw [same, places]
    exact recorded.apart handle
  case rearmed =>
    intro u member x last
    rw [timers] at member
    obtain ⟨v, old, rfl⟩ := List.mem_map.mp member
    rw [calms.nextTime]
    rw [calms.handle, same] at last
    exact recorded.rearmed v old x last

theorem kept_scheduled {first turn turn' : Nat} (scheduled : Scheduled p first turn s)
    (calms : Calms change) (turning : Turning first turn' t.round)
    (timers : t.base.timers = s.base.timers.map change) (began : t.began = s.began)
    (clock : t.clock = s.clock) (turns : turn' + looked t.base.pos = turn + looked s.base.pos)
    (ends : waits t.base.pos = true → ∀ u ∈ s.base.timers, u.active = true → Ends p t u) :
    Scheduled p first turn' t := by
  have places := places_map calms.handle timers
  constructor
  case turning => exact turning
  case began => exact began ▸ clock ▸ scheduled.began
  case long =>
    intro u member
    rw [timers] at member
    obtain ⟨v, old, rfl⟩ := List.mem_map.mp member
    rw [calms.intervalMsec]
    exact scheduled.long v old
  case behind =>
    intro i u entry active
    rw [timers, List.getElem?_map] at entry
    obtain ⟨v, old, rfl⟩ := Option.map_eq_some_iff.mp entry
    rw [clock, began, places, turns, calms.nextTime]
    exact scheduled.behind i v old (calms.active v active)
  case ends =>
    intro waiting u member active
    rw [timers] at member
    obtain ⟨v, old, rfl⟩ := List.mem_map.mp member
    have early := ends waiting v old (calms.active v active)
    rwa [Ends, calms.nextTime]

end Kept

section Looks
variable {p : Pace} {s t : Timed}

theorem selections_next {x : Examination} (handle : Nat)
    (examined : t.round.examined = s.round.examined ++ [x]) :
    selections handle t.round = selections handle s.round ++
      if x.ready && decide (x.handle = handle) then [x] else [] := by
  simp only [selections, examined, List.filter_append, List.filter_cons, List.filter_nil]

/-- A timer that is selected again was last selected at least one interval before, and has not
    been due for longer than a round. -/
theorem selected_apart (recorded : Recorded p s) {x y : Examination} (there : x.timer ∈ s.base.timers)
    (ready : x.ready = true) (soon : x.now ≤ max s.began x.timer.nextTime + s.places * p.period)
    (last : y ∈ (selections x.handle s.round).getLast?) :
    y.now + y.timer.intervalMsec ≤ x.now ∧
      x.now ≤ y.now + y.timer.intervalMsec + s.places * p.period := by
  have again : x.timer.nextTime = y.now + y.timer.intervalMsec :=
    recorded.rearmed x.timer there y last
  have member : y ∈ s.round.examined :=
    (List.mem_filter.mp (List.mem_of_mem_getLast? last)).1
  have began := recorded.began y member
  have long := recorded.long y member
  simp only [Examination.ready, Bool.and_eq_true, decide_eq_true_eq] at ready
  rw [again] at soon ready
  simp only [minTickMsec] at long
  omega

theorem looked_recorded (recorded : Recorded p s) {x : Examination}
    (there : x.timer ∈ s.base.timers) (long : minTickMsec ≤ x.timer.intervalMsec)
    (began : s.began ≤ x.now)
    (soon : x.ready = true → x.now ≤ max s.began x.timer.nextTime + s.places * p.period)
    (same : t.began = s.began) (places : t.places = s.places)
    (examined : t.round.examined = s.round.examined ++ [x])
    (timers : ∀ u ∈ t.base.timers, u ∈ s.base.timers ∧ (x.ready = true → x.handle ≠ u.handle) ∨
      x.ready = true ∧ x.handle = u.handle ∧ u.nextTime = x.now + x.timer.intervalMsec) :
    Recorded p t := by
  have each : ∀ {holds : Examination → Prop}, (∀ y ∈ s.round.examined, holds y) → holds x →
      ∀ y ∈ t.round.examined, holds y := by
    intro holds before own y member
    rw [examined] at member
    rcases List.mem_append.mp member with old | new
    · exact before y old
    · exact List.mem_singleton.mp new ▸ own
  constructor
  case long => exact each recorded.long long
  case began => exact same ▸ each recorded.began began
  case selected => exact same ▸ places ▸ each recorded.selected soon
  case rearmed =>
    intro u member y last
    rw [selections_next u.handle examined] at last
    rcases timers u member with ⟨old, other⟩ | ⟨ready, own, again⟩
    · have unseen : (x.ready && decide (x.handle = u.handle)) = false := by
        simpa using other
      rw [unseen] at last
      simp only [Bool.false_eq_true, if_false, List.append_nil] at last
      exact recorded.rearmed u old y last
    · rw [if_pos (by simp [ready, own])] at last
      simp only [List.getLast?_append, List.getLast?_singleton, Option.some_or,
        Option.mem_some_iff] at last
      exact last ▸ again
  case apart =>
    intro handle
    rw [selections_next handle examined, places]
    split
    · rename_i chosen
      simp only [Bool.and_eq_true, decide_eq_true_eq] at chosen
      obtain ⟨ready, rfl⟩ := chosen
      apply (recorded.apart x.handle).append (List.isChain_singleton x)
      intro y last z only
      simp only [List.head?_cons, Option.mem_some_iff] at only
      subst only
      exact selected_apart recorded there ready (soon ready) last
    · rw [List.append_nil]
      exact recorded.apart handle

theorem looked_behind {first turn i : Nat} {u : TimerInfo} {now : Int}
    (scheduled : Scheduled p first turn s) (here : s.base.pos = .woken)
    (late : now ≤ s.deadline + p.late) (entry : s.base.timers[i]? = some u)
    (active : u.active = true) :
    now ≤ max s.began u.nextTime + (since s.places first turn i + 1 : Nat) * p.period := by
  have member := List.mem_of_getElem? entry
  have ends := scheduled.ends (by simp [here, waits]) u member active
  have behind := scheduled.behind i u entry active
  simp only [here, looked, chosen, Option.toList_none, List.length_nil, Nat.add_zero] at behind
  exact overdue_next ends late behind

theorem entry_within {i : Nat} {u : TimerInfo} (entry : s.base.timers[i]? = some u) :
    i + 1 < s.places := by
  obtain ⟨within, _⟩ := List.getElem?_eq_some_iff.mp entry
  simpa [Timed.places, handles] using within

theorem looked_scheduled {first turn turn' : Nat} {now : Int}
    (scheduled : Scheduled p first turn s) (here : s.base.pos = .woken) (goes : s.clock ≤ now)
    (late : now ≤ s.deadline + p.late) (turning : Turning first turn' t.round)
    (turns : turn' + looked t.base.pos = turn + 1) (busy : waits t.base.pos = false)
    (began : t.began = s.began) (clock : t.clock = now) (places : t.places = s.places)
    (long : ∀ u ∈ t.base.timers, minTickMsec ≤ u.intervalMsec)
    (entries : ∀ i u, t.base.timers[i]? = some u → u.active = true → now ≤ u.nextTime ∨
      s.base.timers[i]? = some u ∧ position s.places first turn ≠ i) :
    Scheduled p first turn' t := by
  constructor
  case turning => exact turning
  case long => exact long
  case began =>
    rw [began, clock]
    exact Int.le_trans scheduled.began goes
  case behind =>
    intro i u entry active
    rw [clock, began, places, turns]
    rcases entries i u entry active with early | ⟨old, other⟩
    · have some_ := Int.mul_nonneg (Int.natCast_nonneg (since s.places first (turn + 1) i))
        (period_nonneg p)
      omega
    · rw [since_next (Nat.lt_of_succ_lt (entry_within old)), if_neg other]
      exact looked_behind scheduled here late old active
  case ends => simp [busy]

theorem at_place {first turn i handle : Nat} {v : TimerInfo} (turning : Turning first turn s.round)
    (iterator : s.base.it = some handle) (entry : s.base.timers[i]? = some v) :
    position s.places first turn = i ↔ v.handle = handle := by
  have named : (handles s.base)[i]? = some v.handle := by simp [handles, entry]
  have place : (handles s.base)[position s.places first turn]? = some handle :=
    turning.place.symm.trans iterator
  constructor
  · rintro rfl
    exact Option.some.inj (named.symm.trans place)
  · rintro rfl
    obtain ⟨within, _⟩ := List.getElem?_eq_some_iff.mp place
    exact (List.getElem?_inj within turning.distinct).mp (place.trans named.symm)

theorem found_entry {first turn handle : Nat} {timer v : TimerInfo}
    (turning : Turning first turn s.round) (found : find handle s.base.timers = some timer)
    (member : v ∈ s.base.timers) (own : v.handle = handle) : v = timer := by
  obtain ⟨there, same⟩ := find_some found
  exact List.inj_on_of_nodup_map turning.distinct member there (own.trans same.symm)

theorem restarted_scheduled {first turn turn' : Nat} {now : Int}
    (scheduled : Scheduled p first turn s) (recorded : Recorded p s) (here : s.base.pos = .woken)
    (goes : s.clock ≤ now) (late : now ≤ s.deadline + p.late) (ends : s.base.it = none)
    (turning : Turning first turn' t.round) (turns : turn' + looked t.base.pos = turn + 1)
    (loop : t.base.pos = .passing) (timers : t.base.timers = s.base.timers)
    (began : t.began = s.began) (clock : t.clock = now)
    (examined : t.round.examined = s.round.examined) :
    Scheduled p first turn' t ∧ Recorded p t := by
  have unchanged : t.base.timers = s.base.timers.map id := timers.trans (List.map_id _).symm
  constructor
  · apply looked_scheduled scheduled here goes late turning turns (by simp [loop, waits]) began clock
    · exact places_map id_calms.handle unchanged
    · exact timers ▸ scheduled.long
    · intro i u entry _
      rw [timers] at entry
      refine Or.inr ⟨entry, ?_⟩
      rintro rfl
      have behind : (handles s.base)[position s.places first turn]? = none :=
        scheduled.turning.place.symm.trans ends
      rw [handles, List.getElem?_map, entry] at behind
      simp at behind
  · exact kept_recorded recorded id_calms unchanged began examined

theorem skipped_scheduled {first turn turn' handle : Nat} {now : Int} {timer : TimerInfo}
    (scheduled : Scheduled p first turn s) (recorded : Recorded p s) (here : s.base.pos = .woken)
    (goes : s.clock ≤ now) (late : now ≤ s.deadline + p.late)
    (iterator : s.base.it = some handle) (found : find handle s.base.timers = some timer)
    (idle : Examination.ready ⟨timer, now⟩ = false)
    (turning : Turning first turn' t.round) (turns : turn' + looked t.base.pos = turn + 1)
    (loop : t.base.pos = .passing) (timers : t.base.timers = s.base.timers)
    (began : t.began = s.began) (clock : t.clock = now)
    (examined : t.round.examined = s.round.examined ++ [⟨timer, now⟩]) :
    Scheduled p first turn' t ∧ Recorded p t := by
  have unchanged : t.base.timers = s.base.timers.map id := timers.trans (List.map_id _).symm
  have places := places_map id_calms.handle unchanged
  have there := (find_some found).1
  constructor
  · apply looked_scheduled scheduled here goes late turning turns (by simp [loop, waits]) began clock
      places
    · exact timers ▸ scheduled.long
    · intro i u entry active
      rw [timers] at entry
      by_cases own : u.handle = handle
      · left
        have same := found_entry scheduled.turning found (List.mem_of_getElem? entry) own
        subst same
        simp only [Examination.ready, active, Bool.true_and, decide_eq_false_iff_not] at idle
        omega
      · exact Or.inr ⟨entry, fun place => own ((at_place scheduled.turning iterator entry).mp place)⟩
  · apply looked_recorded recorded there (scheduled.long timer there)
      (Int.le_trans scheduled.began goes) _ began places examined
    · intro u member
      exact Or.inl ⟨timers ▸ member, fun ready => absurd ready (by simp [idle])⟩
    · exact fun ready => absurd ready (by simp [idle])

theorem selected_scheduled {first turn turn' handle : Nat} {now : Int} {timer : TimerInfo}
    {of : Selection} (scheduled : Scheduled p first turn s) (recorded : Recorded p s)
    (here : s.base.pos = .woken) (goes : s.clock ≤ now) (late : now ≤ s.deadline + p.late)
    (iterator : s.base.it = some handle) (found : find handle s.base.timers = some timer)
    (ready : Examination.ready ⟨timer, now⟩ = true)
    (turning : Turning first turn' t.round) (turns : turn' + looked t.base.pos = turn + 1)
    (busy : t.base.pos = .selected of)
    (timers : t.base.timers = alter handle (TimerInfo.renew now) s.base.timers)
    (began : t.began = s.began) (clock : t.clock = now)
    (examined : t.round.examined = s.round.examined ++ [⟨timer, now⟩]) :
    Scheduled p first turn' t ∧ Recorded p t := by
  have places : t.places = s.places := by
    have keys : (alter handle (TimerInfo.renew now) s.base.timers).map TimerInfo.handle =
        handles s.base := handles_alter (renew_keeps now) _
    rw [← timers] at keys
    simpa [Timed.places, handles] using congrArg List.length keys
  obtain ⟨there, own⟩ := find_some found
  have long := scheduled.long timer there
  constructor
  · apply looked_scheduled scheduled here goes late turning turns (by simp [busy, waits]) began clock
      places
    · intro u member
      rw [timers] at member
      obtain ⟨v, old, ⟨_, rfl⟩ | ⟨_, rfl⟩⟩ := mem_alter member
      · exact scheduled.long v old
      · exact scheduled.long u old
    · intro i u entry active
      rw [timers, alter, List.getElem?_map] at entry
      obtain ⟨v, old, same⟩ := Option.map_eq_some_iff.mp entry
      split at same
      · left
        have interval := scheduled.long v (List.mem_of_getElem? old)
        simp only [minTickMsec] at interval
        subst same
        simp only [TimerInfo.renew]
        omega
      · rename_i other
        subst same
        exact Or.inr ⟨old, fun place => other ((at_place scheduled.turning iterator old).mp place)⟩
  · apply looked_recorded recorded there long (Int.le_trans scheduled.began goes) _ began places
      examined
    · intro u member
      rw [timers] at member
      obtain ⟨v, old, ⟨mine, rfl⟩ | ⟨other, rfl⟩⟩ := mem_alter member
      · have same := found_entry scheduled.turning found old mine
        subst same
        exact Or.inr ⟨ready, rfl, rfl⟩
      · exact Or.inl ⟨old, fun _ same => other (same.symm.trans own)⟩
    · intro _
      obtain ⟨i, entry⟩ := List.mem_iff_getElem?.mp there
      have active : timer.active = true := by
        simp only [Examination.ready, Bool.and_eq_true] at ready
        exact ready.1
      have soon := looked_behind scheduled here late entry active
      have round : since s.places first turn i + 1 ≤ s.places :=
        since_lt first turn (Nat.lt_of_succ_lt (entry_within entry))
      have more := Int.mul_le_mul_of_nonneg_right (Int.ofNat_le.mpr round) (period_nonneg p)
      exact Int.le_trans soon (Int.add_le_add_left more _)

end Looks

section Steps
variable {p : Pace} {first turn turn' : Nat} {s : Timed} {u : State}

def after (s : Timed) (u : State) (a : Action) : Timed :=
  ⟨observe s.round u a, s.began, clockOf s a, deadlineOf s u a⟩

theorem turn_next {a : Action} (turning : Turning first turn s.round)
    (later : Turning first turn' (after s u a).round) :
    turn' + inPass u.pos = turn + inPass s.base.pos + passBegins a := by
  have counted : s.round.passes + passBegins a = turn' + inPass u.pos := later.passes
  rw [← counted, turning.passes]
  rfl

theorem examined_step {now : Int} (scheduled : Scheduled p first turn s) (recorded : Recorded p s)
    (here : s.base.pos = .woken) (goes : s.base.stop = false)
    (examined : examine now s.base = some u)
    (keeps : s.clock ≤ now ∧ now ≤ s.deadline + p.late)
    (later : Turning first turn' (after s u (.thread (.examine now))).round) :
    Scheduled p first turn' (after s u (.thread (.examine now))) ∧
      Recorded p (after s u (.thread (.examine now))) := by
  have turns := turn_next scheduled.turning later
  simp only [here, inPass, passBegins, Nat.add_zero] at turns
  unfold examine at examined
  rw [if_neg (by simp [goes])] at examined
  split at examined
  · rename_i ends
    obtain rfl := Option.some.inj examined
    apply restarted_scheduled scheduled recorded here keeps.1 keeps.2 ends later turns rfl rfl rfl rfl
    have nothing : examines s.round.base (.thread (.examine now)) = [] := by
      have none_ : s.round.base.it = none := ends
      simp [examines, none_]
    simp [after, observe, nothing]
  · rename_i handle iterator
    obtain ⟨timer, found, moved⟩ := Option.map_eq_some_iff.mp examined
    have entry : examines s.round.base (.thread (.examine now)) = [⟨timer, now⟩] :=
      examines_entry goes iterator found
    have seen : (after s u (.thread (.examine now))).round.examined =
        s.round.examined ++ [⟨timer, now⟩] := by simp [after, observe, entry]
    split at moved
    · rename_i idle
      subst moved
      apply skipped_scheduled scheduled recorded here keeps.1 keeps.2 iterator found _ later turns
        rfl rfl rfl rfl seen
      simpa [Examination.ready, imp_iff_not_or] using idle
    · rename_i busy
      subst moved
      apply selected_scheduled scheduled recorded here keeps.1 keeps.2 iterator found _ later turns
        rfl rfl rfl rfl seen
      simpa [Examination.ready] using busy

theorem kept_step {change : TimerInfo → TimerInfo} {a : Action}
    (scheduled : Scheduled p first turn s) (recorded : Recorded p s)
    (later : Turning first turn' (after s u a).round) (calms : Calms change)
    (timers : u.timers = s.base.timers.map change) (clock : clockOf s a = s.clock)
    (unseen : examines s.base a = []) (turns : turn' + looked u.pos = turn + looked s.base.pos)
    (ends : waits u.pos = true → ∀ v ∈ s.base.timers, v.active = true → Ends p (after s u a) v) :
    Scheduled p first turn' (after s u a) ∧ Recorded p (after s u a) := by
  have examined : (after s u a).round.examined = s.round.examined := by
    have nothing : examines s.round.base a = [] := unseen
    simp [after, observe, nothing]
  constructor
  · exact kept_scheduled scheduled calms later timers rfl clock turns ends
  · exact kept_recorded recorded calms timers rfl examined

theorem calls_calm {s t : State} {a : Action} (undisturbed : disturbs s a = false)
    (called : Called s a t) : ∃ change, Calms change ∧ t.timers = s.timers.map change := by
  cases called with
  | nudged nudged => exact ⟨id, id_calms, nudged.timers.trans (List.map_id _).symm⟩
  | entered long absent _ _ _ => simp [disturbs, long, absent] at undisturbed
  | removed found => exact ⟨_, deactivate_calms _, rfl⟩
  | cleared idle clears =>
    have empty : s.timers = [] := by
      rcases clears with ⟨rfl, _⟩ | ⟨rfl, clearing, _⟩
      · simpa [disturbs, idle] using undisturbed
      · simpa [disturbs, idle, clearing] using undisturbed
    exact ⟨id, id_calms, by simp [empty]⟩

theorem pass_step {now start : Int} (scheduled : Scheduled p first turn s)
    (recorded : Recorded p s) (here : s.base.pos = .passing)
    (keeps : s.clock ≤ now ∧ start ≤ s.clock + p.work)
    (later : Turning first turn'
      (after s (pass now start s.base) (.thread (.pass now start))).round) :
    Scheduled p first turn' (after s (pass now start s.base) (.thread (.pass now start))) ∧
      Recorded p (after s (pass now start s.base) (.thread (.pass now start))) := by
  have turns := turn_next scheduled.turning later
  apply kept_step scheduled recorded later id_calms (List.map_id _).symm rfl rfl
  · simpa [here, TimerLoop.pass, inPass, passBegins, looked, chosen] using turns
  · intro _ v member active
    obtain ⟨deadline, waiting, bound⟩ := pass_waits now start s.base
    have set : (after s (pass now start s.base) (.thread (.pass now start))).deadline =
        deadline := by simp [after, deadlineOf, waiting]
    have same : (after s (pass now start s.base) (.thread (.pass now start))).clock = s.clock := rfl
    rw [Ends, set, same]
    rcases bound v member active with short | early
    · exact Or.inl (by omega)
    · exact Or.inr (by omega)

theorem thread_step {act : ThreadAct} (scheduled : Scheduled p first turn s)
    (recorded : Recorded p s) (goes : s.base.stop = false)
    (keeps : keepsPace p s (.thread act) = true) (stepped : step s.base (.thread act) = some u)
    (later : Turning first turn' (after s u (.thread act)).round) :
    Scheduled p first turn' (after s u (.thread act)) ∧ Recorded p (after s u (.thread act)) := by
  have turns := turn_next scheduled.turning later
  have looks : ∀ now, s.base.pos = .woken →
      step s.base (.thread (.examine now)) = some u → examine now s.base = some u := by
    intro now here examined
    simpa only [step, here, threadStep] using examined
  simp only [keepsPace] at keeps
  cases thread_threaded stepped with
  | began here => exact absurd here scheduled.turning.begun
  | passed here =>
    exact pass_step scheduled recorded here (by simpa using keeps) later
  | stopped here | restarted here | skipped here | selected here =>
    exact examined_step scheduled recorded here goes (looks _ here stepped) (by simpa using keeps)
      later
  | woken here =>
    apply kept_step scheduled recorded later id_calms (List.map_id _).symm rfl rfl
    · simpa [here, inPass, passBegins, looked, chosen] using turns
    · exact fun _ => scheduled.ends (by simp [here, waits])
  | spared here null | called here object | cameBack here =>
    apply kept_step scheduled recorded later id_calms (List.map_id _).symm rfl rfl
    · simpa [here, inPass, passBegins, looked, chosen] using turns
    · simp [waits]
  | @finished of handle here iterator =>
    have calm : ∃ change, Calms change ∧
        (if s.base.result < 0 then alter of.handle TimerInfo.deactivate s.base.timers
          else s.base.timers) = s.base.timers.map change := by
      split
      · exact ⟨_, deactivate_calms of.handle, rfl⟩
      · exact ⟨id, id_calms, (List.map_id _).symm⟩
    obtain ⟨change, calms, timers⟩ := calm
    apply kept_step scheduled recorded later calms timers rfl rfl
    · simpa [here, inPass, passBegins, looked, chosen] using turns
    · simp [waits]

theorem call_step {a : Action} (scheduled : Scheduled p first turn s) (recorded : Recorded p s)
    (other : ∀ act, a ≠ .thread act) (undisturbed : disturbs s.base a = false)
    (called : Called s.base a u) (later : Turning first turn' (after s u a).round) :
    Scheduled p first turn' (after s u a) ∧ Recorded p (after s u a) := by
  have turns := turn_next scheduled.turning later
  have outside : clockOf s a = s.clock ∧ deadlineOf s u a = s.deadline ∧ examines s.base a = [] ∧
      passBegins a = 0 := by
    cases a with
    | thread act => exact absurd rfl (other act)
    | _ => exact ⟨rfl, rfl, rfl, rfl⟩
  obtain ⟨clock, deadline, unseen, passes⟩ := outside
  obtain ⟨change, calms, timers⟩ := calls_calm undisturbed called
  have rests := called_rests undisturbed called
  rw [passes, Nat.add_zero] at turns
  have same : turn' + looked u.pos = turn + looked s.base.pos ∧
      (waits u.pos = true → waits s.base.pos = true) := by
    rcases rests.pos with same | ⟨_, waiting, woken⟩
    · rw [same] at turns ⊢
      exact ⟨by omega, id⟩
    · rw [woken, waiting] at turns ⊢
      exact ⟨by simpa [inPass, looked, chosen] using turns, fun _ => rfl⟩
  apply kept_step scheduled recorded later calms timers clock unseen same.1
  intro waiting v member active
  have ends := scheduled.ends (same.2 waiting) v member active
  simpa only [Ends, after, clock, deadline] using ends

theorem step_scheduled {t : Timed} {a : Action} (scheduled : Scheduled p first turn s)
    (recorded : Recorded p s) (paced : Paced p s a) (stepped : timed.step s a = some t) :
    ∃ turn', Scheduled p first turn' t ∧ Recorded p t := by
  obtain ⟨undisturbed, keeps⟩ := paced
  obtain ⟨round, moved, rfl⟩ := Option.map_eq_some_iff.mp stepped
  obtain ⟨turn', later⟩ := step_turning scheduled.turning undisturbed moved
  obtain ⟨u, run, rfl⟩ := Option.map_eq_some_iff.mp moved
  refine ⟨turn', ?_⟩
  cases a with
  | thread act => exact thread_step scheduled recorded undisturbed.1 keeps run later
  | _ =>
    exact call_step scheduled recorded (by simp) undisturbed.2 (step_called (by simp) run) later

end Steps

theorem long_reached {s : State} (reached : machine.Reachable s) :
    ∀ t ∈ s.timers, minTickMsec ≤ t.intervalMsec := by
  apply invariant_of_steps (fun s => ∀ t ∈ s.timers, minTickMsec ≤ t.intervalMsec) _ _ reached
  · rintro s rfl t member
    simp [initial] at member
  · intro s a t before _ stepped u member
    cases step_stepped stepped with
    | quiet same => exact before u (same.timers ▸ member)
    | created long fresh added =>
      rcases List.mem_cons.mp (added.mem_iff.mp member) with rfl | old
      · exact long
      · exact before u old
    | removed found =>
      obtain ⟨v, old, ⟨_, rfl⟩ | ⟨_, rfl⟩⟩ := mem_alter member
      · exact before v old
      · exact before u old
    | cleared idle timers => simp [timers] at member
    | selected here iterator found =>
      obtain ⟨v, old, ⟨_, rfl⟩ | ⟨_, rfl⟩⟩ := mem_alter member
      · exact before v old
      · exact before u old
    | called | spared | cameBack => exact before u member
    | finished =>
      dsimp only at member
      split at member
      · obtain ⟨v, old, ⟨_, rfl⟩ | ⟨_, rfl⟩⟩ := mem_alter member
        · exact before v old
        · exact before u old
      · exact before u member

theorem scheduled_reached {p : Pace} {s : Timed} (reached : timed.ReachableBy (Paced p) s) :
    ∃ first turn, Scheduled p first turn s ∧ Recorded p s := by
  apply invariant_of_steps (fun s => ∃ first turn, Scheduled p first turn s ∧ Recorded p s) _ _ reached
  · rintro ⟨round, began, clock, deadline⟩ ⟨⟨start, begins, rfl⟩, before, same⟩
    dsimp only at same
    subst same
    obtain ⟨first, turning⟩ := begins_turning begins
    refine ⟨first, 0, ⟨turning, long_reached before, Int.le_refl _, ?_, ?_⟩, ?_⟩
    · intro i t _ _
      have some_ := Int.mul_nonneg (Int.natCast_nonneg
        (since (Timed.places ⟨⟨start, 0, [], [], handles start⟩, clock, clock, deadline⟩) first
          (0 + looked start.pos) i)) (period_nonneg p)
      have first_ := Int.le_max_left clock t.nextTime
      dsimp only [Timed.base]
      omega
    · have loop : start.pos = .passing := begins.loop
      simp [Timed.base, loop, waits]
    · constructor <;> simp [selections]
  · rintro s a t ⟨first, turn, scheduled, recorded⟩ paced stepped
    obtain ⟨turn', later⟩ := step_scheduled scheduled recorded paced stepped
    exact ⟨first, turn', later⟩

def firstLeft : State :=
  { initial with
    timers := [⟨7, 100, 15, 15, true, 0⟩, ⟨8, 101, 15, 15, true, 1⟩]
    baseIntervalMsec := 3
    it := some 8
    pos := .passing
    made := 2
    log := [.created 0 7 15 0, .created 1 8 15 0] }

def setUp : List Action :=
  [.createTimer 7 100 15 0 [⟨7, 100, 15, 15, true, 0⟩] false,
    .createTimer 8 101 15 0 [⟨7, 100, 15, 15, true, 0⟩, ⟨8, 101, 15, 15, true, 1⟩] false,
    .thread .begin, .thread (.pass 0 0), .thread .wake, .thread (.examine 14)]

def wholeRound : List Action :=
  [.thread (.pass 15 15), .thread .wake, .thread (.examine 30), .thread (.call 30),
    .thread (.comeBack 0), .thread .finish, .thread (.pass 30 30), .thread .wake,
    .thread (.examine 45), .thread (.pass 45 45), .thread .wake, .thread (.examine 60)]

end TimerLatency
