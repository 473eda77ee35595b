import FJUtility.Library.CircularOrder
import FJUtility.Timer.Table

/- The rounds of the timer thread over its table. A pass moves the iterator by one place, in one of
   three sections, and the end is a place of its own. -/
namespace TimerFairness
open LabelledMachine CircularOrder TimerLoop TimerTable

structure Examination where
  timer : TimerInfo
  now : Int
  deriving DecidableEq, Repr

def Examination.handle (x : Examination) : Nat := x.timer.handle

def Examination.ready (x : Examination) : Bool :=
  x.timer.active && decide (x.timer.nextTime ≤ x.now)

/-- A stretch of passes with its observers: the passes that have begun, the entries examined, the
    timers whose callback was run, and those that were active and due until they were examined. -/
structure Watched where
  base : State
  passes : Nat
  examined : List Examination
  ran : List Nat
  steady : List Nat

def handles (s : State) : List Nat := s.timers.map TimerInfo.handle

def passBegins : Action → Nat
  | .thread (.pass _ _) => 1
  | _ => 0

def examines (s : State) : Action → List Examination
  | .thread (.examine now) =>
    if s.stop then []
    else (s.it.bind fun handle => find handle s.timers).toList.map fun timer => ⟨timer, now⟩
  | _ => []

def runs (t : State) : Action → List Nat
  | .thread (.call _) =>
    match t.pos with
    | .inCallback of => [of.handle]
    | _ => []
  | _ => []

def readings : Action → List Int
  | .thread (.pass now start) => [now, start]
  | .thread (.examine now) | .thread (.call now) => [now]
  | _ => []

def stays (s : State) (a : Action) (handle : Nat) : Bool :=
  (find handle s.timers).any fun t =>
    t.active && (readings a).all fun now => decide (t.nextTime ≤ now)

def observe (s : Watched) (t : State) (a : Action) : Watched where
  base := t
  passes := s.passes + passBegins a
  examined := s.examined ++ examines s.base a
  ran := s.ran ++ runs t a
  steady := s.steady.filter fun handle =>
    decide (handle ∈ s.examined.map Examination.handle) || stays s.base a handle

structure Begins (s : State) : Prop where
  loop : s.pos = .passing
  distinct : (handles s).Nodup
  valid : ∀ handle, s.it = some handle → s.invalid = false ∧ handle ∈ handles s

def stretch : Machine Watched Action where
  init s := ∃ start, Begins start ∧ s = ⟨start, 0, [], [], handles start⟩
  step s a := (machine.step s.base a).map fun t => observe s t a

def disturbs (s : State) : Action → Bool
  | .createTimer handle _ intervalMsec _ _ _ =>
    decide (minTickMsec ≤ intervalMsec) && (find handle s.timers).isNone
  | .removeAll => !s.running && !s.timers.isEmpty
  | .destroy => decide (s.destroying = .clearing) && !s.running && !s.timers.isEmpty
  | _ => false

def Undisturbed (s : Watched) (a : Action) : Prop := s.base.stop = false ∧ disturbs s.base a = false

instance (s : Watched) (a : Action) : Decidable (Undisturbed s a) :=
  inferInstanceAs (Decidable (_ ∧ _))

/-- As many passes as there are entries, and one more, and the last of them is over. -/
def Complete (s : Watched) : Prop :=
  s.passes = (handles s.base).length + 1 ∧ s.base.pos = .passing

/-- Each entry was examined once, and the callbacks run are those of the timers that may be called
    and were active and due when they were examined. -/
structure Fair (callable : TimerInfo → Bool) (s : Watched) : Prop where
  distinct : (handles s.base).Nodup
  examined : (s.examined.map Examination.handle).Perm (handles s.base)
  ran : s.ran = (s.examined.filter fun x => callable x.timer && x.ready).map Examination.handle
  steady : ∀ x ∈ s.examined, x.handle ∈ s.steady → callable x.timer = true →
    s.ran.count x.handle = 1

def hasObject (t : TimerInfo) : Bool := decide (t.obj ≠ 0)

def nullTimer : State :=
  { initial with
    timers := [⟨7, 0, 15, 15, true, 0⟩]
    baseIntervalMsec := 3
    it := some 7
    pos := .passing
    made := 1
    log := [.created 0 7 15 0] }

def nullRound : List Action :=
  [.thread (.pass 20 20), .thread .wake, .thread (.examine 35), .thread (.call 35),
    .thread .finish, .thread (.pass 36 36), .thread .wake, .thread (.examine 51)]

example : machine.run initial [.createTimer 7 0 15 0 [⟨7, 0, 15, 15, true, 0⟩] false,
    .thread .begin] = some nullTimer := rfl

theorem null_timer_not_called : ¬ ∀ s, stretch.ReachableBy Undisturbed s → Complete s →
    Fair (fun _ => true) s := by
  intro always
  have first : stretch.init ⟨nullTimer, 0, [], [], [7]⟩ :=
    ⟨nullTimer, ⟨rfl, by decide, fun handle iterator => ⟨rfl, by
      simp only [nullTimer, Option.some.injEq] at iterator
      simp [handles, nullTimer, iterator]⟩⟩, rfl⟩
  obtain ⟨s, _, shown, reached⟩ := guarded_shows (m := stretch) Undisturbed nullRound first
    (fun s : Watched => decide (s.passes = 2) && decide (s.base.pos = .passing) &&
      decide (handles s.base = [7]) && decide (s.examined = [⟨⟨7, 0, 15, 15, true, 0⟩, 35⟩]) &&
      decide (s.ran = [])) (by decide +kernel)
  simp only [Bool.and_eq_true, decide_eq_true_eq] at shown
  obtain ⟨⟨⟨⟨passes, loop⟩, table⟩, examined⟩, ran⟩ := shown
  have fair := always s reached ⟨by rw [passes, table]; rfl, loop⟩
  have called := fair.ran
  rw [examined, ran] at called
  exact absurd called (by decide)

def inPass : ThreadPos → Nat
  | .passing => 0
  | _ => 1

def looked (pos : ThreadPos) : Nat := (chosen pos).toList.length

def pending : ThreadPos → List Nat
  | .selected of => if of.obj = 0 then [] else [of.handle]
  | _ => []

def fires (x : Examination) : Bool := hasObject x.timer && x.ready

structure Turning (first turn : Nat) (s : Watched) : Prop where
  begun : s.base.pos ≠ .starting
  distinct : (handles s.base).Nodup
  passes : s.passes = turn + inPass s.base.pos
  place : s.base.it = (handles s.base)[position ((handles s.base).length + 1) first turn]?
  examined : s.examined.map Examination.handle =
    tour (handles s.base) first (turn + looked s.base.pos)
  ran : s.ran ++ pending s.base.pos = (s.examined.filter fires).map Examination.handle

theorem handles_alter {handle : Nat} {change : TimerInfo → TimerInfo} (keeps : Keeps change)
    (timers : List TimerInfo) :
    (alter handle change timers).map TimerInfo.handle = timers.map TimerInfo.handle := by
  have keys : ((alter handle change timers).map keyOf).map Prod.fst =
      (timers.map keyOf).map Prod.fst := by rw [alter_keys keeps]
  simpa only [List.map_map, Function.comp_def, keyOf] using keys

theorem beginOf_handles (s : State) : beginOf s.timers = (handles s)[0]? := by
  simp [beginOf, handles, List.head?_eq_getElem?]

theorem nextOf_handles {timers : List TimerInfo} (distinct : (timers.map TimerInfo.handle).Nodup)
    {i handle : Nat} (here : (timers.map TimerInfo.handle)[i]? = some handle) :
    nextOf handle timers = (timers.map TimerInfo.handle)[i + 1]? := by
  induction timers generalizing i with
  | nil => simp at here
  | cons t rest ih =>
    obtain ⟨absent, distinct⟩ := List.nodup_cons.mp distinct
    cases i with
    | zero =>
      have own : t.handle = handle := by simpa using here
      simp [nextOf, own, beginOf, List.head?_eq_getElem?]
    | succ i =>
      have there : (rest.map TimerInfo.handle)[i]? = some handle := here
      have other : t.handle ≠ handle := by
        rintro rfl
        exact absent (List.mem_of_getElem? there)
      simp only [nextOf, if_neg other]
      exact ih distinct there

structure Rests (s t : State) : Prop where
  keys : handles t = handles s
  it : t.it = s.it
  pos : t.pos = s.pos ∨ ∃ deadline, s.pos = .waiting deadline ∧ t.pos = .woken

theorem nudged_rests {s t : State} (nudged : Nudged s t) : Rests s t where
  keys := by simp only [handles, nudged.timers]
  it := nudged.it
  pos := nudged.pos

theorem called_rests {s t : State} {a : Action} (undisturbed : disturbs s a = false)
    (called : Called s a t) : Rests s t := by
  cases called with
  | nudged nudged => exact nudged_rests nudged
  | entered long absent _ _ _ => simp [disturbs, long, absent] at undisturbed
  | removed found => exact ⟨handles_alter deactivate_keeps _, rfl, Or.inl rfl⟩
  | cleared idle clears =>
    have empty : s.timers = [] := by
      rcases clears with ⟨rfl, _⟩ | ⟨rfl, clearing, _⟩
      · simpa [disturbs, idle] using undisturbed
      · simpa [disturbs, idle, clearing] using undisturbed
    exact ⟨by simp [handles, empty], rfl, Or.inl rfl⟩

theorem turning_stays {first turn : Nat} {s : Watched} {t : State} {a : Action}
    (turning : Turning first turn s) (keys : handles t = handles s.base) (it : t.it = s.base.it)
    (begun : t.pos ≠ .starting) (passes : inPass s.base.pos + passBegins a = inPass t.pos)
    (look : looked t.pos = looked s.base.pos) (unseen : examines s.base a = [])
    (ran : runs t a ++ pending t.pos = pending s.base.pos) :
    Turning first turn (observe s t a) where
  begun
  distinct := by
    rw [observe, keys]
    exact turning.distinct
  passes := by
    rw [observe, turning.passes, Nat.add_assoc, passes]
  place := by
    rw [observe, keys, it]
    exact turning.place
  examined := by
    simp only [observe, unseen, List.append_nil, keys, look]
    exact turning.examined
  ran := by
    simp only [observe, unseen, List.append_nil, List.append_assoc, ran]
    exact turning.ran

theorem rests_turning {first turn : Nat} {s : Watched} {t : State} {a : Action}
    (turning : Turning first turn s) (rests : Rests s.base t) (other : ∀ act, a ≠ .thread act) :
    Turning first turn (observe s t a) := by
  have outside : passBegins a = 0 ∧ examines s.base a = [] ∧ runs t a = [] := by
    cases a with
    | thread act => exact absurd rfl (other act)
    | _ => exact ⟨rfl, rfl, rfl⟩
  obtain ⟨passes, unseen, idle⟩ := outside
  rcases rests.pos with same | ⟨deadline, waits, woken⟩
  · apply turning_stays turning rests.keys rests.it
    · exact same ▸ turning.begun
    · rw [passes, same]; rfl
    · rw [same]
    · exact unseen
    · rw [idle, same]; rfl
  · apply turning_stays turning rests.keys rests.it
    · simp [woken]
    · rw [passes, woken, waits]; rfl
    · rw [woken, waits]; rfl
    · exact unseen
    · rw [idle, woken, waits]; rfl

def advanced (s : State) : Option Nat :=
  match s.it with
  | none => beginOf s.timers
  | some handle => nextOf handle s.timers

theorem advanced_place {first turn : Nat} {s : Watched} (turning : Turning first turn s) :
    advanced s.base =
      (handles s.base)[position ((handles s.base).length + 1) first (turn + 1)]? := by
  unfold advanced
  have place := turning.place
  split
  · rename_i ends
    rw [ends] at place
    rw [position_after_end place.symm]
    exact beginOf_handles s.base
  · rename_i handle iterator
    rw [iterator] at place
    rw [position_after_entry place.symm]
    exact nextOf_handles turning.distinct place.symm

theorem turning_advances {first turn : Nat} {s : Watched} {t : State} {a : Action}
    (turning : Turning first turn s) (keys : handles t = handles s.base)
    (it : t.it = advanced s.base) (loop : t.pos = .passing)
    (passes : inPass s.base.pos + passBegins a = 1)
    (seen : (s.examined ++ examines s.base a).map Examination.handle =
      tour (handles s.base) first turn ++ s.base.it.toList)
    (ran : s.ran ++ runs t a =
      ((s.examined ++ examines s.base a).filter fires).map Examination.handle) :
    Turning first (turn + 1) (observe s t a) where
  begun := by simp [observe, loop]
  distinct := by
    rw [observe, keys]
    exact turning.distinct
  passes := by
    rw [observe, turning.passes, Nat.add_assoc, passes, loop]
    rfl
  place := by
    rw [observe, keys, it]
    exact advanced_place turning
  examined := by
    simp only [observe, keys, loop, seen, looked, chosen]
    rw [turning.place]
    exact (tour_next _ first turn).symm
  ran := by
    simp only [observe, loop, pending, List.append_nil]
    exact ran

theorem woken_seen {first turn : Nat} {s : Watched} (turning : Turning first turn s)
    (here : s.base.pos = .woken) :
    s.examined.map Examination.handle = tour (handles s.base) first turn ∧
      s.ran = (s.examined.filter fires).map Examination.handle := by
  have seen := turning.examined
  have ran := turning.ran
  rw [here] at seen ran
  exact ⟨seen, by simpa only [pending, List.append_nil] using ran⟩

theorem examines_entry {s : State} {now : Int} {handle : Nat} {timer : TimerInfo}
    (goes : s.stop = false) (iterator : s.it = some handle)
    (found : find handle s.timers = some timer) :
    examines s (.thread (.examine now)) = [⟨timer, now⟩] := by
  simp [examines, goes, iterator, found]

theorem restarted_turning {first turn : Nat} {s : Watched} {t : State} {now : Int}
    (turning : Turning first turn s) (here : s.base.pos = .woken) (ends : s.base.it = none)
    (keys : handles t = handles s.base) (it : t.it = beginOf s.base.timers)
    (loop : t.pos = .passing) :
    Turning first (turn + 1) (observe s t (.thread (.examine now))) := by
  obtain ⟨seen, ran⟩ := woken_seen turning here
  have nothing : examines s.base (.thread (.examine now)) = [] := by simp [examines, ends]
  apply turning_advances turning keys _ loop
  · rw [here]; rfl
  · simpa [nothing, ends] using seen
  · simpa [nothing, runs] using ran
  · simpa [advanced, ends] using it

theorem skipped_turning {first turn : Nat} {s : Watched} {now : Int} {handle : Nat}
    {timer : TimerInfo} (turning : Turning first turn s) (here : s.base.pos = .woken)
    (goes : s.base.stop = false) (iterator : s.base.it = some handle)
    (found : find handle s.base.timers = some timer)
    (idle : Examination.ready ⟨timer, now⟩ = false) :
    Turning first (turn + 1)
      (observe s { s.base with it := nextOf handle s.base.timers, pos := .passing }
        (.thread (.examine now))) := by
  obtain ⟨seen, ran⟩ := woken_seen turning here
  have entry : examines s.base (.thread (.examine now)) = [⟨timer, now⟩] :=
    examines_entry goes iterator found
  have own : Examination.handle ⟨timer, now⟩ = handle := (find_some found).2
  apply turning_advances turning
  · rfl
  · simp [advanced, iterator]
  · rfl
  · rw [here]; rfl
  · rw [entry, List.map_append, seen, iterator, List.map_singleton, own]
    rfl
  · have silent : fires ⟨timer, now⟩ = false := by simp [fires, idle]
    rw [entry, List.filter_append, List.filter_cons_of_neg (by simp [silent])]
    simpa [runs] using ran

theorem selected_turning {first turn : Nat} {s : Watched} {now : Int} {handle : Nat}
    {timer : TimerInfo} (turning : Turning first turn s) (here : s.base.pos = .woken)
    (goes : s.base.stop = false) (iterator : s.base.it = some handle)
    (found : find handle s.base.timers = some timer)
    (ready : Examination.ready ⟨timer, now⟩ = true) :
    Turning first turn
      (observe s
        { s.base with
          running := true
          timers := alter handle (TimerInfo.renew now) s.base.timers
          pos := .selected ⟨handle, timer.obj, timer.timer⟩
          log := s.base.log ++ [.selected timer.timer timer.intervalMsec now] }
        (.thread (.examine now))) := by
  obtain ⟨seen, ran⟩ := woken_seen turning here
  have entry : examines s.base (.thread (.examine now)) = [⟨timer, now⟩] :=
    examines_entry goes iterator found
  have own : Examination.handle ⟨timer, now⟩ = handle := (find_some found).2
  have keys : (alter handle (TimerInfo.renew now) s.base.timers).map TimerInfo.handle =
      handles s.base := handles_alter (renew_keeps now) _
  constructor
  case begun => simp [observe]
  case distinct =>
    rw [observe, handles, keys]
    exact turning.distinct
  case passes =>
    rw [observe, turning.passes, here]
    rfl
  case place =>
    rw [observe, handles, keys]
    exact turning.place
  case examined =>
    rw [observe, handles, keys, entry, List.map_append, seen, List.map_singleton, own]
    have next := tour_next (handles s.base) first turn
    rw [← turning.place, iterator] at next
    exact next.symm
  case ran =>
    rw [observe, entry, List.filter_append, List.map_append, ← ran]
    by_cases null : timer.obj = 0
    · simp [runs, pending, fires, hasObject, null]
    · simp [runs, pending, fires, hasObject, null, ready, own]

theorem examined_turning {first turn : Nat} {s : Watched} {t : State} {now : Int}
    (turning : Turning first turn s) (here : s.base.pos = .woken) (goes : s.base.stop = false)
    (examined : examine now s.base = some t) :
    ∃ turn', Turning first turn' (observe s t (.thread (.examine now))) := by
  unfold examine at examined
  rw [if_neg (by simp [goes])] at examined
  split at examined
  · rename_i ends
    obtain rfl := Option.some.inj examined
    exact ⟨_, restarted_turning turning here ends rfl rfl rfl⟩
  · rename_i handle iterator
    obtain ⟨timer, found, moved⟩ := Option.map_eq_some_iff.mp examined
    split at moved
    · rename_i idle
      subst moved
      refine ⟨_, skipped_turning turning here goes iterator found ?_⟩
      simpa [Examination.ready, imp_iff_not_or] using idle
    · rename_i busy
      subst moved
      refine ⟨_, selected_turning turning here goes iterator found ?_⟩
      simpa [Examination.ready] using busy

theorem finished_turning {first turn : Nat} {s : Watched} {of : Selection} {handle : Nat}
    (turning : Turning first turn s) (here : s.base.pos = .returned of)
    (iterator : s.base.it = some handle) :
    Turning first (turn + 1)
      (observe s
        { s.base with
          timers := if s.base.result < 0 then alter of.handle TimerInfo.deactivate s.base.timers
            else s.base.timers
          it := nextOf handle s.base.timers
          pos := .passing }
        (.thread .finish)) := by
  have seen := turning.examined
  have ran := turning.ran
  rw [here] at seen ran
  apply turning_advances turning
  · rw [handles]
    dsimp only
    split
    · exact handles_alter deactivate_keeps _
    · rfl
  · simp [advanced, iterator]
  · rfl
  · rw [here]; rfl
  · simp only [examines, List.append_nil, seen]
    rw [turning.place]
    exact tour_next _ first turn
  · simpa [examines, runs, pending] using ran

theorem thread_turning {first turn : Nat} {s : Watched} {t : State} {act : ThreadAct}
    (turning : Turning first turn s) (goes : s.base.stop = false)
    (stepped : step s.base (.thread act) = some t) :
    ∃ turn', Turning first turn' (observe s t (.thread act)) := by
  have looks : ∀ now, s.base.pos = .woken →
      step s.base (.thread (.examine now)) = some t → examine now s.base = some t := by
    intro now here examined
    simpa only [step, here, threadStep] using examined
  cases thread_threaded stepped with
  | began here => exact absurd here turning.begun
  | stopped here => exact examined_turning turning here goes (looks _ here stepped)
  | restarted here => exact examined_turning turning here goes (looks _ here stepped)
  | skipped here => exact examined_turning turning here goes (looks _ here stepped)
  | selected here => exact examined_turning turning here goes (looks _ here stepped)
  | finished here iterator => exact ⟨turn + 1, finished_turning turning here iterator⟩
  | spared here null =>
    refine ⟨turn, turning_stays turning rfl rfl (by simp) ?_ ?_ rfl ?_⟩
    all_goals simp [here, null, inPass, passBegins, looked, chosen, runs, pending]
  | called here object =>
    refine ⟨turn, turning_stays turning rfl rfl (by simp) ?_ ?_ rfl ?_⟩
    all_goals simp [here, object, inPass, passBegins, looked, chosen, runs, pending]
  | passed here =>
    refine ⟨turn, turning_stays turning rfl rfl (by simp [TimerLoop.pass]) ?_ ?_ rfl ?_⟩
    all_goals rw [here]; rfl
  | woken here =>
    refine ⟨turn, turning_stays turning rfl rfl (by simp) ?_ ?_ rfl ?_⟩
    all_goals rw [here]; rfl
  | cameBack here =>
    refine ⟨turn, turning_stays turning rfl rfl (by simp) ?_ ?_ rfl ?_⟩
    all_goals rw [here]; rfl

theorem step_turning {first turn : Nat} {s t : Watched} {a : Action}
    (turning : Turning first turn s) (undisturbed : Undisturbed s a)
    (stepped : stretch.step s a = some t) : ∃ turn', Turning first turn' t := by
  obtain ⟨base, moved, rfl⟩ := Option.map_eq_some_iff.mp stepped
  cases a with
  | thread act => exact thread_turning turning undisturbed.1 moved
  | _ =>
    have rests := called_rests undisturbed.2 (step_called (by simp) moved)
    exact ⟨turn, rests_turning turning rests (by simp)⟩

theorem begins_turning {s : State} (begins : Begins s) :
    ∃ first, Turning first 0 ⟨s, 0, [], [], handles s⟩ := by
  obtain ⟨loop, distinct, valid⟩ := begins
  have place : ∃ first, first < (handles s).length + 1 ∧ s.it = (handles s)[first]? := by
    cases iterator : s.it with
    | none => exact ⟨(handles s).length, Nat.lt_succ_self _, by simp⟩
    | some handle =>
      obtain ⟨i, within, here⟩ := List.mem_iff_getElem.mp (valid handle iterator).2
      exact ⟨i, Nat.lt_succ_of_lt within, by simp [within, here]⟩
  obtain ⟨first, within, here⟩ := place
  refine ⟨first, by simp [loop], distinct, by rw [loop]; rfl, ?_, ?_, ?_⟩
  · rw [position_first within]
    exact here
  · rw [loop]; rfl
  · rw [loop]; rfl

theorem turning_reached {s : Watched} (reached : stretch.ReachableBy Undisturbed s) :
    ∃ first turn, Turning first turn s := by
  apply invariant_of_steps (fun s => ∃ first turn, Turning first turn s) _ _ reached
  · rintro s ⟨start, begins, rfl⟩
    obtain ⟨first, turning⟩ := begins_turning begins
    exact ⟨first, 0, turning⟩
  · rintro s a t ⟨first, turn, turning⟩ undisturbed stepped
    exact ⟨first, step_turning turning undisturbed stepped⟩

/-- While no entry is examined twice, those that stayed active and due were so when examined. -/
def Steady (s : Watched) : Prop :=
  (s.examined.map Examination.handle).Nodup →
    ∀ x ∈ s.examined, x.handle ∈ s.steady → x.ready = true

theorem examines_stays {s : State} {a : Action} {x : Examination} (seen : x ∈ examines s a)
    (kept : stays s a x.handle = true) : x.ready = true := by
  unfold examines at seen
  split at seen
  · rename_i now
    split at seen
    · simp at seen
    · obtain ⟨timer, found, rfl⟩ := List.mem_map.mp seen
      obtain ⟨handle, _, found⟩ := Option.bind_eq_some_iff.mp (Option.mem_toList.mp found)
      have own : timer.handle = handle := (find_some found).2
      simpa [stays, readings, Examination.handle, Examination.ready, own, found] using kept
  · simp at seen

theorem step_steady {s t : Watched} {a : Action} (steady : Steady s)
    (stepped : stretch.step s a = some t) : Steady t := by
  obtain ⟨base, _, rfl⟩ := Option.map_eq_some_iff.mp stepped
  intro once x member kept
  rw [observe, List.map_append] at once
  obtain ⟨before, _, apart⟩ := List.nodup_append.mp once
  obtain ⟨still, stayed⟩ := List.mem_filter.mp kept
  rcases List.mem_append.mp member with old | new
  · exact steady before x old still
  · have unseen : x.handle ∉ s.examined.map Examination.handle := by
      intro seen
      exact apart x.handle seen x.handle (List.mem_map_of_mem new) rfl
    apply examines_stays new
    simpa [unseen] using stayed

theorem steady_reached {s : Watched} (reached : stretch.ReachableBy Undisturbed s) : Steady s := by
  apply invariant_of_steps Steady _ _ reached
  · rintro s ⟨start, _, rfl⟩ _ x member
    simp at member
  · exact fun s a t steady _ stepped => step_steady steady stepped

/-- A stretch of as many passes as there are entries, and one more, examines every entry once,
    wherever the iterator is when it begins. The timers without an object are never called. -/
theorem stretch_fair {s : Watched} (reached : stretch.ReachableBy Undisturbed s)
    (complete : Complete s) : Fair hasObject s := by
  obtain ⟨first, turn, turning⟩ := turning_reached reached
  obtain ⟨passes, loop⟩ := complete
  have round : turn = (handles s.base).length + 1 := by
    have counted := turning.passes
    rw [loop, passes] at counted
    exact counted.symm
  have seen := turning.examined
  have ran := turning.ran
  rw [loop, round] at seen
  simp only [loop, pending, List.append_nil] at ran
  have examined : (s.examined.map Examination.handle).Perm (handles s.base) :=
    seen ▸ tour_complete (handles s.base) first
  have once : (s.examined.map Examination.handle).Nodup :=
    examined.nodup_iff.mpr turning.distinct
  refine ⟨turning.distinct, examined, ran, ?_⟩
  intro x member kept object
  have fired : x ∈ s.examined.filter fires := by
    have ready := steady_reached reached once x member kept
    exact List.mem_filter.mpr ⟨member, by simp [fires, object, ready]⟩
  rw [ran]
  apply List.count_eq_one_of_mem
  · exact once.sublist (List.filter_sublist.map _)
  · exact List.mem_map_of_mem fired

/-- A stretch from the last entry of two: its callback runs and stops it, the end is passed, and
    the other one is not due. -/
def twoTimers : State :=
  { initial with
    timers := [⟨7, 100, 15, 90, true, 0⟩, ⟨8, 101, 15, 30, true, 1⟩]
    baseIntervalMsec := 3
    it := some 8
    pos := .passing
    made := 2 }

def twoRound : List Action :=
  [.thread (.pass 40 40), .thread .wake, .thread (.examine 55), .thread (.call 55),
    .setBaseIntervalMs 20, .thread (.comeBack (-1)), .thread .finish, .thread (.pass 56 56),
    .thread .wake, .thread (.examine 71), .thread (.pass 71 71), .removeTimer 9, .thread .wake,
    .thread (.examine 86)]

theorem two_round_fair : ∃ s, stretch.runBy (fun s a => decide (Undisturbed s a))
    ⟨twoTimers, 0, [], [], [7, 8]⟩ twoRound = some s ∧ Complete s ∧ Fair hasObject s := by
  have first : stretch.init ⟨twoTimers, 0, [], [], [7, 8]⟩ := by
    refine ⟨twoTimers, ⟨rfl, by decide, fun handle iterator => ⟨rfl, ?_⟩⟩, rfl⟩
    simp only [twoTimers, Option.some.injEq] at iterator
    simp [handles, twoTimers, iterator]
  obtain ⟨s, executed, shown, reached⟩ := guarded_shows (m := stretch) Undisturbed twoRound first
    (fun s : Watched => decide (s.passes = (handles s.base).length + 1) &&
      decide (s.base.pos = .passing)) (by decide +kernel)
  simp only [Bool.and_eq_true, decide_eq_true_eq] at shown
  exact ⟨s, executed, shown, stretch_fair reached shown⟩

end TimerFairness
