import Mathlib.Data.List.Basic
import FJUtility.Timer.Loop

/- The table of timers over every run: its keys, the timer that the thread works for, and the
   timers that were removed. -/
namespace TimerTable
open LabelledMachine TimerLoop

def keyOf (t : TimerInfo) : Nat × Nat := (t.handle, t.timer)

def Apart (a b : Nat × Nat) : Prop := a.1 ≠ b.1 ∧ a.2 ≠ b.2

def timerOf : Event → Nat
  | .created timer .. | .removed timer | .selected timer .. | .called timer _
  | .returned timer _ => timer

structure TableOk (s : State) : Prop where
  distinct : (s.timers.map keyOf).Pairwise Apart
  numbered : ∀ t ∈ s.timers, t.timer < s.made
  observed : ∀ e ∈ s.log, timerOf e < s.made
  busy : ∀ of, chosen s.pos = some of →
    s.running = true ∧ (of.handle, of.timer) ∈ s.timers.map keyOf
  removed : ∀ t ∈ s.timers, .removed t.timer ∈ s.log → t.active = false

theorem find_some {handle : Nat} {timers : List TimerInfo} {t : TimerInfo}
    (found : find handle timers = some t) : t ∈ timers ∧ t.handle = handle := by
  unfold find at found
  have same := List.find?_some found
  exact ⟨List.mem_of_find?_eq_some found, of_decide_eq_true same⟩

theorem find_none {handle : Nat} {timers : List TimerInfo} (absent : find handle timers = none)
    {t : TimerInfo} (member : t ∈ timers) : t.handle ≠ handle := by
  simpa using List.find?_eq_none.mp absent t member

theorem mem_alter {handle : Nat} {change : TimerInfo → TimerInfo} {timers : List TimerInfo}
    {t' : TimerInfo} (member : t' ∈ alter handle change timers) :
    ∃ t ∈ timers, t.handle = handle ∧ t' = change t ∨ t.handle ≠ handle ∧ t' = t := by
  obtain ⟨t, old, rfl⟩ := List.mem_map.mp member
  refine ⟨t, old, ?_⟩
  by_cases here : t.handle = handle
  · exact Or.inl ⟨here, if_pos here⟩
  · exact Or.inr ⟨here, if_neg here⟩

structure Keeps (change : TimerInfo → TimerInfo) : Prop where
  handle : ∀ t, (change t).handle = t.handle
  timer : ∀ t, (change t).timer = t.timer
  obj : ∀ t, (change t).obj = t.obj
  intervalMsec : ∀ t, (change t).intervalMsec = t.intervalMsec

theorem deactivate_keeps : Keeps TimerInfo.deactivate :=
  ⟨fun _ => rfl, fun _ => rfl, fun _ => rfl, fun _ => rfl⟩

theorem renew_keeps (now : Int) : Keeps (TimerInfo.renew now) :=
  ⟨fun _ => rfl, fun _ => rfl, fun _ => rfl, fun _ => rfl⟩

theorem alter_keys {handle : Nat} {change : TimerInfo → TimerInfo} (keeps : Keeps change)
    (timers : List TimerInfo) : (alter handle change timers).map keyOf = timers.map keyOf := by
  simp only [alter, List.map_map]
  apply List.map_congr_left
  intro t _
  simp only [Function.comp_apply, keyOf]
  split
  · rw [keeps.handle, keeps.timer]
  · rfl

theorem one_entry {s : State} (table : TableOk s) {t u : TimerInfo} (first : t ∈ s.timers)
    (second : u ∈ s.timers) (same : t.handle = u.handle ∨ t.timer = u.timer) : t = u := by
  obtain ⟨i, bound, rfl⟩ := List.mem_iff_getElem.mp first
  obtain ⟨j, bound', rfl⟩ := List.mem_iff_getElem.mp second
  have distinct := List.pairwise_map.mp table.distinct
  rw [List.pairwise_iff_getElem] at distinct
  rcases Nat.lt_trichotomy i j with before | here | behind
  · have apart := distinct i j bound bound' before
    exact absurd same (not_or.mpr apart)
  · subst here
    rfl
  · have apart := distinct j i bound' bound behind
    exact absurd same (not_or.mpr ⟨Ne.symm apart.1, Ne.symm apart.2⟩)

theorem same_entry {s : State} (table : TableOk s) {t u : TimerInfo} (first : t ∈ s.timers)
    (second : u ∈ s.timers) : t.handle = u.handle ↔ t.timer = u.timer :=
  ⟨fun same => by rw [one_entry table first second (Or.inl same)],
    fun same => by rw [one_entry table first second (Or.inr same)]⟩

theorem find_of_mem {s : State} (table : TableOk s) {handle : Nat} {t : TimerInfo}
    (member : t ∈ s.timers) (own : t.handle = handle) : find handle s.timers = some t := by
  cases found : find handle s.timers with
  | none => exact absurd own (find_none found member)
  | some u =>
    obtain ⟨there, same⟩ := find_some found
    rw [one_entry table member there (Or.inl (own.trans same.symm))]

theorem busy_entry {s : State} (table : TableOk s) {of : Selection}
    (working : chosen s.pos = some of) :
    ∃ t ∈ s.timers, t.handle = of.handle ∧ t.timer = of.timer := by
  obtain ⟨t, member, key⟩ := List.mem_map.mp (table.busy of working).2
  simp only [keyOf, Prod.mk.injEq] at key
  exact ⟨t, member, key.1, key.2⟩

theorem sameChoice_busy {s t : State} (choice : SameChoice s t) {of : Selection}
    (working : chosen t.pos = some of) : t.pos = s.pos ∧ t.running = s.running := by
  apply choice.resolve_right
  intro unchosen
  rw [unchosen.2] at working
  exact absurd working (by simp)

theorem keys_ok {s t : State} (table : TableOk s) (made : t.made = s.made)
    (keys : t.timers.map keyOf = s.timers.map keyOf) :
    (t.timers.map keyOf).Pairwise Apart ∧ ∀ u ∈ t.timers, u.timer < t.made := by
  refine ⟨keys ▸ table.distinct, fun u member => ?_⟩
  have here : keyOf u ∈ s.timers.map keyOf := keys ▸ List.mem_map_of_mem member
  obtain ⟨old, older, same⟩ := List.mem_map.mp here
  simp only [keyOf, Prod.mk.injEq] at same
  rw [made, ← same.2]
  exact table.numbered old older

theorem quiet_table {s t : State} (table : TableOk s) (quiet : Quiet s t) : TableOk t := by
  obtain ⟨timers, result, made, log, choice⟩ := quiet
  obtain ⟨distinct, numbered⟩ := keys_ok table made (by rw [timers])
  refine ⟨distinct, numbered, ?_, fun of working => ?_, ?_⟩
  · rw [log, made]
    exact table.observed
  · obtain ⟨pos, running⟩ := sameChoice_busy choice working
    rw [running, timers]
    exact table.busy of (pos ▸ working)
  · rw [log, timers]
    exact table.removed

theorem logged_before {log : List Event} {e last : Event} (logged : e ∈ log ++ [last])
    (other : e ≠ last) : e ∈ log :=
  (List.mem_append.mp logged).resolve_right fun new => other (List.mem_singleton.mp new)

theorem observed_append {s : State} (table : TableOk s) {e : Event} (there : timerOf e < s.made) :
    ∀ e' ∈ s.log ++ [e], timerOf e' < s.made := by
  intro e' member
  rcases List.mem_append.mp member with old | new
  · exact table.observed e' old
  · exact List.mem_singleton.mp new ▸ there

theorem removed_append {s : State} (table : TableOk s) {e : Event}
    (other : ∀ timer, e ≠ .removed timer) :
    ∀ t ∈ s.timers, .removed t.timer ∈ s.log ++ [e] → t.active = false := by
  intro t member logged
  exact table.removed t member (logged_before logged (Ne.symm (other t.timer)))

theorem removed_alter {s : State} (table : TableOk s) {handle : Nat}
    {change : TimerInfo → TimerInfo} (keeps : Keeps change)
    (active : ∀ t ∈ s.timers, t.active = false → (change t).active = false) :
    ∀ t ∈ alter handle change s.timers, .removed t.timer ∈ s.log → t.active = false := by
  intro t member logged
  obtain ⟨u, old, ⟨_, rfl⟩ | ⟨_, rfl⟩⟩ := mem_alter member
  · rw [keeps.timer] at logged
    exact active u old (table.removed u old logged)
  · exact table.removed _ old logged

theorem created_table {s t : State} {new : TimerInfo} (table : TableOk s)
    (fresh : find new.handle s.timers = none) (number : new.timer = s.made)
    (added : t.timers.Perm (new :: s.timers)) (made : t.made = s.made + 1) {e : Event}
    (about : timerOf e = s.made) (other : ∀ timer, e ≠ .removed timer) (log : t.log = s.log ++ [e])
    (choice : SameChoice s t) : TableOk t := by
  have keys := added.map keyOf
  rw [List.map_cons] at keys
  have members : ∀ u ∈ t.timers, u = new ∨ u ∈ s.timers := fun u member =>
    List.mem_cons.mp (added.mem_iff.mp member)
  constructor
  case distinct =>
    apply (keys.pairwise_iff fun {a b} apart => ⟨Ne.symm apart.1, Ne.symm apart.2⟩).mpr
    apply List.pairwise_cons.mpr
    constructor
    · intro key member
      obtain ⟨u, old, rfl⟩ := List.mem_map.mp member
      constructor
      · exact Ne.symm (find_none fresh old)
      · simp only [keyOf, number]
        exact Nat.ne_of_gt (table.numbered u old)
    · exact table.distinct
  case numbered =>
    intro u member
    rw [made]
    rcases members u member with rfl | old
    · exact number ▸ Nat.lt_succ_self _
    · exact Nat.lt_succ_of_lt (table.numbered u old)
  case observed =>
    intro e' member
    rw [log] at member
    rw [made]
    rcases List.mem_append.mp member with old | new
    · exact Nat.lt_succ_of_lt (table.observed e' old)
    · rw [List.mem_singleton.mp new, about]
      exact Nat.lt_succ_self _
  case busy =>
    intro of working
    obtain ⟨pos, running⟩ := sameChoice_busy choice working
    obtain ⟨runs, there⟩ := table.busy of (pos ▸ working)
    exact ⟨running.trans runs, keys.mem_iff.mpr (List.mem_cons_of_mem _ there)⟩
  case removed =>
    intro u member logged
    rw [log] at logged
    have older := logged_before logged (Ne.symm (other _))
    rcases members u member with rfl | old
    · exact absurd (table.observed _ older) (by simp [timerOf, number])
    · exact table.removed u old older

theorem removed_table {s : State} {handle : Nat} {timer : TimerInfo} (table : TableOk s)
    (found : find handle s.timers = some timer) :
    TableOk { s with
      timers := alter handle TimerInfo.deactivate s.timers
      log := s.log ++ [.removed timer.timer] } := by
  obtain ⟨member, own⟩ := find_some found
  obtain ⟨distinct, numbered⟩ := keys_ok (t := { s with
    timers := alter handle TimerInfo.deactivate s.timers
    log := s.log ++ [.removed timer.timer] }) table rfl (alter_keys deactivate_keeps _)
  refine ⟨distinct, numbered, observed_append table (table.numbered timer member),
    fun of working => ?_, fun u altered logged => ?_⟩
  · rw [alter_keys deactivate_keeps]
    exact table.busy of working
  · obtain ⟨v, old, ⟨_, rfl⟩ | ⟨other, rfl⟩⟩ := mem_alter altered
    · rfl
    · refine table.removed u old (logged_before logged fun same => ?_)
      simp only [Event.removed.injEq] at same
      exact other (((same_entry table old member).mpr same).trans own)

theorem selected_table {s : State} {handle : Nat} {now : Int} {timer : TimerInfo}
    (table : TableOk s) (found : find handle s.timers = some timer) :
    TableOk { s with
      running := true
      timers := alter handle (TimerInfo.renew now) s.timers
      pos := .selected ⟨handle, timer.obj, timer.timer⟩
      log := s.log ++ [.selected timer.timer timer.intervalMsec now] } := by
  obtain ⟨member, own⟩ := find_some found
  have keys : (alter handle (TimerInfo.renew now) s.timers).map keyOf = s.timers.map keyOf :=
    alter_keys (renew_keeps now) _
  refine ⟨keys ▸ table.distinct, ?_, observed_append table (table.numbered timer member),
    fun of working => ?_, fun u altered logged => ?_⟩
  · intro u altered
    obtain ⟨v, old, ⟨_, rfl⟩ | ⟨_, rfl⟩⟩ := mem_alter altered
    · exact table.numbered v old
    · exact table.numbered _ old
  · simp only [chosen, Option.some.injEq] at working
    subst working
    refine ⟨rfl, ?_⟩
    rw [keys]
    exact own ▸ List.mem_map_of_mem (f := keyOf) member
  · exact removed_alter table (renew_keeps now) (fun _ _ same => same) u altered
      (logged_before logged (by simp))

theorem working_table {s : State} {of : Selection} (table : TableOk s)
    (working : chosen s.pos = some of) {e : Event} (about : timerOf e = of.timer)
    (other : ∀ timer, e ≠ .removed timer) {pos : ThreadPos} (next : chosen pos = some of)
    (result : Int) : TableOk { s with result, pos, log := s.log ++ [e] } := by
  obtain ⟨u, member, _, number⟩ := busy_entry table working
  refine ⟨table.distinct, table.numbered, observed_append table ?_, fun of' working' => ?_,
    removed_append table other⟩
  · rw [about, ← number]
    exact table.numbered u member
  · exact table.busy of' (working.trans (next.symm.trans working'))

theorem finished_table {s : State} {of : Selection} {it : Option Nat} (table : TableOk s) :
    TableOk { s with
      timers := if s.result < 0 then alter of.handle TimerInfo.deactivate s.timers else s.timers
      it
      pos := .passing } := by
  have keys : (if s.result < 0 then alter of.handle TimerInfo.deactivate s.timers
      else s.timers).map keyOf = s.timers.map keyOf := by
    split
    · exact alter_keys deactivate_keeps _
    · rfl
  obtain ⟨distinct, numbered⟩ := keys_ok (t := { s with
    timers := if s.result < 0 then alter of.handle TimerInfo.deactivate s.timers else s.timers
    it
    pos := .passing }) table rfl keys
  refine ⟨distinct, numbered, table.observed, fun of' working => by simp [chosen] at working, ?_⟩
  dsimp only
  split
  · exact removed_alter table deactivate_keeps (fun _ _ _ => rfl)
  · exact table.removed

theorem step_table {s t : State} {a : Action} (table : TableOk s) (stepped : Stepped s a t) :
    TableOk t := by
  cases stepped with
  | quiet same => exact quiet_table table same
  | created long fresh added result made log choice =>
    exact created_table table fresh rfl added made rfl (by simp) log choice
  | removed found => exact removed_table table found
  | cleared idle timers result made log choice =>
    refine ⟨by simp [timers], by simp [timers], by rw [log, made]; exact table.observed,
      fun of working => ?_, by simp [timers]⟩
    obtain ⟨pos, running⟩ := sameChoice_busy choice working
    rw [(table.busy of (pos ▸ working)).1] at idle
    exact absurd idle (by simp)
  | selected here iterator found active due => exact selected_table table found
  | called here object =>
    exact working_table table (by rw [here]; rfl) rfl (by simp) rfl s.result
  | @spared of now here null =>
    refine ⟨table.distinct, table.numbered, table.observed, fun of' working => ?_, table.removed⟩
    simp only [chosen, Option.some.injEq] at working
    exact table.busy of' (by rw [here]; exact congrArg some working)
  | cameBack here => exact working_table table (by rw [here]; rfl) rfl (by simp) rfl _
  | finished here iterator => exact finished_table table

theorem initial_table : TableOk initial where
  distinct := .nil
  numbered t member := by simp [initial] at member
  observed e member := by simp [initial] at member
  busy of working := by simp [initial, chosen] at working
  removed t member := by simp [initial] at member

theorem table_reached {guard : State → Action → Prop} {s : State}
    (reached : machine.ReachableBy guard s) : TableOk s := by
  apply invariant_of_steps TableOk _ _ reached
  · rintro s rfl
    exact initial_table
  · exact fun s a t table _ move => step_table table (step_stepped move)

/-- Handles come into the table by createTimer only. -/
theorem step_handles {s t : State} {a : Action} (stepped : Stepped s a t) {u : TimerInfo}
    (member : u ∈ t.timers) : (∃ v ∈ s.timers, v.handle = u.handle) ∨
      ∃ obj intervalMsec start table rehashed, minTickMsec ≤ (intervalMsec : Nat) ∧
        a = .createTimer u.handle obj intervalMsec start table rehashed := by
  have altered : ∀ {handle : Nat} {change : TimerInfo → TimerInfo}, Keeps change →
      u ∈ alter handle change s.timers → ∃ v ∈ s.timers, v.handle = u.handle := by
    intro handle change keeps changed
    obtain ⟨v, old, ⟨_, rfl⟩ | ⟨_, rfl⟩⟩ := mem_alter changed
    · exact ⟨v, old, (keeps.handle v).symm⟩
    · exact ⟨u, old, rfl⟩
  cases stepped with
  | quiet same => exact Or.inl ⟨u, same.timers ▸ member, rfl⟩
  | created long fresh added =>
    rcases List.mem_cons.mp (added.subset member) with rfl | old
    · exact Or.inr ⟨_, _, _, _, _, long, rfl⟩
    · exact Or.inl ⟨u, old, rfl⟩
  | removed found => exact Or.inl (altered deactivate_keeps member)
  | cleared idle timers => simp [timers] at member
  | @selected now handle timer here iterator found active due =>
    exact Or.inl (altered (renew_keeps now) member)
  | finished here iterator =>
    dsimp only at member
    split at member
    · exact Or.inl (altered deactivate_keeps member)
    · exact Or.inl ⟨u, member, rfl⟩
  | called | spared | cameBack => exact Or.inl ⟨u, member, rfl⟩

theorem createTimer_enters {handle obj intervalMsec : Nat} {start : Int} {table : List TimerInfo}
    {rehashed : Bool} {s t : State} (long : minTickMsec ≤ intervalMsec)
    (absent : find handle s.timers = none)
    (created : createTimer handle obj intervalMsec start table rehashed s = some t) :
    t.timers.Perm (⟨handle, obj, intervalMsec, start + intervalMsec, true, s.made⟩ :: s.timers) := by
  unfold createTimer emplace at created
  rw [if_neg (Int.not_lt.mpr long)] at created
  obtain ⟨u, entered, moved⟩ := Option.map_eq_some_iff.mp created
  rw [if_neg (by simp [absent])] at entered
  split at entered
  · rename_i perm
    obtain rfl := Option.some.inj entered
    dsimp only at moved
    split at moved
    · rw [← moved, (nudged_wakes (nudged_refl _)).timers]
      exact perm
    · rw [← moved]
      exact perm
  · simp at entered

end TimerTable
