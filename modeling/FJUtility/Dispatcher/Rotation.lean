import FJUtility.Dispatcher.Draining

/- ready_instances_ is served from the front and grows at the back: whoever has an entry and
   a queued task gets its turn after the entries ahead of its own. -/
namespace DispatchRotation
open LabelledMachine DispatchPool DispatchSteps DispatchView DispatchGuarantees DispatchDraining
open TokenQueue
variable {Obj : Type}

def turns (kind : Obj → Bool) (history : List (Event Obj)) : Nat :=
  (logged .dequeued history).countP fun taken => kind taken.1

theorem turns_append (kind : Obj → Bool) (history : List (Event Obj)) (e : Event Obj) :
    turns kind (history ++ [e]) =
      turns kind history + if e.stage = .dequeued ∧ kind e.obj = true then 1 else 0 := by
  simp only [turns, logged_append, List.countP_append]
  by_cases takes : e.stage = .dequeued
  · simp [takes, List.countP_cons]
  · simp [takes]

theorem behind_front {obj inst : Obj} {rest : List Obj} (entry : obj ∈ inst :: rest)
    (other : inst ≠ obj) : obj ∈ rest :=
  (List.mem_cons.mp entry).resolve_left (Ne.symm other)

variable [DecidableEq Obj]

def ahead (obj : Obj) (kind : Obj → Bool) (entries : List Obj) : Nat :=
  (entries.take (entries.idxOf obj)).countP kind

theorem ahead_append (obj : Obj) (kind : Obj → Bool) {entries : List Obj}
    (entry : obj ∈ entries) (more : List Obj) :
    ahead obj kind (entries ++ more) = ahead obj kind entries := by
  have bound := List.idxOf_lt_length_of_mem entry
  rw [ahead, List.idxOf_append_of_mem entry, List.take_append_of_le_length (Nat.le_of_lt bound)]
  rfl

theorem ahead_pop {obj inst : Obj} (kind : Obj → Bool) (rest : List Obj) (other : inst ≠ obj) :
    ahead obj kind (inst :: rest) = ahead obj kind rest + if kind inst = true then 1 else 0 := by
  rw [ahead, List.idxOf_cons_ne rest other, List.take_succ_cons, List.countP_cons]
  rfl

theorem ahead_all {obj : Obj} {entries : List Obj} :
    ahead obj (fun _ => true) entries = entries.idxOf obj := by
  rw [ahead, List.countP_true, List.length_take]
  exact Nat.min_eq_left List.idxOf_le_length

theorem ahead_of_count (obj other : Obj) (entries : List Obj) :
    ahead obj (fun inst => decide (inst = other)) entries ≤ entries.count other := by
  have shorter := (List.take_sublist (entries.idxOf obj) entries).count_le other
  apply Nat.le_trans _ shorter
  apply Nat.le_of_eq
  unfold ahead List.count
  congr 1

theorem turns_of (other : Obj) (history : List (Event Obj)) :
    turns (fun inst => decide (inst = other)) history = (reachedBy other .dequeued history).length := by
  induction history with
  | nil => rfl
  | cons e rest ih =>
    simp only [turns, logged, reachedBy, List.filterMap_cons] at ih ⊢
    by_cases takes : e.stage = .dequeued
    · by_cases here : e.obj = other
      · simp [takes, here, ih]
      · simp [takes, here, ih]
    · simp [takes, ih]

def Waits (obj : Obj) (s : State Obj) : Prop :=
  obj ∈ s.readyInstances ∧ (s.instanceMap obj).taskQueue ≠ []

def Paid (obj : Obj) (kind : Obj → Bool) (s t : State Obj) : Prop :=
  turns kind t.history + ahead obj kind t.readyInstances ≤
    turns kind s.history + ahead obj kind s.readyInstances

inductive Turned (obj : Obj) (s t : State Obj) : Prop where
  | served (own : (reachedBy obj .dequeued s.history).length <
      (reachedBy obj .dequeued t.history).length)
  | waits (still : Waits obj t) (paid : ∀ kind, Paid obj kind s t)
      (same : reachedBy obj .dequeued t.history = reachedBy obj .dequeued s.history)

theorem pushed_turned {obj : Obj} {s t : State Obj} {added : List Obj} {events : List (Event Obj)}
    (waits : Waits obj s) (entries : t.readyInstances = s.readyInstances ++ added)
    (queued : (t.instanceMap obj).taskQueue ≠ []) (log : t.history = s.history ++ events)
    (other : ∀ e ∈ events, e.stage ≠ .dequeued) : Turned obj s t := by
  have logs : logged .dequeued t.history = logged .dequeued s.history := by
    rw [log, logged, logged, List.filterMap_append, List.append_right_eq_self]
    apply List.filterMap_eq_nil_iff.mpr
    intro e member
    simp [other e member]
  have reaches : reachedBy obj .dequeued t.history = reachedBy obj .dequeued s.history := by
    rw [log, reachedBy, reachedBy, List.filterMap_append, List.append_right_eq_self]
    apply List.filterMap_eq_nil_iff.mpr
    intro e member
    simp [other e member]
  apply Turned.waits
  case still => exact ⟨entries ▸ List.mem_append_left _ waits.1, queued⟩
  case paid =>
    intro kind
    rw [Paid, turns, logs, entries, ahead_append obj kind waits.1]
    exact Nat.le_refl _
  case same => exact reaches

theorem posted_turned {obj inst : Obj} {parallel : Bool} {task : Task} {woken : List Nat}
    {now : Nat} {s t : State Obj} (waits : Waits obj s)
    (posted : postSection parallel inst task woken now s = some t) : Turned obj s t := by
  have adjusted : ∀ u : State Obj, (adjustWorkers now u).readyInstances = u.readyInstances ∧
      (adjustWorkers now u).instanceMap = u.instanceMap ∧
      (adjustWorkers now u).history = u.history := by
    intro u
    unfold adjustWorkers
    split
    · exact ⟨rfl, rfl, rfl⟩
    · exact ⟨rfl, rfl, rfl⟩
  have filled : ∀ running, (Function.update s.instanceMap inst
      ⟨(s.instanceMap inst).taskQueue ++ [task], running⟩ obj).taskQueue ≠ [] := by
    intro running
    by_cases here : obj = inst
    · simp [here]
    · simpa [Function.update_of_ne here] using waits.2
  obtain ⟨u, entered, rfl⟩ := postSection_posted posted
  obtain ⟨entries, instances, history⟩ := adjusted u
  cases entered with
  | readied =>
    exact pushed_turned waits entries (instances ▸ filled _) history (by simp)
  | queued =>
    exact pushed_turned waits (entries.trans (List.append_nil _).symm) (instances ▸ filled _) history
      (by simp)

theorem passed_turned {obj inst : Obj} {s : State Obj} {rest : List Obj} (waits : Waits obj s)
    (entries : s.readyInstances = inst :: rest) (drained : (s.instanceMap inst).taskQueue = []) :
    Turned obj s
      { s with
        readyInstances := rest
        instanceMap := Function.update s.instanceMap inst ⟨[], false⟩ } := by
  obtain ⟨entry, queued⟩ := waits
  have other : inst ≠ obj := by
    rintro rfl
    exact queued drained
  rw [entries] at entry
  apply Turned.waits
  case still =>
    exact ⟨behind_front entry other, by simpa [Function.update_of_ne (Ne.symm other)] using queued⟩
  case paid =>
    intro kind
    rw [Paid, entries, ahead_pop kind rest other]
    dsimp only
    omega
  case same => rfl

theorem took_turned {obj inst : Obj} {s : State Obj} {i : Nat} {w : Worker Obj} {rest : List Obj}
    {info : InstanceInfo} (task : Task) (waits : Waits obj s)
    (entries : s.readyInstances = inst :: rest) :
    Turned obj s
      (moveTo
        { s with
          readyInstances := rest
          instanceMap := Function.update s.instanceMap inst info
          history := s.history ++ [{ stage := .dequeued, obj := inst, task }] }
        i w (.taken inst task)) := by
  obtain ⟨entry, queued⟩ := waits
  by_cases other : inst = obj
  · apply Turned.served
    simp [moveTo, reachedBy_append, other]
  · rw [entries] at entry
    apply Turned.waits
    case still =>
      exact ⟨behind_front entry other,
        by simpa [moveTo, Function.update_of_ne (Ne.symm other)] using queued⟩
    case paid =>
      intro kind
      rw [Paid, entries, ahead_pop kind rest other]
      simp only [moveTo, turns_append, true_and]
      omega
    case same => simp [moveTo, reachedBy_append, other]

theorem worker_turned {obj : Obj} {s t : State Obj} {i : Nat} {w : Worker Obj} {a : Action Obj}
    (waits : Waits obj s) (moved : WorkerMoved i w s a t) : Turned obj s t := by
  have same := (List.append_nil s.readyInstances).symm
  cases moved with
  | exited | slept => exact .waits waits (fun kind => Nat.le_refl _) rfl
  | passed here runs entries drained => exact passed_turned waits entries drained
  | took here runs entries queued => exact took_turned _ waits entries
  | spurious => exact pushed_turned waits same waits.2 (List.append_nil _).symm (by simp)
  | started | ended => exact pushed_turned waits same waits.2 rfl (by simp)
  | readied => exact pushed_turned waits rfl waits.2 (List.append_nil _).symm (by simp)
  | @drained _ _ _ inst _ _ drained =>
    have other : obj ≠ inst := by
      rintro rfl
      exact waits.2 drained
    have queued : (Function.update s.instanceMap inst
        ⟨(s.instanceMap inst).taskQueue, false⟩ obj).taskQueue ≠ [] := by
      simpa [Function.update_of_ne other] using waits.2
    exact pushed_turned waits same queued (List.append_nil _).symm (by simp)

theorem step_turned {obj : Obj} {s t : State Obj} {a : Action Obj} (waits : Waits obj s)
    (stepped : machine.step s a = some t) : Turned obj s t := by
  change step s a = some t at stepped
  cases a with
  | postQueue | postEvent | enqueueTask => exact posted_turned waits stepped
  | getHandle | stop =>
    simp only [step, Option.some.injEq] at stepped
    subst stepped
    exact .waits waits (fun kind => Nat.le_refl _) rfl
  | enter | spurious | start | finishTask | finish =>
    obtain ⟨w, found, moved⟩ := Option.bind_eq_some_iff.mp stepped
    exact worker_turned waits (workerStep_moved moved)

theorem run_taken_grows (obj : Obj) {s t : State Obj} (actions : List (Action Obj))
    (executed : machine.run s actions = some t) :
    (reachedBy obj .dequeued s.history).length ≤ (reachedBy obj .dequeued t.history).length := by
  induction actions generalizing s with
  | nil =>
    simp only [Machine.run, Machine.runBy, Option.some.injEq] at executed
    exact executed ▸ Nat.le_refl _
  | cons a rest ih =>
    simp only [Machine.run, Machine.runBy, reduceIte] at executed
    obtain ⟨u, move, tail⟩ := Option.bind_eq_some_iff.mp executed
    apply Nat.le_trans _ (ih tail)
    rcases step_history move with same | ⟨e, appended⟩
    · exact same ▸ Nat.le_refl _
    · rw [appended, reachedBy_append, List.length_append]
      exact Nat.le_add_right _ _

/-- Until obj has its turn, every turn of another is paid for with an entry ahead of obj's. -/
theorem run_turned {obj : Obj} {s t : State Obj} (waits : Waits obj s) (actions : List (Action Obj))
    (executed : machine.run s actions = some t)
    (unserved : (reachedBy obj .dequeued t.history).length ≤
      (reachedBy obj .dequeued s.history).length) :
    Waits obj t ∧ ∀ kind, Paid obj kind s t := by
  induction actions generalizing s with
  | nil =>
    simp only [Machine.run, Machine.runBy, Option.some.injEq] at executed
    subst executed
    exact ⟨waits, fun kind => Nat.le_refl _⟩
  | cons a rest ih =>
    simp only [Machine.run, Machine.runBy, reduceIte] at executed
    obtain ⟨u, move, tail⟩ := Option.bind_eq_some_iff.mp executed
    have later := run_taken_grows obj rest tail
    cases step_turned waits move with
    | served own => omega
    | waits still paid same =>
      obtain ⟨last, paidLater⟩ := ih still tail (by rw [same]; exact unserved)
      exact ⟨last, fun kind => Nat.le_trans (paidLater kind) (paid kind)⟩

theorem serial_ready_le {other : Obj} {s : State Obj}
    (reached : machine.ReachableBy (SequentialOnly other) s) : s.readyInstances.count other ≤ 1 := by
  have tokens := serial_tokens_le (serial_reached reached)
  have entries : (view other s).ready = s.readyInstances.count other := rfl
  rw [View.tokens, entries] at tokens
  omega

/-- An instance with an entry and a queued task is passed over at most once by a sequential
    one, whatever is posted meanwhile, and by no more tasks in all than entries are ahead. -/
theorem waiting_passed_once {obj other : Obj} {s t : State Obj}
    (reached : machine.ReachableBy (SequentialOnly other) s) (entry : obj ∈ s.readyInstances)
    (queued : (s.instanceMap obj).taskQueue ≠ []) (actions : List (Action Obj))
    (executed : machine.run s actions = some t)
    (unserved : reachedBy obj .dequeued t.history = reachedBy obj .dequeued s.history) :
    (reachedBy other .dequeued t.history).length ≤
        (reachedBy other .dequeued s.history).length + 1 ∧
      (logged .dequeued t.history).length + t.readyInstances.idxOf obj ≤
        (logged .dequeued s.history).length + s.readyInstances.idxOf obj := by
  obtain ⟨_, paid⟩ := run_turned ⟨entry, queued⟩ actions executed (Nat.le_of_eq (by rw [unserved]))
  constructor
  · have turnsPaid := paid fun inst => decide (inst = other)
    rw [Paid, turns_of, turns_of] at turnsPaid
    have entries := ahead_of_count obj other s.readyInstances
    have narrow := serial_ready_le reached
    omega
  · have turnsPaid := paid fun _ => true
    simp only [Paid, turns, List.countP_true, ahead_all] at turnsPaid
    exact turnsPaid

instance (obj : Obj) (s : State Obj) (a : Action Obj) : Decidable (SequentialOnly obj s a) :=
  match a with
  | .postQueue inst _ _ isseq _ _ => inferInstanceAs (Decidable (inst = obj → isseq = true))
  | .postEvent .. | .enqueueTask .. | .getHandle | .enter _ | .spurious _ | .start _ _
  | .finishTask _ _ | .finish _ _ _ | .stop => isTrue trivial

def twoInTurn : List (Action Nat) :=
  [.postQueue 8 1 "main" true [] 0, .postEvent 8 2 "main" [] 0, .enqueueTask 7 3 [] 0]

def firstServed : List (Action Nat) :=
  [.enter 0, .start 0 1, .finishTask 0 (some 0), .finish 0 [] 2]

def behindFirst (s : State Nat) : Bool :=
  decide (7 ∈ s.readyInstances) && decide ((s.instanceMap 7).taskQueue ≠ []) &&
    (machine.run s firstServed).any fun t =>
      decide (reachedBy 7 .dequeued t.history = reachedBy 7 .dequeued s.history) &&
        decide ((reachedBy 8 .dequeued t.history).length = 1)

theorem second_passed_once :
    ∃ s t, machine.Reachable s ∧ machine.run s firstServed = some t ∧
      (reachedBy 8 .dequeued t.history).length = 1 ∧
      (reachedBy 8 .dequeued t.history).length ≤ (reachedBy 8 .dequeued s.history).length + 1 := by
  obtain ⟨s, _, behind, reached⟩ := guarded_shows (m := machine) (s := create 0 1)
    (SequentialOnly 8) twoInTurn ⟨0, 1, rfl⟩ behindFirst (by decide)
  simp only [behindFirst, Bool.and_eq_true, decide_eq_true_eq] at behind
  obtain ⟨⟨entry, queued⟩, serving⟩ := behind
  obtain ⟨t, served, passed⟩ := (Option.any_eq_true ..).mp serving
  simp only [Bool.and_eq_true, decide_eq_true_eq] at passed
  exact ⟨s, t, reachable_of_reachableBy reached, served, passed.2,
    (waiting_passed_once reached entry queued firstServed served passed.1).1⟩

end DispatchRotation
