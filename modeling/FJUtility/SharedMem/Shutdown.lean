import FJUtility.SharedMem.MailGuarantees
import FJUtility.SharedMem.Steps

/- The end of a process's worker against the destructor that waits for it. The destructor keeps
   the region's mutex_ while it polls, so only a worker that can leave without it is joined, and
   only one that is scheduled often enough before the last poll. -/
namespace SharedShutdown
open LabelledMachine AgentList FixMap SharedRegion SharedProcesses SharedSteps SharedGuarantees

/-- Every proAtom was destroyed after its worker was joined, which is at its end and so takes
    no step any more. -/
def OrderlyShutdown (s : State) : Prop :=
  ∀ pid slot worker joined, .entryDestroyed pid slot worker joined ∈ s.log →
    joined = true ∧ isDone s worker = true ∧
      ∀ capacity act, (machine capacity).step s (.worker worker act) = none

/-- calls marks the workers whose callback has called a method that locks mutex_ and has not
    come back from it. taken counts the actions of the worker that a destructor waits for, from
    the broadcast and again from every poll. -/
structure Timed where
  base : State
  calls : Nat → Bool := fun _ => false
  taken : Nat := 0

inductive TimedAction where
  | act (a : Action)
  | enter (i : Nat)
  | leave (i : Nat)

/-- A callback does not return out of the middle of a call. -/
def heldUp (s : Timed) : Action → Bool
  | .worker i .comeBack => s.calls i
  | _ => false

def count (s : Timed) : Action → Nat
  | .destroySignal | .destroyPoll => 0
  | .worker i _ =>
    match s.base.user with
    | some (.joining _ _ slot _) =>
      if i = (proAtomAt s.base slot).worker then s.taken + 1 else s.taken
    | _ => s.taken
  | _ => s.taken

def inUpdate (s : State) (i : Nat) : Bool :=
  s.workers[i]?.any fun w => match w.pos with
    | .inCallback _ _ _ => true
    | _ => false

def timedStep (capacity : Nat) (s : Timed) : TimedAction → Option Timed
  | .act a =>
    if heldUp s a then none
    else (step capacity s.base a).map fun base => { s with base, taken := count s a }
  | .enter i =>
    if inUpdate s.base i then some { s with calls := Function.update s.calls i true } else none
  | .leave i =>
    if s.base.user = none ∧ s.calls i then
      some { s with calls := Function.update s.calls i false }
    else none

def timed (capacity : Nat) : Machine Timed TimedAction where
  init s := (machine capacity).init s.base ∧ (∀ i, s.calls i = false) ∧ s.taken = 0
  step := timedStep capacity

def destroyedAtOnce : List TimedAction :=
  [.act (.construct 5 100 [7] [entrySeven]), .act (.destroyBegin 5 100), .act .destroySignal] ++
    List.replicate 101 (.act .destroyPoll)

theorem destroyed_at_once_not_joined :
    ¬ ∀ s, (timed 22).Reachable s → OrderlyShutdown s.base := by
  intro orderly
  obtain ⟨s, reached, shown⟩ := run_shows (m := timed 22) (s := { base := zeroed })
    destroyedAtOnce ⟨zeroed_initial 22, fun _ => rfl, rfl⟩
    (fun s : Timed => s.base.log.contains (.entryDestroyed 5 0 0 false)) (by decide +kernel)
  have joined := (orderly s reached 5 0 0 false (List.contains_iff_mem.mp shown)).1
  simp at joined

/-- A mail that the worker dispatches without the region's mutex_. -/
def lockFree (mail : MailAtom) : Bool :=
  decide (mail.obj = 0) || mail.payloadIdx.all fun idx => decide (¬ idx < payloadSlots)

/-- Worker i can take a step of its own while another thread keeps the region's mutex_. -/
def canMove (s : Timed) (i : Nat) : WorkerPos → Bool
  | .looping | .toWait | .woken | .exiting => true
  | .dispatching [] => true
  | .dispatching (mail :: _) => lockFree mail
  | .calling _ _ _ => true
  | .inCallback _ _ _ => !s.calls i
  | _ => false

/-- With running_ cleared, the worker can reach its end without the region's mutex_. -/
def leavesAlone : WorkerPos → Bool
  | .looping | .woken | .exiting => true
  | .dispatching locals => locals.all lockFree
  | .calling _ none rest | .inCallback _ none rest => rest.all lockFree
  | _ => false

def ending (slot : Nat) (s : State) (w : WorkerThread) : Bool :=
  (leavesAlone w.pos && decide (w.slot = some slot)) ||
    (decide (w.pos = .done) && (proAtomAt s slot).workerDone)

def stoppable (slot : Nat) (s : State) (w : WorkerThread) : Bool :=
  ending slot s w || (decide (w.pos = .waiting) && decide (w.slot = some slot))

def workerAt (slot : Nat) (s : State) : Option WorkerThread :=
  s.workers[(proAtomAt s slot).worker]?

/-- The actions of the dispatch loop over locals that need no mutex_, and the three that follow
    it once running_ is cleared. -/
def dispatchLeft : List MailAtom → Nat
  | [] => 3
  | mail :: rest => (if mail.obj = 0 then 1 else 3) + dispatchLeft rest

def stepsLeft : WorkerPos → Nat
  | .looping | .waiting | .woken => 2
  | .dispatching locals => dispatchLeft locals
  | .calling _ _ rest => 2 + dispatchLeft rest
  | .inCallback _ _ rest => 1 + dispatchLeft rest
  | .exiting => 1
  | _ => 0

/-- The broadcast finds the worker where it cannot leave alone, inside a call from its callback,
    or with more actions left than rate of them in each sleep between two polls; a callback of
    the worker calls a method that locks mutex_ while the destructor polls; or a sleep passes in
    which the worker takes fewer than rate actions and is not at its end. -/
def hurries (rate : Nat) (s : Timed) : TimedAction → Bool
  | .act .destroySignal =>
    match s.base.user with
    | some (.stopping _ _ slot) => !(workerAt slot s.base).any fun w =>
        stoppable slot s.base w && !s.calls (proAtomAt s.base slot).worker &&
          decide (stepsLeft w.pos ≤ timeoutMs * rate)
    | _ => false
  | .act .destroyPoll =>
    match s.base.user with
    | some (.joining _ _ slot polls) => decide (0 < polls ∧ s.taken < rate) &&
        (workerAt slot s.base).any fun w => canMove s (proAtomAt s.base slot).worker w.pos
    | _ => false
  | .enter i =>
    match s.base.user with
    | some (.joining _ _ slot _) => decide (i = (proAtomAt s.base slot).worker)
    | _ => false
  | _ => false

def GivesTime (rate : Nat) (s : Timed) (a : TimedAction) : Prop := hurries rate s a = false

instance (rate : Nat) (s : Timed) (a : TimedAction) : Decidable (GivesTime rate s a) :=
  inferInstanceAs (Decidable (_ = _))

theorem act_stepped {capacity : Nat} {s t : Timed} {a : Action}
    (stepped : (timed capacity).step s (.act a) = some t) :
    heldUp s a = false ∧ ∃ u, (machine capacity).step s.base a = some u ∧
      t = { s with base := u, taken := count s a } := by
  simp only [timed, timedStep] at stepped
  split at stepped
  · simp at stepped
  · rename_i goes
    obtain ⟨u, is, rfl⟩ := Option.map_eq_some_iff.mp stepped
    exact ⟨by simpa using goes, u, is, rfl⟩

theorem enter_stepped {capacity i : Nat} {s t : Timed}
    (stepped : (timed capacity).step s (.enter i) = some t) :
    inUpdate s.base i = true ∧ t = { s with calls := Function.update s.calls i true } := by
  simp only [timed, timedStep] at stepped
  split at stepped
  · rename_i inside
    exact ⟨inside, (Option.some.inj stepped).symm⟩
  · simp at stepped

theorem leave_stepped {capacity i : Nat} {s t : Timed}
    (stepped : (timed capacity).step s (.leave i) = some t) :
    s.base.user = none ∧ t = { s with calls := Function.update s.calls i false } := by
  simp only [timed, timedStep] at stepped
  split at stepped
  · rename_i free
    exact ⟨free.1, (Option.some.inj stepped).symm⟩
  · simp at stepped

theorem lockFree_unchecked {mail : MailAtom} (free : lockFree mail = true) (object : mail.obj ≠ 0) :
    Unchecked mail := by
  intro idx owns
  simpa [lockFree, object, owns] using free

/-- canMove is what the steps of the worker say, spurious wake-ups apart. -/
theorem canMove_iff {capacity i : Nat} {s : Timed} {w : WorkerThread}
    (thread : s.base.workers[i]? = some w) (kept : s.base.user ≠ none) :
    canMove s i w.pos = true ↔
      ∃ act t, act ≠ .spurious ∧ (timed capacity).step s (.act (.worker i act)) = some t := by
  have enabled : ∀ act, heldUp s (.worker i act) = false →
      (workerStep i w (w.slot.getD 0) s.base act w.pos).isSome →
      ∃ t, (timed capacity).step s (.act (.worker i act)) = some t := by
    intro act goes some
    obtain ⟨t, is⟩ := Option.isSome_iff_exists.mp some
    exact ⟨{ s with base := t, taken := count s (.worker i act) }, by
      simp [timed, timedStep, goes, step, thread, is]⟩
  constructor
  · intro moves
    have act : ∃ act, act ≠ .spurious ∧ heldUp s (.worker i act) = false ∧
        (workerStep i w (w.slot.getD 0) s.base act w.pos).isSome := by
      cases here : w.pos with
      | looping => exact ⟨.test, by simp, rfl, rfl⟩
      | toWait => exact ⟨.wait, by simp, rfl, rfl⟩
      | woken => exact ⟨.retest, by simp, rfl, rfl⟩
      | exiting => exact ⟨.finish, by simp, rfl, rfl⟩
      | calling mail size rest => exact ⟨.invoke, by simp, rfl, rfl⟩
      | inCallback mail size rest =>
        have outside : s.calls i = false := by simpa [canMove, here] using moves
        exact ⟨.comeBack, by simp, outside, by cases size <;> rfl⟩
      | dispatching locals =>
        refine ⟨.next, by simp, rfl, ?_⟩
        cases locals with
        | nil => rfl
        | cons mail rest =>
          simp only [here, canMove] at moves
          simp only [workerStep, nextMail]
          split
          · rfl
          · rename_i object
            split
            · rename_i idx owns
              rw [if_neg (lockFree_unchecked moves object idx owns)]
              rfl
            · rfl
      | starting | waiting | toDrain | toMark | done | crashed => simp [here, canMove] at moves
    obtain ⟨act, own, goes, some⟩ := act
    obtain ⟨t, stepped⟩ := enabled act goes some
    exact ⟨act, t, own, stepped⟩
  · rintro ⟨act, t, own, executed⟩
    obtain ⟨goes, u, stepped, _⟩ := act_stepped executed
    cases step_stepped stepped with
    | worker thread' moved =>
      rw [thread, Option.some.injEq] at thread'
      subst thread'
      cases moved with
      | find here free | crash here free | drain here free | mark here free
      | checked here object owns within free => exact absurd free kept
      | spurious => exact absurd rfl own
      | skip here empty => simp [here, canMove, lockFree, empty]
      | unchecked here object plain =>
        simp only [here, canMove, lockFree, Bool.or_eq_true, decide_eq_true_eq, Option.all_eq_true]
        exact Or.inr fun idx owns => plain idx owns
      | comeBackWithData here | comeBack here =>
        have outside : s.calls i = false := goes
        simp [here, canMove, outside]
      | test here | stop here | wait here | retest here | stopWoken here | idle here | invoke here
      | finish here => simp [here, canMove]

theorem leavesAlone_canMove {s : Timed} {i : Nat} {pos : WorkerPos}
    (leaves : leavesAlone pos = true) (outside : s.calls i = false) :
    canMove s i pos = true := by
  cases pos with
  | dispatching locals =>
    cases locals with
    | nil => rfl
    | cons mail rest =>
      simp only [leavesAlone, List.all_cons, Bool.and_eq_true] at leaves
      exact leaves.1
  | inCallback _ _ _ => simp [canMove, outside]
  | looping | woken | exiting | calling _ _ _ => rfl
  | starting | toWait | waiting | toDrain | toMark _ _ | done | crashed =>
    simp [leavesAlone] at leaves

theorem dispatchLeft_pos (locals : List MailAtom) : 0 < dispatchLeft locals := by
  induction locals with
  | nil => simp [dispatchLeft]
  | cons mail rest ih => simp only [dispatchLeft]; omega

theorem leavesAlone_left {pos : WorkerPos} (leaves : leavesAlone pos = true) :
    0 < stepsLeft pos := by
  cases pos with
  | dispatching locals => exact dispatchLeft_pos locals
  | looping | woken | exiting => simp [stepsLeft]
  | calling _ _ _ | inCallback _ _ _ => simp only [stepsLeft]; omega
  | starting | toWait | waiting | toDrain | toMark _ _ | done | crashed =>
    simp [leavesAlone] at leaves

structure EntryKept (slot : Nat) (s t : State) : Prop where
  running : (proAtomAt t slot).running = (proAtomAt s slot).running
  worker : (proAtomAt t slot).worker = (proAtomAt s slot).worker
  workerDone : (proAtomAt s slot).workerDone = true → (proAtomAt t slot).workerDone = true

theorem same_kept {s t : State} (slot : Nat) (same : t.region.protbl = s.region.protbl) :
    EntryKept slot s t := by
  constructor <;> simp [proAtomAt, same]

theorem written_kept {s t : State} {place slot : Nat}
    (written : t.region.protbl = write s.region.protbl place
      { proAtomAt s place with workerDone := true }) : EntryKept slot s t := by
  by_cases same : slot = place
  · subst same
    constructor <;> simp [proAtomAt, written, write]
  · constructor <;> simp [proAtomAt, written, write, Function.update_of_ne same]

theorem moved_kept {s t : State} {i slot : Nat} {w : WorkerThread} {act : WorkerAct}
    (moved : WorkerMoved i w s act t) (kept : s.user ≠ none) : EntryKept slot s t := by
  cases moved with
  | find here free | crash here free | drain here free | mark here free
  | checked here object owns within free => exact absurd free kept
  | finish here => exact written_kept rfl
  | _ => exact same_kept slot rfl

theorem ending_kept {slot : Nat} {s t : State} {w : WorkerThread} (kept : EntryKept slot s t)
    (ends : ending slot s w = true) : ending slot t w = true := by
  simp only [ending, Bool.or_eq_true, Bool.and_eq_true] at ends ⊢
  exact ends.imp id fun ⟨finished, told⟩ => ⟨finished, kept.workerDone told⟩

/-- The step lemma of a worker on its way out while the destructor keeps mutex_. -/
theorem moved_ending {s t : State} {i slot : Nat} {w : WorkerThread} {act : WorkerAct}
    (moved : WorkerMoved i w s act t) (kept : s.user ≠ none)
    (halted : (proAtomAt s slot).running = false) (ends : ending slot s w = true) :
    ∃ w', t.workers = s.workers.set i w' ∧ ending slot t w' = true ∧
      stepsLeft w'.pos + 1 ≤ stepsLeft w.pos := by
  simp only [ending, moved_busy moved, decide_false, Bool.false_and, Bool.or_false, Bool.and_eq_true,
    decide_eq_true_eq] at ends
  obtain ⟨leaves, cached⟩ := ends
  have stopped : (proAtomAt s (w.slot.getD 0)).running = false := by simpa [cached] using halted
  cases moved with
  | find here free | crash here free | drain here free | mark here free
  | checked here object owns within free => exact absurd free kept
  | test here runs | retest here runs => simp [stopped] at runs
  | wait here | spurious here => simp [here, leavesAlone] at leaves
  | stop here halted | stopWoken here halted | idle here =>
    exact ⟨_, rfl, by simp [ending, leavesAlone, cached], by simp [here, stepsLeft, dispatchLeft]⟩
  | skip here empty =>
    simp only [here, leavesAlone, List.all_cons, Bool.and_eq_true] at leaves
    refine ⟨_, rfl, by simp only [ending, leavesAlone, cached, leaves.2]; simp, ?_⟩
    simp only [here, stepsLeft, dispatchLeft, empty, if_true]
    omega
  | unchecked here object plain =>
    simp only [here, leavesAlone, List.all_cons, Bool.and_eq_true] at leaves
    refine ⟨_, rfl, by simp only [ending, leavesAlone, cached, leaves.2]; simp, ?_⟩
    simp only [here, stepsLeft, dispatchLeft, object, if_false]
    omega
  | @invoke mail size rest here =>
    have same : leavesAlone (.inCallback mail size rest) = true := by
      rw [here] at leaves
      cases size <;> exact leaves
    refine ⟨_, rfl, by simp only [ending, same, cached]; simp, ?_⟩
    simp only [here, stepsLeft]
    omega
  | comeBackWithData here => simp [here, leavesAlone] at leaves
  | comeBack here =>
    simp only [here, leavesAlone] at leaves
    refine ⟨_, rfl, by simp only [ending, leavesAlone, cached, leaves]; simp, ?_⟩
    simp only [here, stepsLeft]
    omega
  | finish here =>
    refine ⟨_, rfl, ?_, by simp [here, stepsLeft]⟩
    simp [ending, moveWorker, proAtomAt, writeSlot, write, cached]

theorem signal_ending {s : State} (pid addr : Nat) {slot : Nat} {w : WorkerThread}
    (worker : workerAt slot s = some w) (stops : stoppable slot s w = true) :
    ∃ w', workerAt slot (destroySignal pid addr slot s) = some w' ∧
      ending slot (destroySignal pid addr slot s) w' = true ∧
      stepsLeft w'.pos = stepsLeft w.pos := by
  have after : workerAt slot (destroySignal pid addr slot s) = some
      (if w.slot = some slot ∧ w.pos = .waiting then { w with pos := .woken } else w) := by
    simp only [workerAt] at worker
    simp only [workerAt, destroySignal, proAtomAt, wakeSlot, List.getElem?_map] at worker ⊢
    rw [worker]
    rfl
  refine ⟨_, after, ?_⟩
  split
  · rename_i waits
    exact ⟨by simp [ending, leavesAlone, waits.1], by simp [waits.2, stepsLeft]⟩
  · rename_i elsewhere
    simp only [stoppable, Bool.or_eq_true, Bool.and_eq_true, decide_eq_true_eq] at stops
    rcases stops with ends | ⟨waits, cached⟩
    · exact ⟨ends, rfl⟩
    · exact absurd ⟨cached, waits⟩ elsewhere

def Halted (s : State) : Prop :=
  match s.user with
  | some (.stopping _ _ slot) | some (.joining _ _ slot _) => (proAtomAt s slot).running = false
  | _ => True

theorem halted_free {s : State} (free : s.user = none) : Halted s := by
  simp [Halted, free]

theorem halted_broadcasting {s : State} {pids : List Nat} (user : s.user = some (.broadcasting pids)) :
    Halted s := by
  simp [Halted, user]

inductive Beside (s : State) : State → Prop where
  | still {t : State} (user : t.user = s.user) (workers : t.workers = s.workers)
      (region : t.region = s.region) : Beside s t
  | moved {i : Nat} {w : WorkerThread} {act : WorkerAct} {t : State}
      (thread : s.workers[i]? = some w) (moved : WorkerMoved i w s act t) : Beside s t

theorem step_beside {capacity : Nat} {s t : State} {a : Action} (kept : s.user ≠ none)
    (stepped : Stepped capacity s a t) :
    a = .broadcast ∨ a = .destroySignal ∨ a = .destroyPoll ∨ Beside s t := by
  cases stepped with
  | construct object unused free constructed => exact absurd free kept
  | addScalar object free | addList object free => exact absurd free kept
  | notify free | collect free => exact absurd free kept
  | destroyBegin live free | destroyPurge leaving free => exact absurd free kept
  | broadcast => exact Or.inl rfl
  | destroySignal => exact Or.inr (Or.inl rfl)
  | destroyPoll => exact Or.inr (Or.inr (Or.inl rfl))
  | rejectScalar | rejectList | destroyReturn =>
    exact Or.inr (Or.inr (Or.inr (.still rfl rfl rfl)))
  | worker thread moved => exact Or.inr (Or.inr (Or.inr (.moved thread moved)))

theorem beside_user {s t : State} (beside : Beside s t) : t.user = s.user := by
  cases beside with
  | still user workers region => exact user
  | moved thread moved => cases moved <;> rfl

theorem beside_kept {s t : State} (slot : Nat) (beside : Beside s t) (kept : s.user ≠ none) :
    EntryKept slot s t := by
  cases beside with
  | still user workers region => exact same_kept slot (congrArg Region.protbl region)
  | moved thread moved => exact moved_kept moved kept

theorem beside_halted {s t : State} (beside : Beside s t) (kept : s.user ≠ none)
    (before : Halted s) : Halted t := by
  unfold Halted at before ⊢
  rw [beside_user beside]
  split
  · rename_i pid addr slot user
    simp only [user] at before
    exact (beside_kept slot beside kept).running.trans before
  · rename_i pid addr slot polls user
    simp only [user] at before
    exact (beside_kept slot beside kept).running.trans before
  · trivial

theorem section_halted {capacity : Nat} {s t : State} {a : Action} (free : s.user = none)
    (stepped : Stepped capacity s a t) : Halted t := by
  cases stepped with
  | construct object unused _ constructed => exact halted_free (constructed.user.trans free)
  | @notify self n clock =>
    by_cases sends : (notify n clock s.region s.sent).2.msgcount > 0
    · exact halted_broadcasting (by simp only [notifyLocked, sends, reduceIte]; rfl)
    · exact halted_free (by simp only [notifyLocked, sends, reduceIte])
  | destroyBegin live _ begun =>
    cases begun with
    | leave | counted => exact halted_free free
    | last needs found down none_left => simp [Halted, proAtomAt, write]
  | broadcast user | destroySignal user | destroyPoll user => simp [free] at user
  | destroyPurge leaving _ left => cases left <;> exact halted_free free
  | worker thread moved =>
    apply halted_free
    cases moved <;> exact free
  | rejectScalar | rejectList | addScalar | addList | collect | destroyReturn =>
    exact halted_free free

theorem step_halted {capacity : Nat} {s t : State} {a : Action} (before : Halted s)
    (stepped : Stepped capacity s a t) : Halted t := by
  by_cases free : s.user = none
  · exact section_halted free stepped
  · rcases step_beside free stepped with rfl | rfl | rfl | beside
    · cases stepped with
      | @broadcast pid rest t user rounded =>
        have next := rounded_user rounded
        by_cases last : rest = []
        · exact halted_free (by simp [next, afterRound, last])
        · exact halted_broadcasting (by rw [next, afterRound, if_neg last])
    · cases stepped with
      | destroySignal user =>
        simp only [Halted, user] at before
        exact before
    · cases stepped with
      | destroyPoll user polled =>
        cases polled with
        | joined | timedOut => exact halted_free rfl
        | waited unfinished early =>
          simp only [Halted, user] at before
          exact before
    · exact beside_halted beside free before

inductive Joins (pid addr slot : Nat) (s : State) : Nat → Action → State → Prop where
  | signalled (user : s.user = some (.stopping pid addr slot)) :
      Joins pid addr slot s 0 .destroySignal (destroySignal pid addr slot s)
  | polled {polls : Nat} (user : s.user = some (.joining pid addr slot polls))
      (early : polls < timeoutMs) :
      Joins pid addr slot s (polls + 1) .destroyPoll
        { s with user := some (.joining pid addr slot (polls + 1)) }
  | worked {polls i : Nat} {w : WorkerThread} {act : WorkerAct} {t : State}
      (user : s.user = some (.joining pid addr slot polls)) (thread : s.workers[i]? = some w)
      (moved : WorkerMoved i w s act t) : Joins pid addr slot s polls (.worker i act) t
  | still {polls : Nat} {a : Action} {t : State}
      (user : s.user = some (.joining pid addr slot polls)) (workers : t.workers = s.workers)
      (region : t.region = s.region) (uncounted : ∀ x : Timed, count x a = x.taken) :
      Joins pid addr slot s polls a t

theorem step_joins {capacity pid addr slot polls : Nat} {s t : State} {a : Action}
    (stepped : Stepped capacity s a t) (user : t.user = some (.joining pid addr slot polls)) :
    Joins pid addr slot s polls a t := by
  cases stepped with
  | construct object unused free constructed => simp [constructed.user, free] at user
  | @notify self n clock =>
    by_cases sends : (notify n clock s.region s.sent).2.msgcount > 0 <;>
      simp [notifyLocked, sends] at user
  | @broadcast pid rest t user' rounded =>
    have next := rounded_user rounded
    rw [next, afterRound] at user
    split at user <;> simp at user
  | destroyBegin live free begun => cases begun <;> simp [free] at user
  | destroySignal user' =>
    simp only [destroySignal, Option.some.injEq, RegionUser.joining.injEq] at user
    obtain ⟨rfl, rfl, rfl, rfl⟩ := user
    exact .signalled user'
  | destroyPoll user' polled =>
    cases polled with
    | joined | timedOut => simp [destroyEntry] at user
    | waited unfinished early =>
      simp only [Option.some.injEq, RegionUser.joining.injEq] at user
      obtain ⟨rfl, rfl, rfl, rfl⟩ := user
      exact .polled user' early
  | destroyPurge leaving free left => cases left <;> simp [free] at user
  | @worker i w act t thread moved =>
    have same : t.user = s.user := by cases moved <;> rfl
    exact .worked (same ▸ user) thread moved
  | addScalar object free | addList object free | collect free => simp [free] at user
  | rejectScalar | rejectList | destroyReturn => exact .still user rfl rfl fun _ => rfl

/-- The worker of the entry is on its way out and in no call, and the polls that follow give it
    the actions it has left. -/
def InTime (rate slot polls : Nat) (s : Timed) : Prop :=
  ∃ w, workerAt slot s.base = some w ∧ ending slot s.base w = true ∧
    s.calls (proAtomAt s.base slot).worker = false ∧
    stepsLeft w.pos + s.taken ≤ (timeoutMs - (polls - 1)) * rate

theorem signal_inTime {rate pid addr slot : Nat} {s : Timed}
    (user : s.base.user = some (.stopping pid addr slot))
    (gives : GivesTime rate s (.act .destroySignal)) :
    InTime rate slot 0
      { s with base := destroySignal pid addr slot s.base, taken := count s .destroySignal } := by
  simp only [GivesTime, hurries, user, Bool.not_eq_eq_eq_not, Bool.not_false, Option.any_eq_true,
    Bool.and_eq_true, decide_eq_true_eq] at gives
  obtain ⟨w, worker, ⟨stops, outside⟩, left⟩ := gives
  obtain ⟨w', worker', ends, same⟩ := signal_ending pid addr worker stops
  exact ⟨w', worker', ends, outside, by simpa [count, same] using left⟩

/-- A poll finds the worker with no more actions left than the later sleeps give time for. -/
theorem poll_left {rate pid addr slot polls : Nat} {s : Timed} {w : WorkerThread}
    (user : s.base.user = some (.joining pid addr slot polls))
    (gives : GivesTime rate s (.act .destroyPoll)) (worker : workerAt slot s.base = some w)
    (ends : ending slot s.base w = true) (outside : s.calls (proAtomAt s.base slot).worker = false)
    (left : stepsLeft w.pos + s.taken ≤ (timeoutMs - (polls - 1)) * rate) :
    stepsLeft w.pos ≤ (timeoutMs - polls) * rate := by
  simp only [GivesTime, hurries, user, worker, Option.any_some, Bool.and_eq_false_iff,
    decide_eq_false_iff_not] at gives
  simp only [ending, Bool.or_eq_true, Bool.and_eq_true, decide_eq_true_eq] at ends
  rcases ends with ⟨leaves, _⟩ | ⟨finished, _⟩
  · rcases gives with slept | still
    · obtain first | ⟨k, rfl⟩ : polls = 0 ∨ ∃ k, polls = k + 1 := by
        cases polls <;> simp
      · subst first
        exact Nat.le_trans (Nat.le_add_right _ _) left
      · have enough : rate ≤ s.taken := by omega
        rw [Nat.add_sub_cancel] at left
        by_cases more : k < timeoutMs
        · have split : timeoutMs - k = timeoutMs - (k + 1) + 1 := by omega
          rw [split, Nat.succ_mul] at left
          omega
        · rw [Nat.sub_eq_zero_of_le (Nat.le_of_not_lt more), Nat.zero_mul] at left
          omega
    · simp [leavesAlone_canMove leaves outside] at still
  · simp [finished, stepsLeft]

theorem count_worker {s : Timed} {pid addr slot polls i : Nat} (act : WorkerAct)
    (user : s.base.user = some (.joining pid addr slot polls)) :
    count s (.worker i act) =
      if i = (proAtomAt s.base slot).worker then s.taken + 1 else s.taken := by
  simp only [count, user]

theorem worked_inTime {rate pid addr slot polls i : Nat} {s : Timed} {u : State} {x : WorkerThread}
    {act : WorkerAct} (user : s.base.user = some (.joining pid addr slot polls))
    (halted : (proAtomAt s.base slot).running = false)
    (thread : s.base.workers[i]? = some x) (moved : WorkerMoved i x s.base act u)
    (before : InTime rate slot polls s) :
    InTime rate slot polls { s with base := u, taken := count s (.worker i act) } := by
  obtain ⟨w, worker, ends, outside, left⟩ := before
  have kept : s.base.user ≠ none := by simp [user]
  have entry : EntryKept slot s.base u := moved_kept moved kept
  simp only [InTime, workerAt, entry.worker, count_worker act user]
  simp only [workerAt] at worker
  by_cases own : i = (proAtomAt s.base slot).worker
  · subst own
    obtain rfl : w = x := Option.some.inj (worker.symm.trans thread)
    obtain ⟨w', set, ends', less⟩ := moved_ending moved kept halted ends
    have bound := (List.getElem?_eq_some_iff.mp thread).1
    refine ⟨w', by rw [set, List.getElem?_set_self bound], ends', outside, ?_⟩
    rw [if_pos rfl]
    omega
  · obtain ⟨x', set, _⟩ := moved_set moved
    refine ⟨w, by rw [set, List.getElem?_set_ne own, worker], ending_kept entry ends, outside, ?_⟩
    rwa [if_neg own]

def Ready (rate : Nat) (s : Timed) : Prop :=
  Halted s.base ∧ ∀ pid addr slot polls,
    s.base.user = some (.joining pid addr slot polls) → InTime rate slot polls s

theorem joins_inTime {rate pid addr slot polls : Nat} {s : Timed} {u : State} {a : Action}
    (before : Ready rate s) (gives : GivesTime rate s (.act a))
    (joins : Joins pid addr slot s.base polls a u) :
    InTime rate slot polls { s with base := u, taken := count s a } := by
  have halted : ∀ polls, s.base.user = some (.joining pid addr slot polls) →
      (proAtomAt s.base slot).running = false := by
    intro polls user
    simpa only [Halted, user] using before.1
  cases joins with
  | signalled user => exact signal_inTime user gives
  | polled user early =>
    obtain ⟨w, worker, ends, outside, left⟩ := before.2 _ _ _ _ user
    exact ⟨w, worker, ends, outside, poll_left user gives worker ends outside left⟩
  | worked user thread moved =>
    exact worked_inTime user (halted _ user) thread moved (before.2 _ _ _ _ user)
  | still user workers region uncounted =>
    obtain ⟨w, worker, ends, outside, left⟩ := before.2 _ _ _ _ user
    refine ⟨w, ?_, ?_, ?_, ?_⟩
    · simpa only [workerAt, proAtomAt, workers, region] using worker
    · simpa only [ending, proAtomAt, region] using ends
    · simpa only [proAtomAt, region] using outside
    · simpa only [uncounted s] using left

theorem step_ready {capacity rate : Nat} {s t : Timed} {a : TimedAction} (before : Ready rate s)
    (gives : GivesTime rate s a) (stepped : (timed capacity).step s a = some t) : Ready rate t := by
  cases a with
  | act a =>
    obtain ⟨_, u, moved, rfl⟩ := act_stepped stepped
    have steps := step_stepped moved
    exact ⟨step_halted before.1 steps, fun pid addr slot polls user =>
      joins_inTime before gives (step_joins steps user)⟩
  | enter i =>
    obtain ⟨_, rfl⟩ := enter_stepped stepped
    refine ⟨before.1, fun pid addr slot polls user => ?_⟩
    obtain ⟨w, worker, ends, outside, left⟩ := before.2 pid addr slot polls user
    have apart : (proAtomAt s.base slot).worker ≠ i := by
      simp only [GivesTime, hurries] at gives
      rw [user] at gives
      exact fun same => of_decide_eq_false gives same.symm
    exact ⟨w, worker, ends, (Function.update_of_ne apart _ _).trans outside, left⟩
  | leave i =>
    obtain ⟨free, rfl⟩ := leave_stepped stepped
    exact ⟨before.1, fun pid addr slot polls user => by simp [free] at user⟩

theorem done_idle {s : State} {worker : Nat} (ended : isDone s worker = true) (capacity : Nat)
    (act : WorkerAct) : (machine capacity).step s (.worker worker act) = none := by
  apply Option.eq_none_iff_forall_ne_some.mpr
  intro t stepped
  cases step_stepped stepped with
  | worker thread moved =>
    simp [isDone, thread, moved_busy moved] at ended

theorem step_isDone {capacity worker : Nat} {s t : State} {a : Action}
    (stepped : Stepped capacity s a t) (before : isDone s worker = true) :
    isDone t worker = true := by
  obtain ⟨w, was, ended⟩ := Option.any_eq_true .. |>.mp before
  obtain ⟨w', is, _⟩ := step_keeps_thread stepped was
  simp only [decide_eq_true_eq] at ended
  have same : w' = w := by
    cases step_thread stepped is with
    | same was' => exact Option.some.inj (was'.symm.trans was)
    | woken was' waits =>
      rw [was, Option.some.injEq] at was'
      subst was'
      simp [ended] at waits
    | moved was' own moves =>
      rw [was, Option.some.injEq] at was'
      subst was'
      exact absurd ended (moved_busy moves)
    | started construct last =>
      have := (List.getElem?_eq_some_iff.mp was).1
      omega
  simp [isDone, is, same, ended]

theorem step_destroyed {capacity : Nat} {s t : State} {a : Action} (stepped : Stepped capacity s a t)
    {pid slot worker : Nat} {joined : Bool}
    (logged : .entryDestroyed pid slot worker joined ∈ t.log) :
    .entryDestroyed pid slot worker joined ∈ s.log ∨ a = .destroyPoll ∧ ∃ addr polls,
      s.user = some (.joining pid addr slot polls) ∧
      (joined = true ∧ isDone s worker = true ∨
        (proAtomAt s slot).workerDone = false ∧ ¬ polls < timeoutMs) := by
  obtain ⟨out, log, added⟩ := step_logged stepped
  rw [log, List.mem_append] at logged
  apply logged.imp id
  intro new
  cases added with
  | quiet | invoked | purged => simp at new
  | @destroyed pid' addr slot' polls joined' user ends =>
    simp only [List.mem_singleton, Event.entryDestroyed.injEq] at new
    obtain ⟨rfl, rfl, rfl, rfl⟩ := new
    exact ⟨rfl, addr, polls, user, ends⟩

theorem ready_in_time {rate pid addr slot polls : Nat} {s : Timed} (ready : Ready rate s)
    (gives : GivesTime rate s (.act .destroyPoll))
    (user : s.base.user = some (.joining pid addr slot polls)) (late : ¬ polls < timeoutMs) :
    (proAtomAt s.base slot).workerDone = true := by
  obtain ⟨w, worker, ends, outside, left⟩ := ready.2 pid addr slot polls user
  have none_left := poll_left user gives worker ends outside left
  rw [Nat.sub_eq_zero_of_le (Nat.le_of_not_lt late), Nat.zero_mul, Nat.le_zero] at none_left
  simp only [ending, Bool.or_eq_true, Bool.and_eq_true] at ends
  rcases ends with ⟨leaves, _⟩ | ⟨_, told⟩
  · have some_left := leavesAlone_left leaves
    omega
  · exact told

theorem step_orderly {capacity rate : Nat} {s t : Timed} {a : TimedAction} (ready : Ready rate s)
    (before : OrderlyShutdown s.base) (gives : GivesTime rate s a)
    (stepped : (timed capacity).step s a = some t) : OrderlyShutdown t.base := by
  cases a with
  | act a =>
    obtain ⟨_, u, moved, rfl⟩ := act_stepped stepped
    intro pid slot worker joined logged
    have earlier : joined = true ∧ isDone s.base worker = true := by
      rcases step_destroyed (step_stepped moved) logged with
        old | ⟨rfl, addr, polls, user, finished | late⟩
      · exact ⟨(before pid slot worker joined old).1, (before pid slot worker joined old).2.1⟩
      · exact finished
      · simp [ready_in_time ready gives user late.2] at late
    have ended := step_isDone (step_stepped moved) earlier.2
    exact ⟨earlier.1, ended, done_idle ended⟩
  | enter i =>
    obtain ⟨_, rfl⟩ := enter_stepped stepped
    exact before
  | leave i =>
    obtain ⟨_, rfl⟩ := leave_stepped stepped
    exact before

/-- When destructors broadcast to a worker that can leave by itself, and the sleeps between their
    polls let it take the actions it has left, they destroy no entry before its worker is joined. -/
theorem worker_joined_before_destroy {capacity rate : Nat} {s : Timed}
    (reached : (timed capacity).ReachableBy (GivesTime rate) s) : OrderlyShutdown s.base := by
  have both : Ready rate s ∧ OrderlyShutdown s.base := by
    refine invariant_of_steps (fun s => Ready rate s ∧ OrderlyShutdown s.base) ?_ ?_ reached
    · rintro s ⟨⟨protbl, payload, first⟩, _⟩
      refine ⟨⟨halted_free (by rw [first]; rfl), fun pid addr slot polls user => ?_⟩,
        fun pid slot worker joined logged => ?_⟩
      · simp [first, initial] at user
      · simp [first, initial] at logged
    · rintro s a t ⟨ready, orderly⟩ gives stepped
      exact ⟨step_ready ready gives stepped, step_orderly ready orderly gives stepped⟩
  exact both.2

/-- The instance is destroyed while its worker waits, and the worker takes one action in each of
    the sleeps between the polls. -/
def destroyedInTime : List TimedAction :=
  [.act (.construct 5 100 [7] [entrySeven]), .act (.worker 0 .find), .act (.worker 0 .test),
    .act (.worker 0 .wait), .act (.destroyBegin 5 100), .act .destroySignal, .act .destroyPoll,
    .act (.worker 0 .retest), .act .destroyPoll, .act (.worker 0 .finish), .act .destroyPoll,
    .act (.destroyPurge 5 100 [] [mailAtomInit]), .act (.destroyReturn 5 100)]

theorem destroyed_in_time_joined :
    ∃ s, (timed 22).runBy (fun s a => decide (GivesTime 1 s a)) { base := zeroed }
        destroyedInTime = some s ∧ OrderlyShutdown s.base := by
  obtain ⟨s, executed, reached⟩ := guarded_ends (m := timed 22) (s := { base := zeroed })
    (GivesTime 1) destroyedInTime ⟨zeroed_initial 22, fun _ => rfl, rfl⟩ (by decide +kernel)
  exact ⟨s, executed, worker_joined_before_destroy reached⟩

end SharedShutdown
